import Mathlib.Algebra.Group.Nat.Defs
import Mathlib.Data.Finset.Card
import Lace.CCPG.ThreadAPIUtil
import Lace.Library.Machine

/-!
# The ids of the nodes

`CCPG` gives every new node the number of nodes it has, plus one, as its id. Nodes can be removed
again, by `deleteNode` and by `removeFunction`, which shrink the set of nodes but leave the table
of the ids as it is; `removeFunction` also leaves the map from the nodes of the CPG.

An address is the number of nodes that were created before it, since no `CCPGNode` is ever freed.
The functions of the graph stand for themselves: their tables are not about nodes.

## Main definitions

* `NodeTable`: the nodes of a `CCPG` with the tables about them;
* `NodeTable.createCCPGNode`, `NodeTable.deleteNode`, `NodeTable.removeFunction`;
* `NodeTable.Identified`: the ids identify the nodes;
* `NodeTable.KeepsNodes`: a call that removes no node of the graph and finds an unused id.

## Main results

* `NodeTable.Deleted.step`: a deleted node stays deleted;
* `NodeTable.always_identified_iff`: along which runs the ids identify the nodes.
-/

namespace Lace

open Library

/-- `CCPGNode *`: the address of a node, as the number of its allocation. -/
abbrev NodePtr := ℕ

/-- `ccpg::Function *`: the address of a function. -/
abbrev FunctionPtr := ℕ

/-- `Node *`: a node of the code property graph. -/
abbrev CPGNodePtr := ℕ

/-- `CCPGNode`: what the graph sets when it creates a node. -/
structure CCPGNode where
  /-- `id`, an `int`. -/
  id : BitVec 32
  /-- `cpgNode`. -/
  cpgNode : CPGNodePtr
  /-- `type`. -/
  type : ThreadAPIType
  /-- `callSite`. -/
  callSite : Bool
  /-- `function`, null at first. -/
  function : Option FunctionPtr

/-- The types of nodes that are no call sites. -/
def nonCallSites : List ThreadAPIType :=
  [.dummy, .loop, .branch, .goto, .gotoTarget, .controlStructure, .return, .assignment,
    .hareParFor, .global]

/-- The nodes of a `CCPG`. -/
structure NodeTable where
  /-- The number of nodes that were ever created; they have the addresses below it. -/
  allocated : ℕ
  /-- The node at an address. -/
  node : NodePtr → CCPGNode
  /-- `nodes`. -/
  nodes : Finset NodePtr
  /-- `edges`. -/
  edges : List (NodePtr × NodePtr)
  /-- `typeToNodeSet`. -/
  typeToNodeSet : ThreadAPIType → Finset NodePtr
  /-- `IDToCCPGNode`. -/
  idToCCPGNode : BitVec 32 → Option NodePtr
  /-- `cpgNodeToCCPGNodeMap`. -/
  cpgNodeToCCPGNodeMap : CPGNodePtr → Option NodePtr

/-- The calls that change the nodes. -/
inductive NodeOp
  /-- `createCCPGNode`; the argument may be null. -/
  | create (n : Option CPGNodePtr)
  /-- `CCPGNode::setFunction`, which `createFunction` calls. -/
  | setFunction (p : NodePtr) (f : FunctionPtr)
  /-- `createCCPGEdge`. -/
  | createEdge (src dst : NodePtr)
  /-- `deleteNode`. -/
  | delete (p : NodePtr)
  /-- `removeFunction`. -/
  | removeFunction (f : FunctionPtr)
  deriving DecidableEq, Repr

namespace NodeTable

variable (U : ThreadAPIUtil) (cpg : CPGNodePtr → CPGNode) (T : NodeTable)

/-- The table of a new graph. -/
def empty : NodeTable where
  allocated := 0
  node _ := ⟨0, 0, .dummy, false, none⟩
  nodes := ∅
  edges := []
  typeToNodeSet _ := ∅
  idToCCPGNode _ := none
  cpgNodeToCCPGNodeMap _ := none

/-- `CCPG::getNodeByID`: what the table of ids has for an id. -/
def getNodeByID (id : BitVec 32) : Option NodePtr := T.idToCCPGNode id

/-- `CCPG::addNode`, for the node that was created last. -/
def addNode (node : CCPGNode) : NodeTable :=
  let p := T.allocated
  { T with
    allocated := p + 1
    node := Function.update T.node p node
    nodes := insert p T.nodes
    typeToNodeSet := Function.update T.typeToNodeSet node.type
      (insert p (T.typeToNodeSet node.type))
    idToCCPGNode := Function.update T.idToCCPGNode node.id (some p)
    cpgNodeToCCPGNodeMap := Function.update T.cpgNodeToCCPGNodeMap node.cpgNode (some p) }

/-- The node that is created for a node of the CPG: its id is the number of nodes plus one. -/
def newNode (n : CPGNodePtr) : CCPGNode where
  id := BitVec.ofNat 32 (T.nodes.card + 1)
  cpgNode := n
  type := U.getType (cpg n)
  callSite := U.getType (cpg n) ∉ nonCallSites
  function := none

/-- `CCPG::createCCPGNode`: the node for a CPG node, made at the first call. -/
def createCCPGNode : Option CPGNodePtr → Option NodePtr × NodeTable
  | none => (none, T)
  | some n =>
    match T.cpgNodeToCCPGNodeMap n with
    | some p => (some p, T)
    | none => (some T.allocated, T.addNode (T.newNode U cpg n))

/-- `CCPG::createCCPGEdge`: an edge is added, without looking whether it is there. -/
def createCCPGEdge (src dst : NodePtr) : NodeTable := { T with edges := T.edges ++ [(src, dst)] }

/-- `CCPGNode::setFunction`: a node gets the function it belongs to. -/
def setFunction (p : NodePtr) (f : FunctionPtr) : NodeTable :=
  { T with node := Function.update T.node p { T.node p with function := some f } }

/-- `CCPG::deleteNode`: a node goes with its edges; the table of ids keeps it. -/
def deleteNode (p : NodePtr) : NodeTable :=
  { T with
    edges := T.edges.filter fun e => e.1 ≠ p ∧ e.2 ≠ p
    nodes := T.nodes.erase p
    cpgNodeToCCPGNodeMap := Function.update T.cpgNodeToCCPGNodeMap (T.node p).cpgNode none }

/-- `CCPG::removeFunction`: the nodes of a function go. -/
def removeFunction (f : FunctionPtr) : NodeTable :=
  { T with nodes := T.nodes.filter fun p => (T.node p).function ≠ some f }

/-- One call. A caller only has addresses of nodes that were created. -/
def step : NodeOp → Option NodeTable
  | .create n => some (T.createCCPGNode U cpg n).2
  | .setFunction p f => if p < T.allocated then some (T.setFunction p f) else none
  | .createEdge src dst =>
    if src < T.allocated ∧ dst < T.allocated then some (T.createCCPGEdge src dst) else none
  | .delete p => if p < T.allocated then some (T.deleteNode p) else none
  | .removeFunction f => some (T.removeFunction f)

/-! ### Live and deleted nodes -/

/-- The node was created, and it is in the graph no more. -/
def Deleted (p : NodePtr) : Prop := p < T.allocated ∧ p ∉ T.nodes

/-- The ids identify the nodes of the graph. -/
structure Identified : Prop where
  /-- No two nodes of the graph have the same id. -/
  id_inj : ∀ p ∈ T.nodes, ∀ q ∈ T.nodes, (T.node p).id = (T.node q).id → p = q
  /-- A node of the graph is found by its id. -/
  getNodeByID_id : ∀ p ∈ T.nodes, T.getNodeByID (T.node p).id = some p
  /-- No node is found that was deleted. -/
  not_deleted : ∀ id p, T.getNodeByID id = some p → ¬T.Deleted p

/-- The call removes no node of the graph, and where it creates one there are less than `2 ^ 32`. -/
def KeepsNodes : NodeOp → Prop
  | .create n => ∀ m, n = some m → T.cpgNodeToCCPGNodeMap m = none → T.nodes.card < 2 ^ 32
  | .setFunction _ _ => True
  | .createEdge _ _ => True
  | .delete p => p ∉ T.nodes
  | .removeFunction f => ∀ p ∈ T.nodes, (T.node p).function ≠ some f

variable {U cpg T} {T' : NodeTable} {op : NodeOp} {p : NodePtr}

/-- What one call can do to the nodes: it adds one, or it removes some, or it leaves them. -/
theorem step_cases (h : T.step U cpg op = some T') :
    (∃ n, op = .create (some n) ∧ T.cpgNodeToCCPGNodeMap n = none ∧
      T' = T.addNode (T.newNode U cpg n)) ∨
    (T'.allocated = T.allocated ∧ (∀ q, (T'.node q).id = (T.node q).id) ∧
      T'.idToCCPGNode = T.idToCCPGNode ∧ T'.nodes ⊆ T.nodes) := by
  cases op with
  | create n =>
    obtain rfl := Option.some.inj h
    cases n with
    | none => exact Or.inr ⟨rfl, fun _ => rfl, rfl, subset_rfl⟩
    | some n =>
      -- Only a node of the CPG without a node of the graph gets a new one.
      cases hmap : T.cpgNodeToCCPGNodeMap n with
      | some p => exact Or.inr (by simp [createCCPGNode, hmap])
      | none => exact Or.inl ⟨n, rfl, hmap, by simp [createCCPGNode, hmap]⟩
  | setFunction p f =>
    obtain ⟨-, ⟨⟩⟩ := Option.ite_none_right_eq_some.mp h
    refine Or.inr ⟨rfl, fun q => ?_, rfl, subset_rfl⟩
    by_cases hq : q = p
    · subst hq
      simp [setFunction]
    · simp [setFunction, hq]
  | createEdge src dst =>
    obtain ⟨-, ⟨⟩⟩ := Option.ite_none_right_eq_some.mp h
    exact Or.inr ⟨rfl, fun _ => rfl, rfl, subset_rfl⟩
  | delete p =>
    obtain ⟨-, ⟨⟩⟩ := Option.ite_none_right_eq_some.mp h
    exact Or.inr ⟨rfl, fun _ => rfl, rfl, Finset.erase_subset _ _⟩
  | removeFunction f =>
    obtain rfl := Option.some.inj h
    exact Or.inr ⟨rfl, fun _ => rfl, rfl, Finset.filter_subset _ _⟩

/-- A deleted node never comes back: only new nodes are added. -/
theorem Deleted.step (h : T.Deleted p) (hstep : T.step U cpg op = some T') : T'.Deleted p := by
  -- A new node is behind all that were created before.
  obtain ⟨n, -, -, rfl⟩ | ⟨halloc, -, -, hnodes⟩ := step_cases hstep
  · refine ⟨Nat.lt_succ_of_lt h.1, fun hmem => ?_⟩
    obtain heq | hmem := Finset.mem_insert.mp hmem
    · exact h.1.ne heq
    · exact h.2 hmem
  · exact ⟨halloc.symm ▸ h.1, fun hmem => h.2 (hnodes hmem)⟩

/-! ### Runs that keep their nodes -/

/-- The table when no node was ever removed: the nodes are numbered from one. -/
structure Numbered (T : NodeTable) : Prop where
  /-- All nodes are in the graph. -/
  nodes_eq : T.nodes = Finset.range T.allocated
  /-- There are not too many. -/
  allocated_le : T.allocated ≤ 2 ^ 32
  /-- The ids count the nodes. -/
  id_eq : ∀ p < T.allocated, (T.node p).id = BitVec.ofNat 32 (p + 1)
  /-- The table of the ids has each node under its id, and nothing else. -/
  getNodeByID_iff : ∀ id p, T.getNodeByID id = some p ↔ p < T.allocated ∧ (T.node p).id = id

/-- The first `2 ^ 32` ids are different. -/
theorem ofNat_inj {p q : ℕ} (hp : p < 2 ^ 32) (hq : q < 2 ^ 32)
    (h : BitVec.ofNat 32 (p + 1) = BitVec.ofNat 32 (q + 1)) : p = q := by
  -- The id `2 ^ 32` wraps to zero, which no other node has.
  have hmod : (p + 1) % 2 ^ 32 = (q + 1) % 2 ^ 32 := by
    simpa only [BitVec.toNat_ofNat] using congrArg BitVec.toNat h
  omega

theorem numbered_empty : Numbered empty where
  nodes_eq := rfl
  allocated_le := Nat.zero_le _
  id_eq _ hp := absurd hp (Nat.not_lt_zero _)
  getNodeByID_iff _ p := ⟨nofun, fun h => absurd h.1 (Nat.not_lt_zero p)⟩

namespace Numbered

theorem mem_nodes (h : T.Numbered) : p ∈ T.nodes ↔ p < T.allocated := by
  rw [h.nodes_eq, Finset.mem_range]

theorem card_nodes (h : T.Numbered) : T.nodes.card = T.allocated := by
  rw [h.nodes_eq, Finset.card_range]

theorem identified (h : T.Numbered) : T.Identified where
  id_inj p hp q hq hid := by
    rw [h.mem_nodes] at hp hq
    rw [h.id_eq p hp, h.id_eq q hq] at hid
    exact ofNat_inj (hp.trans_le h.allocated_le) (hq.trans_le h.allocated_le) hid
  getNodeByID_id p hp := (h.getNodeByID_iff _ p).mpr ⟨h.mem_nodes.mp hp, rfl⟩
  not_deleted id p hget hdel := hdel.2 (h.mem_nodes.mpr ((h.getNodeByID_iff id p).mp hget).1)

/-- The id of a new node is the next number. -/
theorem newNode_id (h : T.Numbered) (n : CPGNodePtr) :
    (T.newNode U cpg n).id = BitVec.ofNat 32 (T.allocated + 1) := by
  rw [newNode, h.card_nodes]

/-- A new node gets an id that no other node has. -/
theorem addNode (h : T.Numbered) (n : CPGNodePtr) (hlt : T.nodes.card < 2 ^ 32) :
    (T.addNode (T.newNode U cpg n)).Numbered := by
  rw [h.card_nodes] at hlt
  -- The node is put at a new address, and the others stay as they are.
  have hnode : ∀ p < T.allocated,
      (T.addNode (T.newNode U cpg n)).node p = T.node p := fun p hp => by
    simp [NodeTable.addNode, hp.ne]
  have hnew : (T.addNode (T.newNode U cpg n)).node T.allocated = T.newNode U cpg n := by
    simp [NodeTable.addNode]
  -- So every address has its own id, also the new one.
  have hids : ∀ p < T.allocated + 1,
      ((T.addNode (T.newNode U cpg n)).node p).id = BitVec.ofNat 32 (p + 1) := by
    intro p hp
    obtain hp | rfl := Nat.lt_succ_iff_lt_or_eq.mp hp
    · rw [hnode p hp, h.id_eq p hp]
    · rw [hnew, h.newNode_id]
  refine ⟨?_, hlt, hids, fun id p => ?_⟩
  · rw [NodeTable.addNode, h.nodes_eq, Finset.range_add_one]
  · by_cases hid : id = (T.newNode U cpg n).id
    · -- The new id is found at the new node only.
      subst hid
      have hget : (T.addNode (T.newNode U cpg n)).getNodeByID (T.newNode U cpg n).id =
          some T.allocated := by
        simp [getNodeByID, NodeTable.addNode]
      rw [hget, Option.some_inj]
      constructor
      · rintro rfl
        exact ⟨Nat.lt_succ_self _, by rw [hnew]⟩
      · rintro ⟨hp, hpid⟩
        rw [hids p hp, h.newNode_id] at hpid
        exact (ofNat_inj ((Nat.lt_succ_iff.mp hp).trans_lt hlt) hlt hpid).symm
    · -- Under any other id the table is as it was.
      have hget : (T.addNode (T.newNode U cpg n)).getNodeByID id = T.getNodeByID id := by
        simp [getNodeByID, NodeTable.addNode, hid]
      rw [hget, h.getNodeByID_iff id p]
      constructor
      · rintro ⟨hp, hpid⟩
        exact ⟨Nat.lt_succ_of_lt hp, by rw [hnode p hp, hpid]⟩
      · rintro ⟨hp, hpid⟩
        obtain hp | rfl := Nat.lt_succ_iff_lt_or_eq.mp hp
        · exact ⟨hp, by rw [← hnode p hp, hpid]⟩
        · exact absurd (hnew ▸ hpid).symm hid

/-- A call that leaves the nodes where they are leaves them numbered. -/
theorem of_nodes_eq (h : T.Numbered) (halloc : T'.allocated = T.allocated)
    (hid : ∀ q, (T'.node q).id = (T.node q).id) (htable : T'.idToCCPGNode = T.idToCCPGNode)
    (hnodes : T'.nodes = T.nodes) : T'.Numbered where
  nodes_eq := by rw [hnodes, halloc, h.nodes_eq]
  allocated_le := halloc ▸ h.allocated_le
  id_eq p hp := by rw [hid, h.id_eq p (halloc ▸ hp)]
  getNodeByID_iff id p := by rw [getNodeByID, htable, halloc, hid]; exact h.getNodeByID_iff id p

end Numbered

/-- A call that keeps the nodes and adds none changes the set of nodes in no way. -/
theorem nodes_eq_of_keepsNodes (h : T.step U cpg op = some T') (hkeep : T.KeepsNodes op)
    (hsub : T'.nodes ⊆ T.nodes) : T'.nodes = T.nodes := by
  refine subset_antisymm hsub ?_
  cases op with
  | create n =>
    -- A node that is created comes to the others.
    obtain rfl := Option.some.inj h
    cases n with
    | none => exact subset_rfl
    | some n =>
      cases hmap : T.cpgNodeToCCPGNodeMap n with
      | some p => simp [createCCPGNode, hmap]
      | none => simp [createCCPGNode, hmap, addNode]
  | setFunction p f =>
    obtain ⟨-, ⟨⟩⟩ := Option.ite_none_right_eq_some.mp h
    exact subset_rfl
  | createEdge src dst =>
    obtain ⟨-, ⟨⟩⟩ := Option.ite_none_right_eq_some.mp h
    exact subset_rfl
  | delete p =>
    obtain ⟨-, ⟨⟩⟩ := Option.ite_none_right_eq_some.mp h
    exact (Finset.erase_eq_of_notMem hkeep).symm.subset
  | removeFunction f =>
    obtain rfl := Option.some.inj h
    exact fun p hp => Finset.mem_filter.mpr ⟨hp, hkeep p hp⟩

theorem Numbered.step (h : T.Numbered) (hstep : T.step U cpg op = some T')
    (hkeep : T.KeepsNodes op) : T'.Numbered := by
  obtain ⟨n, rfl, hmap, rfl⟩ | ⟨halloc, hid, htable, hnodes⟩ := step_cases hstep
  · exact h.addNode n (hkeep n rfl hmap)
  · exact h.of_nodes_eq halloc hid htable (nodes_eq_of_keepsNodes hstep hkeep hnodes)

/-- A node that is removed is still found by its id. -/
theorem Numbered.not_identified_of_removed (h : T.Numbered) (hp : p ∈ T.nodes)
    (halloc : T'.allocated = T.allocated) (htable : T'.idToCCPGNode = T.idToCCPGNode)
    (hremoved : p ∉ T'.nodes) : ¬T'.Identified := by
  intro hT'
  have hlt : p < T.allocated := h.mem_nodes.mp hp
  -- No call but a creation changes the table of the ids.
  have hget : T'.getNodeByID (T.node p).id = some p := by
    rw [getNodeByID, htable]
    exact (h.getNodeByID_iff _ p).mpr ⟨hlt, rfl⟩
  exact hT'.not_deleted _ p hget ⟨halloc ▸ hlt, hremoved⟩

/-- Every other call breaks the numbering. -/
theorem Numbered.not_identified (h : T.Numbered) (hstep : T.step U cpg op = some T')
    (hkeep : ¬T.KeepsNodes op) : ¬T'.Identified := by
  cases op with
  | create n =>
    simp only [KeepsNodes, not_forall, not_lt] at hkeep
    obtain ⟨n, rfl, hmap, hfull⟩ := hkeep
    obtain rfl := Option.some.inj hstep
    -- The graph is full, so the next id is the one of the first node.
    have hall : T.allocated = 2 ^ 32 := le_antisymm h.allocated_le (h.card_nodes ▸ hfull)
    intro hT'
    simp only [createCCPGNode, hmap] at hT'
    have hzero : (0 : NodePtr) < T.allocated := by rw [hall]; exact Nat.two_pow_pos 32
    have heq : T.allocated = 0 := by
      refine hT'.id_inj _ (Finset.mem_insert_self _ _) 0
        (Finset.mem_insert_of_mem (h.mem_nodes.mpr hzero)) ?_
      have hnew : ((T.addNode (T.newNode U cpg n)).node T.allocated).id =
          BitVec.ofNat 32 (T.allocated + 1) := by
        simp [NodeTable.addNode, h.newNode_id]
      have hold : ((T.addNode (T.newNode U cpg n)).node 0).id = BitVec.ofNat 32 (0 + 1) := by
        simp only [NodeTable.addNode, ne_eq, hzero.ne, not_false_eq_true, Function.update_of_ne]
        exact h.id_eq 0 hzero
      rw [hnew, hold, hall]
      rfl
    exact hzero.ne' heq
  | setFunction p f => exact absurd trivial hkeep
  | createEdge src dst => exact absurd trivial hkeep
  -- The table still has the node under its id.
  | delete p =>
    obtain ⟨-, ⟨⟩⟩ := Option.ite_none_right_eq_some.mp hstep
    exact h.not_identified_of_removed (not_not.mp hkeep) rfl rfl (Finset.notMem_erase p _)
  | removeFunction f =>
    obtain rfl := Option.some.inj hstep
    simp only [KeepsNodes, not_forall, ne_eq, not_not] at hkeep
    obtain ⟨p, hp, hf⟩ := hkeep
    exact h.not_identified_of_removed hp rfl rfl fun hmem => (Finset.mem_filter.mp hmem).2 hf

/-- The ids identify the nodes all along a run exactly if no call of the run removes a node of the
graph, and none creates one in a graph with `2 ^ 32` nodes. -/
theorem always_identified_iff (U : ThreadAPIUtil) (cpg : CPGNodePtr → CPGNode)
    (ops : List NodeOp) :
    Always (step U cpg) Identified empty ops ↔ Meets (step U cpg) KeepsNodes empty ops :=
  always_iff_meets (fun _ h => h.identified) (fun _ _ _ h hstep hkeep => h.step hstep hkeep)
    (fun _ _ _ h hstep hkeep => h.not_identified hstep hkeep) numbered_empty

/-! ### A deleted node whose id is used again -/

/-- Two nodes are created, the first one is deleted, and a third one is created. -/
def deleteThenCreate : List NodeOp := [.create (some 0), .create (some 1), .delete 0,
  .create (some 2)]

/-- The third node gets the id of the second one, and the deleted node is still found. -/
theorem deleteThenCreate_not_identified :
    (∃ T, runInputs (step ⟨fun _ => none⟩ fun _ => ⟨"Call", "f", "", 1⟩) empty deleteThenCreate =
        some T ∧ T.nodes = {1, 2} ∧ (T.node 1).id = 2 ∧ (T.node 2).id = 2 ∧
      T.getNodeByID 1 = some 0 ∧ T.Deleted 0) ∧
    ¬Always (step ⟨fun _ => none⟩ fun _ => ⟨"Call", "f", "", 1⟩) Identified empty
      deleteThenCreate := by
  have hrun : ∃ T, runInputs (step ⟨fun _ => none⟩ fun _ => ⟨"Call", "f", "", 1⟩) empty
      deleteThenCreate = some T ∧ T.nodes = {1, 2} ∧ (T.node 1).id = 2 ∧ (T.node 2).id = 2 ∧
      T.getNodeByID 1 = some 0 ∧ T.Deleted 0 :=
    ⟨_, rfl, by decide, by decide, by decide, by decide, Nat.succ_pos 2, by decide⟩
  refine ⟨hrun, fun h => ?_⟩
  obtain ⟨T, hT, -, -, -, hget, hdel⟩ := hrun
  exact (h.last hT).not_deleted 1 0 hget hdel

end NodeTable

end Lace
