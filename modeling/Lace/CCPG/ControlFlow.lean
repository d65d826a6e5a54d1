import Lace.CCPG.NodeIds
import Lace.Library.Contraction
import Lace.Library.Flood

/-!
# The control flow of a function

A function of the graph is built from the CFG of its method. Only some nodes of the CFG become
nodes of the graph; `findChildren` searches through the other ones for the next nodes of the graph,
and `createFunction` connects each node with its children, starting from the function node. The
results of the searches are kept, also from one function to the next.

A node of the graph is named by its node of the CPG, since `createCCPGNode` makes one for each.

## Main definitions

* `ControlFlow`: the CFG and the nodes that are kept;
* `ControlFlow.findChildren`: the children of a node;
* `ControlFlow.createFunction`: the nodes and the edges of a function.

## Main results

* `mem_findChildren`: the children are the kept nodes behind dropped ones;
* `mem_nodes_createFunction`, `mem_edges_createFunction`: what a function consists of;
* `reflTransGen_edges_createFunction_iff`: its paths are those of the CFG from the function node;
* `contraction_preserves_paths`: both together, for two kept nodes.
-/

namespace Lace

open Library

/-- The CFG of a CPG. -/
structure ControlFlow where
  /-- The CFG edges. -/
  edges : List (CPGNodePtr × CPGNodePtr)
  /-- `ThreadAPIUtil::isCCPGNode`: the nodes that are kept. -/
  isCCPGNode : CPGNodePtr → Bool

namespace ControlFlow

variable (C : ControlFlow)

/-- A CFG edge. -/
def Step (m n : CPGNodePtr) : Prop := (m, n) ∈ C.edges

/-- The nodes that are kept. -/
def Kept (n : CPGNodePtr) : Prop := C.isCCPGNode n = true

/-- The targets of `outCFGEdges` of a node. -/
def outCFGEdges (n : CPGNodePtr) : List CPGNodePtr :=
  (C.edges.filter fun e => e.1 = n).map Prod.snd

/-- The targets of all edges. -/
def targets : Finset CPGNodePtr := (C.edges.map Prod.snd).toFinset

variable {C}

/-- The out-edges of a node are its steps. -/
@[simp]
theorem mem_outCFGEdges {m n : CPGNodePtr} : n ∈ C.outCFGEdges m ↔ C.Step m n := by
  simp [outCFGEdges, Step]

/-- Every step ends at a target. -/
theorem mem_targets_of_step {m n : CPGNodePtr} (h : C.Step m n) : n ∈ C.targets :=
  List.mem_toFinset.mpr (List.mem_map_of_mem h)

/-- Every out-edge leads to a target. -/
theorem outCFGEdges_subset (m : CPGNodePtr) : ∀ n ∈ C.outCFGEdges m, n ∈ C.targets :=
  fun _ hn => mem_targets_of_step (mem_outCFGEdges.mp hn)

/-! ### `findChildren` -/

variable (C) in
/-- The loop of `findChildren`, with the worklist, the visited nodes and the children. -/
def searchChildren : List CPGNodePtr → List CPGNodePtr → List CPGNodePtr → List CPGNodePtr
  | [], _, children => children
  | n :: worklist, visited, children =>
      if n ∈ visited then searchChildren worklist visited children
      -- The search does not go on behind a kept node.
      else if C.isCCPGNode n then searchChildren worklist (visited ++ [n]) (children ++ [n])
      else searchChildren (worklist ++ C.outCFGEdges n) (visited ++ [n]) children
termination_by worklist visited _ => ((pending C.targets worklist visited).card, worklist.length)
decreasing_by
  · exact lex_of_le_of_lt (card_pending_tail_le worklist visited n) (Nat.lt_succ_self _)
  · rename_i hn _
    exact Prod.Lex.left _ _ (card_pending_tail_lt hn)
  · rename_i hn _
    exact Prod.Lex.left _ _ (card_pending_visit_lt outCFGEdges_subset hn)

/-- The nodes that the search from `u` goes on to. -/
def succsFrom (C : ControlFlow) (u m : CPGNodePtr) : List CPGNodePtr :=
  if m = u then C.outCFGEdges m else if C.isCCPGNode m then [] else C.outCFGEdges m

/-- The search goes on from its start and from nodes that are not kept. -/
theorem mem_succsFrom {u m n : CPGNodePtr} :
    n ∈ C.succsFrom u m ↔ (m = u ∨ ¬C.Kept m) ∧ C.Step m n := by
  unfold succsFrom Kept
  split_ifs with hmu hkept
  · simp [hmu]
  · simp [hmu, hkept]
  · simp [hkept]

/-- What holds of the worklist, the visited nodes and the children of a search from `u`. -/
structure SearchInv (C : ControlFlow) (u : CPGNodePtr)
    (worklist visited children : List CPGNodePtr) : Prop where
  marks : MarkInv (C.succsFrom u) [u] worklist visited
  start_mem : u ∈ visited
  children : ∀ n, n ∈ children ↔ n ∈ visited ∧ n ≠ u ∧ C.Kept n

/-- The start is marked, and its successors are on the worklist. -/
theorem searchInv_start (u : CPGNodePtr) : C.SearchInv u (C.outCFGEdges u) [u] [] where
  marks := by
    have hsuccs : C.succsFrom u u = C.outCFGEdges u := if_pos rfl
    have hmark : MarkInv (C.succsFrom u) [u] ([] ++ C.outCFGEdges u) [u] := by
      refine (markInv_start [u]).mark (by simp) (fun m hm => ?_) fun m hm => Or.inl ?_
      · rwa [hsuccs]
      · rwa [← hsuccs]
    exact hmark
  start_mem := List.mem_cons_self
  children n := by
    rw [List.mem_singleton]
    refine ⟨fun h => absurd h List.not_mem_nil, ?_⟩
    rintro ⟨heq, hne, -⟩
    exact absurd heq hne

namespace SearchInv

variable {u n : CPGNodePtr} {worklist visited children : List CPGNodePtr}

/-- A node that was visited before is dropped without loss. -/
theorem skip (h : C.SearchInv u (n :: worklist) visited children) (hn : n ∈ visited) :
    C.SearchInv u worklist visited children :=
  { h with marks := h.marks.skip hn }

/-- A kept node becomes a child, and the search does not go on from it. -/
theorem keep (h : C.SearchInv u (n :: worklist) visited children) (hn : n ∉ visited)
    (hkept : C.Kept n) : C.SearchInv u worklist (visited ++ [n]) (children ++ [n]) where
  marks := by
    have hne : n ≠ u := fun heq => hn (heq ▸ h.start_mem)
    have hnone : ∀ m, m ∉ C.succsFrom u n := by
      intro m hm
      exact (mem_succsFrom.mp hm).1.elim hne fun hdrop => hdrop hkept
    have hmark : MarkInv (C.succsFrom u) [u] (worklist ++ []) (visited ++ [n]) :=
      h.marks.mark (by simp) (by simp) fun m hm => absurd hm (hnone m)
    rwa [List.append_nil] at hmark
  start_mem := List.mem_append_left _ h.start_mem
  children m := by
    have hne : n ≠ u := fun heq => hn (heq ▸ h.start_mem)
    rw [List.mem_append, List.mem_append, h.children, List.mem_singleton]
    constructor
    · rintro (⟨hm, hmu, hk⟩ | rfl)
      · exact ⟨Or.inl hm, hmu, hk⟩
      · exact ⟨Or.inr rfl, hne, hkept⟩
    · rintro ⟨hm | rfl, hmu, hk⟩
      · exact Or.inl ⟨hm, hmu, hk⟩
      · exact Or.inr rfl

/-- The search goes on from a node that is dropped. -/
theorem drop (h : C.SearchInv u (n :: worklist) visited children) (hn : n ∉ visited)
    (hdrop : ¬C.Kept n) :
    C.SearchInv u (worklist ++ C.outCFGEdges n) (visited ++ [n]) children where
  marks := by
    refine h.marks.mark (by simp) (fun m hm => ?_) fun m hm => Or.inl ?_
    · exact mem_succsFrom.mpr ⟨Or.inr hdrop, mem_outCFGEdges.mp hm⟩
    · exact mem_outCFGEdges.mpr (mem_succsFrom.mp hm).2
  start_mem := List.mem_append_left _ h.start_mem
  children m := by
    rw [h.children, List.mem_append, List.mem_singleton]
    constructor
    · rintro ⟨hm, hrest⟩
      exact ⟨Or.inl hm, hrest⟩
    · rintro ⟨hm | rfl, hrest⟩
      · exact ⟨hm, hrest⟩
      · exact absurd hrest.2 hdrop

/-- In the end the children are the kept nodes that the search reaches. -/
theorem searchChildren (h : C.SearchInv u worklist visited children) :
    ∃ visited', C.SearchInv u [] visited' (C.searchChildren worklist visited children) := by
  fun_induction ControlFlow.searchChildren C worklist visited children with
  | case1 visited children => exact ⟨visited, h⟩
  | case2 n worklist visited children hn ih => exact ih (h.skip hn)
  | case3 n worklist visited children hn hkept ih => exact ih (h.keep hn hkept)
  | case4 n worklist visited children hn hdrop ih => exact ih (h.drop hn hdrop)

end SearchInv

variable (C) in
/-- The result of a search from a node. -/
def childrenOf (u : CPGNodePtr) : List CPGNodePtr := C.searchChildren (C.outCFGEdges u) [u] []

/-- The children of a node are its successors in the contracted CFG. -/
theorem mem_childrenOf {u v : CPGNodePtr} :
    v ∈ C.childrenOf u ↔ Contracted C.Step C.Kept u v := by
  obtain ⟨visited, h⟩ := (searchInv_start (C := C) u).searchChildren
  rw [childrenOf, h.children, h.marks.mem_iff, Contracted]
  simp only [List.mem_singleton, exists_eq_left, mem_succsFrom]
  constructor
  · rintro ⟨hreach, hne, hkept⟩
    exact ⟨hkept, hne, (reflTransGen_stopping_iff hne).mp hreach⟩
  · rintro ⟨hkept, hne, hvia⟩
    exact ⟨(reflTransGen_stopping_iff hne).mpr hvia, hne, hkept⟩

variable (C) in
/-- `findChildrenCache`: each entry is the result of a search. -/
structure ChildrenCache where
  /-- The entries, by the start of the search. -/
  entries : List (CPGNodePtr × List CPGNodePtr)
  /-- What is kept was found. -/
  found : ∀ u children, entries.lookup u = some children → children = C.childrenOf u

namespace ChildrenCache

/-- Nothing is kept yet. -/
def empty : C.ChildrenCache := ⟨[], by simp⟩

/-- Keep the result of a search. -/
def store (cache : C.ChildrenCache) (u : CPGNodePtr) : C.ChildrenCache where
  entries := (u, C.childrenOf u) :: cache.entries
  found v children h := by
    rw [List.lookup_cons] at h
    split at h
    next heq =>
      rw [eq_of_beq heq]
      exact (Option.some.inj h).symm
    next => exact cache.found v children h

end ChildrenCache

/-- `findChildren`: the children, and the cache afterwards. -/
def findChildren (cache : C.ChildrenCache) (startNode : CPGNodePtr) :
    List CPGNodePtr × C.ChildrenCache :=
  match cache.entries.lookup startNode with
  | some children => (children, cache)
  | none => (C.childrenOf startNode, cache.store startNode)

/-- What is found does not depend on the cache. -/
theorem fst_findChildren (cache : C.ChildrenCache) (u : CPGNodePtr) :
    (findChildren cache u).1 = C.childrenOf u := by
  unfold findChildren
  cases hlookup : cache.entries.lookup u with
  | none => rfl
  | some children => exact cache.found u children hlookup

/-- The children of a node are its contracted successors. -/
theorem mem_findChildren {cache : C.ChildrenCache} {u v : CPGNodePtr} :
    v ∈ (findChildren cache u).1 ↔ Contracted C.Step C.Kept u v := by
  rw [fst_findChildren, mem_childrenOf]

/-! ### `createFunction` -/

variable (C) in
/-- `ccpg::Function`, and the variables of the loop that builds it. -/
structure FunctionState where
  /-- `nodes`. -/
  nodes : List CPGNodePtr
  /-- `edges`. -/
  edges : List (CPGNodePtr × CPGNodePtr)
  /-- `visitedNodes`. -/
  visitedNodes : List CPGNodePtr
  /-- `findChildrenCache`. -/
  cache : C.ChildrenCache

namespace FunctionState

/-- The children that are queued now. -/
def fresh (s : C.FunctionState) (node : CPGNodePtr) : List CPGNodePtr :=
  ((findChildren s.cache node).1.filter (· ∉ s.visitedNodes)).dedup

/-- The new nodes of a turn are the contracted successors not yet visited. -/
theorem mem_fresh {s : C.FunctionState} {m n : CPGNodePtr} :
    n ∈ s.fresh m ↔ Contracted C.Step C.Kept m n ∧ n ∉ s.visitedNodes := by
  rw [fresh, List.mem_dedup, List.mem_filter, mem_findChildren]
  simp

theorem nodup_fresh (s : C.FunctionState) (m : CPGNodePtr) : (s.fresh m).Nodup :=
  List.nodup_dedup _

/-- The new nodes are targets of the graph. -/
theorem fresh_subset (s : C.FunctionState) (m : CPGNodePtr) : ∀ n ∈ s.fresh m, n ∈ C.targets := by
  intro n hn
  cases (mem_fresh.mp hn).1.2.2 with
  | single hstep => exact mem_targets_of_step hstep
  | tail _ _ hstep => exact mem_targets_of_step hstep

/-- The turn of the loop for a node that is taken off the queue. -/
def turn (s : C.FunctionState) (node : CPGNodePtr) : C.FunctionState where
  nodes := s.nodes ++ [node]
  -- Every child gets an edge, also one that was queued before.
  edges := s.edges ++ (findChildren s.cache node).1.map fun child => (node, child)
  visitedNodes := s.fresh node ++ s.visitedNodes
  cache := (findChildren s.cache node).2

theorem visitedNodes_turn (s : C.FunctionState) (node : CPGNodePtr) :
    (s.turn node).visitedNodes = s.fresh node ++ s.visitedNodes := rfl

/-- The loop over `nodeQueue`. -/
def build : List CPGNodePtr → C.FunctionState → C.FunctionState
  | [], s => s
  | node :: nodeQueue, s => build (nodeQueue ++ s.fresh node) (s.turn node)
termination_by nodeQueue s => (C.targets.filter (· ∉ s.visitedNodes)).card + nodeQueue.length
decreasing_by
  -- A node that is marked pays for its place on the queue.
  have hle := card_unvisited_append_le C.targets (nodup_fresh s node) (fresh_subset s node)
    fun n hn => (mem_fresh.mp hn).2
  rw [visitedNodes_turn, List.length_append, List.length_cons]
  omega

/-- What holds of the queue and the state of a loop from the node `f`. -/
structure BuildInv (f : CPGNodePtr) (nodeQueue : List CPGNodePtr) (s : C.FunctionState) :
    Prop where
  root_mem : f ∈ s.visitedNodes
  reachable : ∀ n ∈ s.visitedNodes, Relation.ReflTransGen (Contracted C.Step C.Kept) f n
  visited : ∀ n, n ∈ s.visitedNodes ↔ n ∈ s.nodes ∨ n ∈ nodeQueue
  closed : ∀ m ∈ s.nodes, ∀ n, Contracted C.Step C.Kept m n → n ∈ s.visitedNodes
  edges : ∀ m n, (m, n) ∈ s.edges ↔ m ∈ s.nodes ∧ Contracted C.Step C.Kept m n

namespace BuildInv

variable {f node : CPGNodePtr} {nodeQueue : List CPGNodePtr} {s : C.FunctionState}

/-- A turn keeps the invariant. -/
theorem turn (h : BuildInv f (node :: nodeQueue) s) :
    BuildInv f (nodeQueue ++ s.fresh node) (s.turn node) where
  root_mem := List.mem_append_right _ h.root_mem
  reachable n hn := by
    rcases List.mem_append.mp hn with hn | hn
    · have hnode := h.reachable node ((h.visited node).mpr (Or.inr List.mem_cons_self))
      exact hnode.tail (mem_fresh.mp hn).1
    · exact h.reachable n hn
  visited n := by
    show n ∈ s.fresh node ++ s.visitedNodes ↔ n ∈ s.nodes ++ [node] ∨ n ∈ nodeQueue ++ s.fresh node
    simp only [List.mem_append, h.visited n, List.mem_cons]
    tauto
  closed m hm n hstep := by
    show n ∈ s.fresh node ++ s.visitedNodes
    rcases List.mem_append.mp hm with hm | hm
    · exact List.mem_append_right _ (h.closed m hm n hstep)
    · -- The children of the node were marked before, or are marked now.
      rw [List.mem_singleton.mp hm] at hstep
      by_cases hn : n ∈ s.visitedNodes
      · exact List.mem_append_right _ hn
      · exact List.mem_append_left _ (mem_fresh.mpr ⟨hstep, hn⟩)
  edges m n := by
    show (m, n) ∈ s.edges ++ _ ↔ m ∈ s.nodes ++ [node] ∧ _
    rw [List.mem_append, List.mem_append, h.edges, List.mem_map, List.mem_singleton, or_and_right]
    refine or_congr_right ⟨?_, ?_⟩
    · rintro ⟨child, hchild, heq⟩
      obtain ⟨rfl, rfl⟩ := Prod.mk.inj heq
      exact ⟨rfl, mem_findChildren.mp hchild⟩
    · rintro ⟨rfl, hstep⟩
      exact ⟨n, mem_findChildren.mpr hstep, rfl⟩

/-- The loop keeps it, until the queue is empty. -/
theorem build (h : BuildInv f nodeQueue s) : BuildInv f [] (build nodeQueue s) := by
  fun_induction FunctionState.build nodeQueue s with
  | case1 s => exact h
  | case2 s node nodeQueue ih => exact ih h.turn

/-- In the end the nodes are those that the contracted CFG reaches. -/
theorem mem_nodes (h : BuildInv f [] s) {n : CPGNodePtr} :
    n ∈ s.nodes ↔ Relation.ReflTransGen (Contracted C.Step C.Kept) f n := by
  have hvisited : ∀ m, m ∈ s.visitedNodes ↔ m ∈ s.nodes := fun m => by
    rw [h.visited m]
    simp
  rw [← hvisited]
  exact mem_iff_reflTransGen h.root_mem h.reachable fun m hm n hstep =>
    h.closed m ((hvisited m).mp hm) n hstep

end BuildInv

end FunctionState

/-- `createFunction`, for a function node that has no function yet. -/
def createFunction (cache : C.ChildrenCache) (funcNode : CPGNodePtr) : C.FunctionState :=
  FunctionState.build [funcNode] ⟨[], [], [funcNode], cache⟩

section CreateFunction

variable {cache : C.ChildrenCache} {f u v m n : CPGNodePtr}

/-- The invariant holds when the function has been created. -/
theorem buildInv_createFunction : FunctionState.BuildInv f [] (createFunction cache f) :=
  FunctionState.BuildInv.build
    { root_mem := List.mem_cons_self
      reachable := fun n hn => by rw [List.mem_singleton.mp hn]
      visited := fun n => by simp
      closed := fun m hm => absurd hm List.not_mem_nil
      edges := fun m n => by simp }

/-- The nodes of a function are the function node and the kept nodes that the CFG reaches from
it. -/
theorem mem_nodes_createFunction : n ∈ (createFunction cache f).nodes ↔
    n = f ∨ C.Kept n ∧ Relation.ReflTransGen C.Step f n := by
  rw [buildInv_createFunction.mem_nodes]
  constructor
  · intro h
    cases h.cases_tail with
    | inl heq => exact Or.inl heq
    | inr hstep =>
      obtain ⟨m, -, hmn⟩ := hstep
      exact Or.inr ⟨hmn.1, (reflTransGen_contracted_iff hmn.1).mp h⟩
  · rintro (rfl | ⟨hkept, hreach⟩)
    · exact Relation.ReflTransGen.refl
    · exact (reflTransGen_contracted_iff hkept).mpr hreach

/-- Its edges lead from its nodes to their children. -/
theorem mem_edges_createFunction : (m, n) ∈ (createFunction cache f).edges ↔
    m ∈ (createFunction cache f).nodes ∧ Contracted C.Step C.Kept m n :=
  buildInv_createFunction.edges m n

/-- The paths between different nodes of the function are those of the CFG, if the function node
reaches them. -/
theorem reflTransGen_edges_createFunction_iff (hu : C.Kept u) (hv : C.Kept v) (hne : u ≠ v) :
    Relation.ReflTransGen (fun m n => (m, n) ∈ (createFunction cache f).edges) u v ↔
      Relation.ReflTransGen C.Step f u ∧ Relation.ReflTransGen C.Step u v := by
  constructor
  · intro h
    have hmono : Relation.ReflTransGen (Contracted C.Step C.Kept) u v :=
      h.lift id fun m n hmn => (mem_edges_createFunction.mp hmn).2
    refine ⟨?_, (reflTransGen_contracted_iff hv).mp hmono⟩
    -- The first edge starts at a node of the function.
    rcases h.cases_head with heq | ⟨m, hum, -⟩
    · exact absurd heq hne
    · rcases mem_nodes_createFunction.mp (mem_edges_createFunction.mp hum).1 with rfl | ⟨-, hreach⟩
      · exact Relation.ReflTransGen.refl
      · exact hreach
  · rintro ⟨hfu, huv⟩
    have hpath := (reflTransGen_contracted_iff hv).mpr huv
    clear hv huv hne
    induction hpath with
    | refl => exact Relation.ReflTransGen.refl
    | @tail m n hum hmn ih =>
      have hkept : C.Kept m := by
        rcases hum.cases_tail with rfl | ⟨k, -, hkm⟩
        · exact hu
        · exact hkm.1
      have hreach := hfu.trans (reflTransGen_of_contracted hum)
      have hmem : m ∈ (createFunction cache f).nodes :=
        mem_nodes_createFunction.mpr (Or.inr ⟨hkept, hreach⟩)
      exact ih.tail (mem_edges_createFunction.mpr ⟨hmem, hmn⟩)

end CreateFunction

/-- For two kept nodes, one is a child of the other if the CFG has a path between them whose
interior is dropped, and a function has a path between them if the CFG has one and its function
node reaches the first. -/
theorem contraction_preserves_paths (cache : C.ChildrenCache) (f u v : CPGNodePtr) (hu : C.Kept u)
    (hv : C.Kept v) (hne : u ≠ v) :
    (v ∈ (findChildren cache u).1 ↔ Via C.Step C.Kept u v) ∧
      (Relation.ReflTransGen (fun m n => (m, n) ∈ (createFunction cache f).edges) u v ↔
        Relation.ReflTransGen C.Step f u ∧ Relation.ReflTransGen C.Step u v) := by
  refine ⟨?_, reflTransGen_edges_createFunction_iff hu hv hne⟩
  rw [mem_findChildren, Contracted, and_iff_right hv, and_iff_right (Ne.symm hne)]

/-- A function node with a kept successor `2`, from which a dropped node leads to the kept node `4`
and back to `2`. -/
def loopFlow : ControlFlow where
  edges := [(1, 2), (2, 3), (3, 4), (3, 2)]
  isCCPGNode n := n = 2 || n = 4

/-- The path from `2` to `4` through the dropped node is an edge of the function. -/
theorem loopFlow_contraction :
    4 ∈ (findChildren (ChildrenCache.empty (C := loopFlow)) 2).1 ∧
      Relation.ReflTransGen (fun m n =>
        (m, n) ∈ (createFunction (ChildrenCache.empty (C := loopFlow)) 1).edges) 2 4 := by
  have hstep : loopFlow.Step 1 2 ∧ loopFlow.Step 2 3 ∧ loopFlow.Step 3 4 := by
    simp [Step, loopFlow]
  have hkept : loopFlow.Kept 2 ∧ loopFlow.Kept 4 ∧ ¬loopFlow.Kept 3 := by
    simp [Kept, loopFlow]
  have hvia : Via loopFlow.Step loopFlow.Kept 2 4 := (Via.single hstep.2.1).tail hkept.2.2 hstep.2.2
  obtain ⟨hchild, hpath⟩ :=
    contraction_preserves_paths ChildrenCache.empty 1 2 4 hkept.1 hkept.2.1 (by decide)
  exact ⟨hchild.mpr hvia,
    hpath.mpr ⟨Relation.ReflTransGen.single hstep.1, hvia.reflTransGen⟩⟩

/-- A function node without successors, next to an edge between two kept nodes. -/
def deadFlow : ControlFlow where
  edges := [(2, 3)]
  isCCPGNode n := n = 2 || n = 3

/-- The CFG has a path from `2` to `3`, but the function of the node `1` has none. -/
theorem deadFlow_path_lost :
    deadFlow.Kept 2 ∧ deadFlow.Kept 3 ∧ Relation.ReflTransGen deadFlow.Step 2 3 ∧
      ¬Relation.ReflTransGen (fun m n =>
        (m, n) ∈ (createFunction (ChildrenCache.empty (C := deadFlow)) 1).edges) 2 3 := by
  have hedge : deadFlow.Step 2 3 := by simp [Step, deadFlow]
  refine ⟨by simp [Kept, deadFlow], by simp [Kept, deadFlow],
    Relation.ReflTransGen.single hedge, fun h => ?_⟩
  -- The node `2` would be a node of the function, but nothing leads from `1` to it.
  rcases h.cases_head with heq | ⟨m, hum, -⟩
  · cases heq
  · rcases mem_nodes_createFunction.mp (mem_edges_createFunction.mp hum).1 with heq | ⟨-, hreach⟩
    · cases heq
    · rcases hreach.cases_head with heq | ⟨k, hk, -⟩
      · cases heq
      · simp [Step, deadFlow] at hk

end ControlFlow

end Lace
