import Lace.HBGraph.Basic
import Lace.Library.Worklist
import Lace.Surface.Basic

/-!
# Ordering evidence

The evidence against which the requirement checker evaluates requirements: the static
happens-before graph, the edges of the `Order` and `Wait` guarantees, and the nodes that
`Exclude` and `AtomicOp` guarantees attach to a token.

## Main definitions

* `NodeGuar`, `NodeReq`, `ConcurrencyContract`: the contracts;
* `OrderingEvidence`: the evidence, and the tests on it;
* `buildEvidence`: the evidence of a set of threads;
* `OrderingEvidence.Le`: one evidence contains the other.

## Main results

* `cfReach_iff`, `staticSyncOrder_iff`, `ordReach_iff`: what the tests decide;
* `Le.ordReach` and its companions: every test is monotone.
-/

namespace Lace

open Library

/-- The forms of a requirement that the contract tool records. -/
inductive ReqForm
  | mustPrecede | mustBeAtomic | mustBeMediated
  deriving DecidableEq, Repr

/-- The forms of a guarantee that the contract tool records. -/
inductive GuarForm
  | order | exclude | atomicOp | wait
  deriving DecidableEq, Repr

/-- `ConcurrencyContract::NodeReq`: what a thread needs of others at some of its nodes. -/
structure NodeReq where
  /-- Which requirement it is. -/
  form : ReqForm
  /-- The first operand, or the sequence of an atomic region. -/
  a : List NodeId
  /-- The second operand. -/
  b : List NodeId
  /-- The surface object the requirement is anchored to, -1 if none. -/
  objectId : ℤ
  /-- A remark. -/
  note : String
  deriving DecidableEq, Repr

/-- `ConcurrencyContract::NodeGuar`: the fields that the checker reads. -/
structure NodeGuar where
  /-- Which guarantee it is. -/
  form : GuarForm
  /-- The first operand, or the protected nodes. -/
  a : List NodeId
  /-- The second operand of `Order` and `Wait`. -/
  b : List NodeId
  /-- The token of `Exclude` and `AtomicOp`. -/
  token : String
  /-- The mode of `Exclude`. -/
  mode : String
  deriving DecidableEq, Repr

/-- `ConcurrencyContract`: its node-anchored part. -/
structure ConcurrencyContract where
  /-- The requirements of the thread. -/
  nodeReqs : List NodeReq
  /-- The guarantees of the thread. -/
  nodeGuars : List NodeGuar
  deriving DecidableEq, Repr

/-- `contractsByTid`. -/
abbrev ContractMap := Tid → Option ConcurrencyContract

namespace ContractMap

/-- The requirements of a thread, none if it has no contract. -/
def nodeReqs (contracts : ContractMap) (tid : Tid) : List NodeReq :=
  ((contracts tid).map ConcurrencyContract.nodeReqs).getD []

/-- The guarantees of a thread, none if it has no contract. -/
def nodeGuars (contracts : ContractMap) (tid : Tid) : List NodeGuar :=
  ((contracts tid).map ConcurrencyContract.nodeGuars).getD []

end ContractMap

/-- A map from tokens to nodes, as the list of its entries. -/
abbrev TokenMap := List (String × NodeId)

/-- The nodes of a token. -/
def TokenMap.nodes (m : TokenMap) (tok : String) : List NodeId :=
  (m.filter fun e => e.1 = tok).map Prod.snd

@[simp]
theorem TokenMap.mem_nodes {m : TokenMap} {tok : String} {n : NodeId} :
    n ∈ m.nodes tok ↔ (tok, n) ∈ m := by
  simp [TokenMap.nodes]

/-- `OrderingEvidence`: all that is known about the order of nodes in a session. -/
structure OrderingEvidence where
  /-- The graph the nodes belong to. -/
  ccpg : CCPG
  /-- The static happens-before graph. -/
  hb : HBGraph
  /-- The environment variables. -/
  env : LaceEnv
  /-- The edges of the `Order` and `Wait` guarantees. -/
  guarEdges : List (NodeId × NodeId)
  /-- The nodes that hold a token exclusively. -/
  exclExclusive : TokenMap
  /-- The nodes that hold a token shared. -/
  exclShared : TokenMap
  /-- The nodes that access a token atomically. -/
  atomicTok : TokenMap
  /-- The depth of the graph queries. -/
  maxDepth : ℤ := 64

/-- `l2SyncPolicy`. -/
def l2SyncPolicy (env : LaceEnv) : SyncPolicy :=
  if env.l2SyncAll then .allMechanisms else .structuralOnly

namespace OrderingEvidence

variable (ev : OrderingEvidence)

/-- `cfReach`: a walk along any edges. -/
def cfReach (a b : NodeId) : Bool :=
  a = b ||
    match ev.ccpg.getNodeByID a, ev.ccpg.getNodeByID b with
    | some x, some y => ev.hb.hbReachable ev.env x y ev.maxDepth false .allMechanisms
    | _, _ => false

/-- `staticSyncOrder`: a walk that crosses a synchronization edge. -/
def staticSyncOrder (a b : NodeId) : Bool :=
  match ev.ccpg.getNodeByID a, ev.ccpg.getNodeByID b with
  | some x, some y => ev.hb.hbReachable ev.env x y ev.maxDepth true (l2SyncPolicy ev.env)
  | _, _ => false

/-- The closure that `ordReach` computes over the guarantee edges. -/
def guarProblem (a b : NodeId) : WorklistProblem NodeId where
  initial := (ev.guarEdges.filter fun e => ev.cfReach a e.1).map Prod.snd
  next x := (ev.guarEdges.filter fun e => x = e.1 || ev.cfReach x e.1).map Prod.snd
  goal x := ev.cfReach x b

/-- `ordReach`: a synchronized walk, or a chain of guarantees with control flow in between. -/
def ordReach (a b : NodeId) : Bool :=
  if a = b then true
  else if ev.staticSyncOrder a b then true
  else if ev.guarEdges.isEmpty then false
  else (ev.guarProblem a b).run (ev.guarEdges.length + 1)

/-- `commonExclusion`: a token covers both nodes, at least one of them exclusively. -/
def commonExclusion (a b : NodeId) : Bool :=
  (ev.exclExclusive.map Prod.fst).any fun tok =>
    let aIn := decide (a ∈ ev.exclExclusive.nodes tok)
    let bInEx := decide (b ∈ ev.exclExclusive.nodes tok)
    let bInSh := decide (b ∈ ev.exclShared.nodes tok)
    let aInSh := decide (a ∈ ev.exclShared.nodes tok)
    aIn && (bInEx || bInSh) || aInSh && bInEx

/-- `atomicCompatible`: both nodes access one token atomically. -/
def atomicCompatible (a b : NodeId) : Bool :=
  (ev.atomicTok.map Prod.fst).any fun tok =>
    decide (a ∈ ev.atomicTok.nodes tok) && decide (b ∈ ev.atomicTok.nodes tok)

end OrderingEvidence

/-! ### Building the evidence -/

section BuildEvidence

variable (ccpg : CCPG)

/-- `nodeOk`: a contract may name ids of no node, which are left out. -/
def nodeOk (id : NodeId) : Bool := (ccpg.getNodeByID id).isSome

/-- The edges that a guarantee adds. -/
def NodeGuar.edges (g : NodeGuar) : List (NodeId × NodeId) :=
  match g.form with
  | .order | .wait =>
      g.a.flatMap fun a => g.b.flatMap fun b =>
        if nodeOk ccpg a && nodeOk ccpg b then [(a, b)] else []
  | _ => []

/-- The nodes that a guarantee puts under its token. -/
def NodeGuar.tokenNodes (g : NodeGuar) : TokenMap :=
  (g.a.filter (nodeOk ccpg)).map fun a => (g.token, a)

/-- The entries that a guarantee adds to `exclShared` or to `exclExclusive`. -/
def NodeGuar.exclusions (shared : Bool) (g : NodeGuar) : TokenMap :=
  if g.form = .exclude ∧ decide (g.mode = "shared") = shared then g.tokenNodes ccpg else []

/-- The entries that a guarantee adds to `atomicTok`. -/
def NodeGuar.atomics (g : NodeGuar) : TokenMap :=
  if g.form = .atomicOp then g.tokenNodes ccpg else []

/-- The guarantees of the threads in a set. -/
def guarantees (threadSet : TidSet) (contracts : ContractMap) : List NodeGuar :=
  threadSet.toList.flatMap contracts.nodeGuars

/-- `buildEvidence`: the evidence of a session: the graph, and what its threads guarantee. -/
def buildEvidence (threadSet : TidSet) (contracts : ContractMap) (hb : HBGraph) (env : LaceEnv) :
    OrderingEvidence where
  ccpg := ccpg
  hb := hb
  env := env
  guarEdges := (guarantees threadSet contracts).flatMap (NodeGuar.edges ccpg)
  exclExclusive := (guarantees threadSet contracts).flatMap (NodeGuar.exclusions ccpg false)
  exclShared := (guarantees threadSet contracts).flatMap (NodeGuar.exclusions ccpg true)
  atomicTok := (guarantees threadSet contracts).flatMap (NodeGuar.atomics ccpg)

end BuildEvidence

namespace OrderingEvidence

variable {ev ev' : OrderingEvidence} {a b : NodeId}

/-! ### What the tests decide -/

/-- The length of the longest walk that a graph query finds. -/
def cap (ev : OrderingEvidence) : ℕ := (envInt ev.env.hbMaxDepth ev.maxDepth).toNat

theorem cfReach_self : ev.cfReach a a = true := by
  simp [cfReach]

theorem ordReach_self : ev.ordReach a a = true := by
  simp [ordReach]

/-- `cfReach` finds the walks within the cap between two nodes of the graph. -/
theorem cfReach_iff : ev.cfReach a b = true ↔ a = b ∨ (a ∈ ev.ccpg.nodes ∧ b ∈ ev.ccpg.nodes ∧
    ∃ k ≤ ev.cap, Steps ev.hb.Step a k b) := by
  by_cases hab : a = b
  · simp [hab, cfReach_self]
  have hreach : ev.hb.hbReachable ev.env a b ev.maxDepth false .allMechanisms = true ↔
      ∃ k ≤ ev.cap, Steps ev.hb.Step a k b := by
    rw [HBGraph.hbReachable_iff, if_neg hab]
    constructor
    · rintro ⟨k, c, hk, hsteps, -⟩
      exact ⟨k, hk, HBGraph.steps_forget hsteps⟩
    · rintro ⟨k, hk, hsteps⟩
      obtain ⟨c, hc⟩ := HBGraph.steps_exists_flag hsteps false
      exact ⟨k, c, hk, hc, nofun⟩
  simp only [cfReach, CCPG.getNodeByID, hab, decide_false, Bool.false_or, false_or]
  by_cases ha : a ∈ ev.ccpg.nodes <;> by_cases hb : b ∈ ev.ccpg.nodes <;> simp [ha, hb, hreach]

/-- A walk along the static graph that crosses a synchronization edge. -/
def SyncWalk (ev : OrderingEvidence) (a : NodeId) (k : ℕ) (b : NodeId) : Prop :=
  Steps (ev.hb.SyncStep (l2SyncPolicy ev.env)) (a, false) k (b, true)

/-- `staticSyncOrder` finds the synchronized walks within the cap between distinct nodes. -/
theorem staticSyncOrder_iff : ev.staticSyncOrder a b = true ↔
    a ∈ ev.ccpg.nodes ∧ b ∈ ev.ccpg.nodes ∧ a ≠ b ∧ ∃ k ≤ ev.cap, ev.SyncWalk a k b := by
  have hreach : ev.hb.hbReachable ev.env a b ev.maxDepth true (l2SyncPolicy ev.env) = true ↔
      a ≠ b ∧ ∃ k ≤ ev.cap, ev.SyncWalk a k b := by
    rw [HBGraph.hbReachable_iff]
    split_ifs with hab
    · simp [hab]
    · constructor
      · rintro ⟨k, c, hk, hsteps, hc⟩
        obtain rfl := hc rfl
        exact ⟨hab, k, hk, hsteps⟩
      · rintro ⟨-, k, hk, hsteps⟩
        exact ⟨k, true, hk, hsteps, fun _ => rfl⟩
  simp only [staticSyncOrder, CCPG.getNodeByID]
  by_cases ha : a ∈ ev.ccpg.nodes <;> by_cases hb : b ∈ ev.ccpg.nodes <;> simp [ha, hb, hreach]

/-- Control flow to the source of a guarantee edge, and over the edge. -/
def GuarHop (ev : OrderingEvidence) (x y : NodeId) : Prop :=
  ∃ e ∈ ev.guarEdges, ev.cfReach x e.1 = true ∧ e.2 = y

/-- The loop over the guarantees finds the chains of them. It enters targets of guarantee edges only,
so its fuel is enough. -/
theorem run_guarProblem_iff : (ev.guarProblem a b).run (ev.guarEdges.length + 1) = true ↔
    ∃ x, Relation.TransGen ev.GuarHop a x ∧ ev.cfReach x b = true := by
  have hinitial : ∀ x, x ∈ (ev.guarProblem a b).initial ↔ ev.GuarHop a x := by
    intro x
    simp [guarProblem, GuarHop, and_assoc]
  have hsucc : (ev.guarProblem a b).Succ = ev.GuarHop := by
    ext x y
    simp only [WorklistProblem.Succ, guarProblem, List.mem_map, List.mem_filter, Bool.or_eq_true,
      decide_eq_true_eq, GuarHop, and_assoc]
    refine exists_congr fun e => and_congr_right fun _ => and_congr_left fun _ => ?_
    exact or_iff_right_of_imp fun h => h ▸ cfReach_self
  have hmem : ∀ x y, ev.GuarHop x y → y ∈ (ev.guarEdges.map Prod.snd).toFinset := by
    rintro x y ⟨e, he, -, rfl⟩
    exact List.mem_toFinset.mpr (List.mem_map_of_mem he)
  have hcard : (ev.guarEdges.map Prod.snd).toFinset.card < ev.guarEdges.length + 1 :=
    Nat.lt_succ_of_le (card_toFinset_map_le _ _)
  rw [WorklistProblem.run_eq_true_iff _ (fun x hx => hmem a x ((hinitial x).mp hx))
    (fun x y hy => hmem x y (hsucc ▸ hy)) hcard, hsucc]
  simp only [hinitial]
  constructor
  · rintro ⟨s, hs, x, hx, hgoal⟩
    exact ⟨x, Relation.TransGen.head' hs hx, hgoal⟩
  · rintro ⟨x, hx, hgoal⟩
    obtain ⟨s, hs, hsx⟩ := Relation.TransGen.head'_iff.mp hx
    exact ⟨s, hs, x, hsx, hgoal⟩

/-- `ordReach` finds the synchronized walks and the chains of guarantees. -/
theorem ordReach_iff : ev.ordReach a b = true ↔ a = b ∨ ev.staticSyncOrder a b = true ∨
    ∃ x, Relation.TransGen ev.GuarHop a x ∧ ev.cfReach x b = true := by
  unfold ordReach
  by_cases hab : a = b
  · simp [hab]
  by_cases hsync : ev.staticSyncOrder a b = true
  · simp [hsync]
  rw [if_neg hab, if_neg hsync]
  simp only [hab, hsync, Bool.false_eq_true, false_or]
  by_cases hempty : ev.guarEdges.isEmpty = true
  · -- The early return: without guarantee edges there is no hop.
    rw [if_pos hempty]
    have hnil : ev.guarEdges = [] := List.isEmpty_iff.mp hempty
    refine iff_of_false Bool.false_ne_true ?_
    rintro ⟨x, hx, -⟩
    obtain ⟨y, ⟨e, he, -⟩, -⟩ := Relation.TransGen.head'_iff.mp hx
    rw [hnil] at he
    exact List.not_mem_nil he
  · rw [if_neg hempty, run_guarProblem_iff]

/-- Without guarantees only the static order is left. -/
theorem ordReach_of_no_guarantee (hnil : ev.guarEdges = []) (hab : a ≠ b) :
    ev.ordReach a b = ev.staticSyncOrder a b := by
  unfold ordReach
  rw [if_neg hab, hnil]
  cases ev.staticSyncOrder a b <;> simp

/-- Two nodes are excluded exactly if one holds a token that the other holds too, at least one of
them exclusively. -/
theorem commonExclusion_iff : ev.commonExclusion a b = true ↔ ∃ tok,
    (tok, a) ∈ ev.exclExclusive ∧ ((tok, b) ∈ ev.exclExclusive ∨ (tok, b) ∈ ev.exclShared) ∨
      (tok, a) ∈ ev.exclShared ∧ (tok, b) ∈ ev.exclExclusive := by
  simp only [commonExclusion, List.any_eq_true, List.mem_map, Bool.or_eq_true, Bool.and_eq_true,
    decide_eq_true_eq, TokenMap.mem_nodes]
  constructor
  · rintro ⟨tok, -, h⟩
    exact ⟨tok, h⟩
  · rintro ⟨tok, h⟩
    refine ⟨tok, ?_, h⟩
    rcases h with ⟨ha, -⟩ | ⟨-, hb⟩
    · exact ⟨_, ha, rfl⟩
    · exact ⟨_, hb, rfl⟩

/-- Two nodes are atomically compatible exactly if they share a token. -/
theorem atomicCompatible_iff : ev.atomicCompatible a b = true ↔
    ∃ tok, (tok, a) ∈ ev.atomicTok ∧ (tok, b) ∈ ev.atomicTok := by
  simp only [atomicCompatible, List.any_eq_true, List.mem_map, Bool.and_eq_true,
    decide_eq_true_eq, TokenMap.mem_nodes]
  constructor
  · rintro ⟨tok, -, h⟩
    exact ⟨tok, h⟩
  · rintro ⟨tok, h⟩
    exact ⟨tok, ⟨_, h.1, rfl⟩, h⟩

/-! ### More evidence -/

/-- `ev'` contains the evidence of `ev`. -/
structure Le (ev ev' : OrderingEvidence) : Prop where
  ccpg_eq : ev'.ccpg = ev.ccpg
  env_eq : ev'.env = ev.env
  maxDepth_eq : ev'.maxDepth = ev.maxDepth
  hb_subset : ev.hb.edges ⊆ ev'.hb.edges
  guarEdges_subset : ev.guarEdges ⊆ ev'.guarEdges
  exclExclusive_subset : ev.exclExclusive ⊆ ev'.exclExclusive
  exclShared_subset : ev.exclShared ⊆ ev'.exclShared
  atomicTok_subset : ev.atomicTok ⊆ ev'.atomicTok

namespace Le

variable (hle : Le ev ev')

include hle

/-- More evidence does not change the cap. -/
theorem cap_eq : ev'.cap = ev.cap := by
  rw [cap, cap, hle.env_eq, hle.maxDepth_eq]

/-- More evidence keeps what is reachable. -/
theorem cfReach (h : ev.cfReach a b = true) : ev'.cfReach a b = true := by
  rw [cfReach_iff] at h ⊢
  rw [hle.ccpg_eq, hle.cap_eq]
  refine h.imp_right fun ⟨ha, hb, k, hk, hsteps⟩ => ⟨ha, hb, k, hk, hsteps.mono ?_⟩
  rintro x y ⟨e, he, hrest⟩
  exact ⟨e, hle.hb_subset he, hrest⟩

/-- More evidence keeps what is synchronised. -/
theorem staticSyncOrder (h : ev.staticSyncOrder a b = true) :
    ev'.staticSyncOrder a b = true := by
  rw [staticSyncOrder_iff] at h ⊢
  obtain ⟨ha, hb, hab, k, hk, hwalk⟩ := h
  rw [hle.ccpg_eq, hle.cap_eq]
  refine ⟨ha, hb, hab, k, hk, ?_⟩
  unfold SyncWalk at hwalk ⊢
  rw [hle.env_eq]
  exact hwalk.mono fun _ _ => HBGraph.SyncStep.mono fun e he => hle.hb_subset he

/-- More evidence gives more order. -/
theorem ordReach (h : ev.ordReach a b = true) : ev'.ordReach a b = true := by
  rw [ordReach_iff] at h ⊢
  rcases h with rfl | h | ⟨x, hx, hxb⟩
  · exact Or.inl rfl
  · exact Or.inr (Or.inl (hle.staticSyncOrder h))
  · have hhop : ∀ u v, ev.GuarHop u v → ev'.GuarHop u v := by
      rintro u v ⟨e, he, hreach, hv⟩
      exact ⟨e, hle.guarEdges_subset he, hle.cfReach hreach, hv⟩
    exact Or.inr (Or.inr ⟨x, Relation.TransGen.mono hhop a x hx, hle.cfReach hxb⟩)

/-- More evidence keeps what is excluded. -/
theorem commonExclusion (h : ev.commonExclusion a b = true) : ev'.commonExclusion a b = true := by
  rw [commonExclusion_iff] at h ⊢
  obtain ⟨tok, h⟩ := h
  exact ⟨tok, h.imp
    (fun ⟨ha, hb⟩ => ⟨hle.exclExclusive_subset ha,
      hb.imp (fun h => hle.exclExclusive_subset h) fun h => hle.exclShared_subset h⟩)
    fun ⟨ha, hb⟩ => ⟨hle.exclShared_subset ha, hle.exclExclusive_subset hb⟩⟩

/-- More evidence keeps what is atomic. -/
theorem atomicCompatible (h : ev.atomicCompatible a b = true) :
    ev'.atomicCompatible a b = true := by
  rw [atomicCompatible_iff] at h ⊢
  obtain ⟨tok, ha, hb⟩ := h
  exact ⟨tok, hle.atomicTok_subset ha, hle.atomicTok_subset hb⟩

end Le

end OrderingEvidence

end Lace
