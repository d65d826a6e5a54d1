import Mathlib.Data.Finset.Prod
import Mathlib.Data.Fintype.Card
import Lace.CCPG.Basic
import Lace.Library.Search

/-!
# The happens-before graph

`HBGraph` and its reachability query. The query is a breadth-first search over pairs of a node
and a flag that tells whether the walk has crossed a synchronization edge; a depth cap, which an
environment variable may override, bounds the length of the walks.

## Main definitions

* `HBEdgeKind`, `SyncPolicy`, `isSyncEdge`: which edges count as synchronization;
* `HBGraph.hbReachable`: the query;
* `HBGraph.SyncStep`: one edge of a walk, with the flag.

## Main results

* `hbReachable_iff`: the query finds exactly the walks within the cap.
-/

namespace Lace

open Library

/-- `HBEdgeKind`: what a happens-before edge comes from. -/
inductive HBEdgeKind
  | programOrder | callReturn | lockReleaseAcquire | forkToEntry | joinFromExit | rcuSync
  | refcountLastPut | relAcqPair | bhIrqInterval | completion | lifecycleFlag
  deriving DecidableEq, Repr

/-- `HBEdge`: one node happens before another. -/
structure HBEdge where
  /-- Where the edge starts. -/
  src : NodeId
  /-- Where the edge ends. -/
  dst : NodeId
  /-- What the edge comes from. -/
  kind : HBEdgeKind
  /-- A note on its origin. -/
  evidence : String
  deriving DecidableEq, Repr

/-- `HBGraph::SyncPolicy`. -/
inductive SyncPolicy
  | allMechanisms | structuralOnly
  deriving DecidableEq, Repr

/-- The environment variables that the analyses read. -/
structure LaceEnv where
  /-- `HB_MAX_DEPTH`. -/
  hbMaxDepth : Option ℤ
  /-- `HB_RCU_MAX_EDGES`. -/
  hbRcuMaxEdges : Option ℤ
  /-- `LACE_L2_SYNC_ALL` is set and does not start with `0`. -/
  l2SyncAll : Bool
  deriving DecidableEq, Repr

/-- `envInt`: the variable, or a default where it is not set. -/
def envInt (var : Option ℤ) (default : ℤ) : ℤ := var.getD default

/-- `isSyncEdge`: whether edges of a kind synchronise two threads, under a policy. -/
def isSyncEdge : HBEdgeKind → SyncPolicy → Bool
  | .programOrder, _ => false
  | .callReturn, _ => false
  | .lockReleaseAcquire, _ => true
  | .forkToEntry, _ => true
  | .joinFromExit, _ => true
  | _, policy => policy = .allMechanisms

/-- The kinds that `StructuralOnly` admits: control flow, locks, forks and joins. -/
def HBEdgeKind.isStructural : HBEdgeKind → Bool
  | .programOrder | .callReturn | .lockReleaseAcquire | .forkToEntry | .joinFromExit => true
  | _ => false

/-- `HBGraph`: its edges in the order in which they were added. -/
structure HBGraph where
  /-- The edges; `outEdges_` lists them by source. -/
  edges : List HBEdge
  deriving DecidableEq, Repr

namespace HBGraph

/-- The entry of `outEdges_` for a node. -/
def outEdges (G : HBGraph) (n : NodeId) : List HBEdge := G.edges.filter fun e => e.src = n

/-- The graph without the edges that are not structural. -/
def structural (G : HBGraph) : HBGraph := ⟨G.edges.filter (·.kind.isStructural)⟩

/-- The search of `hbReachable`. -/
def reachProblem (G : HBGraph) (cap : ℕ) (n2 : NodeId) (requireSyncEdge : Bool)
    (policy : SyncPolicy) : SearchProblem (NodeId × Bool) where
  next s := (G.outEdges s.1).map fun e => (e.dst, s.2 || isSyncEdge e.kind policy)
  goal s := s.1 = n2 && (!requireSyncEdge || s.2)
  keep _ := true
  cap := some cap

/-- `HBGraph::hbReachable`, with `max_depth` overridden by the environment. -/
def hbReachable (G : HBGraph) (env : LaceEnv) (n1 n2 : NodeId) (maxDepth : ℤ)
    (requireSyncEdge : Bool) (policy : SyncPolicy) : Bool :=
  if n1 = n2 then !requireSyncEdge
  else
    let cap := envInt env.hbMaxDepth maxDepth
    (G.reachProblem cap.toNat n2 requireSyncEdge policy).searchFrom (2 * G.edges.length + 2)
      (n1, false)

variable {G H : HBGraph} {policy : SyncPolicy} {m n : NodeId} {b c : Bool} {k : ℕ}

@[simp]
theorem mem_outEdges {e : HBEdge} : e ∈ G.outEdges n ↔ e ∈ G.edges ∧ e.src = n := by
  simp [outEdges]

@[simp]
theorem mem_structural {e : HBEdge} :
    e ∈ G.structural.edges ↔ e ∈ G.edges ∧ e.kind.isStructural = true := by
  simp [structural]

/-! ### Walks -/

/-- One edge of a walk; the flag records that the walk has crossed a synchronization edge. -/
def SyncStep (G : HBGraph) (policy : SyncPolicy) (s t : NodeId × Bool) : Prop :=
  ∃ e ∈ G.edges, e.src = s.1 ∧ e.dst = t.1 ∧ t.2 = (s.2 || isSyncEdge e.kind policy)

/-- One edge of a walk. -/
def Step (G : HBGraph) (m n : NodeId) : Prop := ∃ e ∈ G.edges, e.src = m ∧ e.dst = n

section ReachProblem

variable {cap : ℕ} {requireSyncEdge : Bool}

/-- The search takes the steps of the graph, with the flag. -/
theorem mem_next_reachProblem {s t : NodeId × Bool} :
    t ∈ (G.reachProblem cap n requireSyncEdge policy).next s ↔ G.SyncStep policy s t := by
  simp only [reachProblem, List.mem_map, mem_outEdges, SyncStep]
  constructor
  · rintro ⟨e, ⟨he, hsrc⟩, rfl⟩
    exact ⟨e, he, hsrc, rfl, rfl⟩
  · rintro ⟨e, he, hsrc, hdst, hflag⟩
    exact ⟨e, ⟨he, hsrc⟩, Prod.ext hdst hflag.symm⟩

/-- All states can be entered. -/
theorem entered_reachProblem :
    (G.reachProblem cap n requireSyncEdge policy).Entered = G.SyncStep policy := by
  ext s t
  exact (and_iff_left rfl).trans mem_next_reachProblem

/-- The search looks for the target, with the flag if it is asked for. -/
theorem goal_reachProblem {t : NodeId × Bool} :
    (G.reachProblem cap n requireSyncEdge policy).goal t = true ↔
      t.1 = n ∧ (requireSyncEdge = true → t.2 = true) := by
  simp only [reachProblem, Bool.and_eq_true, decide_eq_true_eq, Bool.or_eq_true,
    Bool.not_eq_true']
  cases requireSyncEdge <;> simp

theorem expands_reachProblem {d : ℕ} :
    (G.reachProblem cap n requireSyncEdge policy).expands d = true ↔ d < cap := by
  simp [SearchProblem.expands, reachProblem]

/-- A state that can be entered is the target of an edge, with either flag. -/
theorem mem_states_of_next {s t : NodeId × Bool}
    (ht : t ∈ (G.reachProblem cap n requireSyncEdge policy).next s) :
    t ∈ (G.edges.map HBEdge.dst).toFinset ×ˢ (Finset.univ : Finset Bool) := by
  obtain ⟨e, he, -, hdst, -⟩ := mem_next_reachProblem.mp ht
  refine Finset.mem_product.mpr ⟨List.mem_toFinset.mpr ?_, Finset.mem_univ _⟩
  exact List.mem_map.mpr ⟨e, he, hdst⟩

/-- The fuel lasts for all of them. -/
theorem card_states_lt :
    ((G.edges.map HBEdge.dst).toFinset ×ˢ (Finset.univ : Finset Bool)).card + 1 <
      2 * G.edges.length + 2 := by
  have hlen := card_toFinset_map_le HBEdge.dst G.edges
  rw [Finset.card_product, Finset.card_univ, Fintype.card_bool]
  omega

end ReachProblem

/-- The query finds exactly the walks within the cap. -/
theorem hbReachable_iff {env : LaceEnv} {maxDepth : ℤ} {requireSyncEdge : Bool} :
    G.hbReachable env m n maxDepth requireSyncEdge policy = true ↔
      if m = n then requireSyncEdge = false
      else ∃ k b, k ≤ (envInt env.hbMaxDepth maxDepth).toNat ∧
        Steps (G.SyncStep policy) (m, false) k (n, b) ∧ (requireSyncEdge = true → b = true) := by
  unfold hbReachable
  split_ifs with hmn
  · cases requireSyncEdge <;> simp
  set cap := (envInt env.hbMaxDepth maxDepth).toNat
  rw [SearchProblem.search_eq_true_iff _ (fun _ _ ht _ => mem_states_of_next ht) card_states_lt,
    entered_reachProblem]
  constructor
  · rintro ⟨d, s, ⟨t, b⟩, hsteps, hexp, ht, hg⟩
    obtain ⟨rfl, hb⟩ := goal_reachProblem.mp hg
    exact ⟨d + 1, b, expands_reachProblem.mp hexp, hsteps.tail (mem_next_reachProblem.mp ht), hb⟩
  · -- The search recognises the goal when it scans the last edge of the walk.
    rintro ⟨k, b, hk, hsteps, hb⟩
    cases hsteps with
    | refl => exact absurd rfl hmn
    | @tail d s _ hsteps hstep =>
        exact ⟨d, s, (n, b), hsteps, expands_reachProblem.mpr hk, mem_next_reachProblem.mpr hstep,
          goal_reachProblem.mpr ⟨rfl, hb⟩⟩

/-- More edges make more walks. -/
theorem SyncStep.mono (hGH : ∀ e ∈ G.edges, e ∈ H.edges) {s t : NodeId × Bool}
    (h : G.SyncStep policy s t) : H.SyncStep policy s t := by
  obtain ⟨e, he, hrest⟩ := h
  exact ⟨e, hGH e he, hrest⟩

/-- Forgetting the flag. -/
theorem steps_forget {s t : NodeId × Bool} (h : Steps (G.SyncStep policy) s k t) :
    Steps G.Step s.1 k t.1 := by
  refine h.map Prod.fst ?_
  rintro u v ⟨e, he, hsrc, hdst, -⟩
  exact ⟨e, he, hsrc, hdst⟩

/-- Every walk has some flag. -/
theorem steps_exists_flag (h : Steps G.Step m k n) (b : Bool) :
    ∃ c, Steps (G.SyncStep policy) (m, b) k (n, c) := by
  induction h with
  | refl => exact ⟨b, .refl⟩
  | tail _ hstep ih =>
      obtain ⟨c, hc⟩ := ih
      obtain ⟨e, he, hsrc, hdst⟩ := hstep
      exact ⟨_, hc.tail ⟨e, he, hsrc, hdst, rfl⟩⟩

end HBGraph

end Lace
