import Lace.Library.Reorder
import Lace.Query.Consistency

/-!
# Reachability inside a thread

`eval_reachable` searches for a short path between two nodes inside a thread. The nodes of a shared
helper belong to several threads; the evaluator takes the first thread of a hash set that contains
the first node, before it looks at the second one.

## Main definitions

* `HypothesisVerifier.Connects`: a thread contains both nodes and a short path between them;
* `HypothesisVerifier.EvaluatesReachable`: the answer does not depend on the order of the threads.

## Main results

* `HypothesisVerifier.search_iff`: what the search finds;
* `HypothesisVerifier.evalReachable_iff`: the thread that decides;
* `HypothesisVerifier.evaluatesReachable_iff`: when the order of the threads makes no difference.
-/

namespace Lace

open Library

namespace HypothesisVerifier

variable (V : HypothesisVerifier)

/-- A `CALL` edge, or an `ORDER` edge to a node of the thread. -/
def PathStep (t : ThreadId) (m n : NodeId) : Prop :=
  ⟨m, n, .call⟩ ∈ V.ccpg.edges ∨ ⟨m, n, .order⟩ ∈ V.ccpg.edges ∧ n ∈ (V.tct.thread t).nodes

/-- The thread contains both nodes, and a path of at most `kMaxDepth` edges leads from the first to
the second. -/
structure Connects (t : ThreadId) (source target : NodeId) : Prop where
  /-- The first node belongs to the thread. -/
  source_mem : source ∈ (V.tct.thread t).nodes
  /-- So does the second. -/
  target_mem : target ∈ (V.tct.thread t).nodes
  /-- The path. -/
  path : ∃ k ≤ kMaxDepth, Steps (V.PathStep t) source k target

/-- The verifier with its threads in another order. -/
def reorder (threads : List ThreadId) : HypothesisVerifier :=
  { V with tct := { V.tct with threads := threads } }

/-- In every order of the threads the answer is whether some thread connects the nodes. -/
def EvaluatesReachable (source target : NodeId) : Prop :=
  ∀ threads : List ThreadId, threads.Perm V.tct.threads →
    ((V.reorder threads).evalReachable source target = true ↔
      ∃ t ∈ V.tct.threads, V.Connects t source target)

variable {V} {t u : ThreadId} {m n source target : NodeId} {k : ℕ}

/-- The order of the threads plays no role for a single one. -/
theorem connects_reorder {threads : List ThreadId} :
    (V.reorder threads).Connects t source target ↔ V.Connects t source target :=
  ⟨fun h => ⟨h.source_mem, h.target_mem, h.path⟩, fun h => ⟨h.source_mem, h.target_mem, h.path⟩⟩

/-! ### The search -/

theorem PathStep.mem_nodes (h : V.PathStep t m n) : m ∈ V.ccpg.nodes ∧ n ∈ V.ccpg.nodes := by
  rcases h with h | ⟨h, -⟩
  · exact V.ccpg.mem_nodes _ h
  · exact V.ccpg.mem_nodes _ h

/-- A path between different nodes starts and ends in the graph. -/
theorem mem_nodes_of_steps (hne : source ≠ target) (h : Steps (V.PathStep t) source k target) :
    source ∈ V.ccpg.nodes ∧ target ∈ V.ccpg.nodes := by
  have hstart : ∀ {j b}, Steps (V.PathStep t) source j b → source ≠ b →
      source ∈ V.ccpg.nodes := by
    intro j b hb
    induction hb with
    | refl => exact fun hne => absurd rfl hne
    | @tail j b c hb hstep ih =>
      intro _
      by_cases heq : source = b
      · rw [heq]
        exact hstep.mem_nodes.1
      · exact ih heq
  refine ⟨hstart h hne, ?_⟩
  cases h with
  | refl => exact absurd rfl hne
  | tail _ hstep => exact hstep.mem_nodes.2

/-- The edges that the search follows to a target in the thread. -/
theorem mem_next_iff (htarget : target ∈ (V.tct.thread t).nodes) :
    n ∈ (V.reachProblem t target).next m ↔ V.PathStep t m n := by
  have hdst : ∀ e : CCPGEdge, (e.dst = target ∨ e.dst ∈ (V.tct.thread t).nodes) ↔
      e.dst ∈ (V.tct.thread t).nodes := by
    intro e
    refine or_iff_right_of_imp fun heq => ?_
    rwa [heq]
  simp only [reachProblem, PathStep, List.mem_map, List.mem_filter, CCPG.mem_getOutEdges,
    Bool.or_eq_true, Bool.and_eq_true, decide_eq_true_eq, hdst]
  constructor
  · rintro ⟨⟨src, dst, type⟩, ⟨⟨hmem, rfl⟩, htype⟩, rfl⟩
    rcases htype with rfl | ⟨rfl, hn⟩
    · exact Or.inl hmem
    · exact Or.inr ⟨hmem, hn⟩
  · rintro (hmem | ⟨hmem, hn⟩)
    · exact ⟨_, ⟨⟨hmem, rfl⟩, Or.inl rfl⟩, rfl⟩
    · exact ⟨_, ⟨⟨hmem, rfl⟩, Or.inr ⟨rfl, hn⟩⟩, rfl⟩

/-- The search finds the paths within its cap. -/
theorem search_iff (hne : source ≠ target) (htarget : target ∈ (V.tct.thread t).nodes) :
    (V.reachProblem t target).searchFrom (V.ccpg.edges.length + 2) source = true ↔
      ∃ k ≤ kMaxDepth, Steps (V.PathStep t) source k target := by
  have hU : ∀ m, ∀ n ∈ (V.reachProblem t target).next m,
      n ∈ (V.ccpg.edges.map CCPGEdge.dst).toFinset := by
    intro m n hn
    rw [List.mem_toFinset, List.mem_map]
    rcases (mem_next_iff htarget).mp hn with h | ⟨h, -⟩
    · exact ⟨_, h, rfl⟩
    · exact ⟨_, h, rfl⟩
  have hcard : (V.ccpg.edges.map CCPGEdge.dst).toFinset.card + 1 < V.ccpg.edges.length + 2 := by
    have hlen := card_toFinset_map_le CCPGEdge.dst V.ccpg.edges
    omega
  have hsearch : (V.reachProblem t target).searchFrom (V.ccpg.edges.length + 2) source = true ↔
      ∃ k < kMaxDepth, ∃ m, Steps (fun m n => n ∈ (V.reachProblem t target).next m) source k m ∧
        target ∈ (V.reachProblem t target).next m :=
    SearchProblem.search_target_iff _ hU hcard
  simp only [mem_next_iff htarget] at hsearch
  rw [hsearch, exists_steps_last_iff hne]

/-! ### The thread that decides -/

/-- The first thread that contains the first node decides. -/
theorem evalReachable_iff (hne : source ≠ target) : V.evalReachable source target = true ↔
    ∃ t, (V.tct.threads.find? fun t => source ∈ (V.tct.thread t).nodes) = some t ∧
      V.Connects t source target := by
  constructor
  · intro h
    rw [evalReachable, CCPG.getNodeByID, CCPG.getNodeByID] at h
    split_ifs at h with hsource htarget
    dsimp only at h
    cases hfind : V.tct.threads.find? fun t => source ∈ (V.tct.thread t).nodes with
    | none =>
      rw [hfind] at h
      cases h
    | some t =>
      rw [hfind] at h
      dsimp only at h
      rw [if_neg hne] at h
      split_ifs at h with hmem
      have hfound := List.find?_some hfind
      exact ⟨t, rfl, of_decide_eq_true hfound, hmem, (search_iff hne hmem).mp h⟩
  · rintro ⟨t, hfind, hconnects⟩
    -- The walk stays inside the graph, so both nodes are found.
    obtain ⟨k, hk, hsteps⟩ := hconnects.path
    obtain ⟨hsource, htarget⟩ := mem_nodes_of_steps hne hsteps
    rw [evalReachable, CCPG.getNodeByID_of_mem _ hsource, CCPG.getNodeByID_of_mem _ htarget]
    dsimp only
    rw [hfind]
    dsimp only
    rw [if_neg hne, if_neg (not_not.mpr hconnects.target_mem)]
    exact (search_iff hne hconnects.target_mem).mpr ⟨k, hk, hsteps⟩

/-- In some order any thread with the first node decides. -/
theorem EvaluatesReachable.connects (h : V.EvaluatesReachable source target)
    (hne : source ≠ target) (ht : t ∈ V.tct.threads) (hconnects : V.Connects t source target)
    (hu : u ∈ V.tct.threads) (hsource : source ∈ (V.tct.thread u).nodes) :
    V.Connects u source target := by
  obtain ⟨threads, hperm, hfind⟩ := exists_perm_find?_eq
    (p := fun t => source ∈ (V.tct.thread t).nodes) hu (decide_eq_true hsource)
  obtain ⟨v, hv, hv'⟩ := (evalReachable_iff hne).mp ((h threads hperm).mpr ⟨t, ht, hconnects⟩)
  obtain rfl : u = v := Option.some.inj (hfind.symm.trans hv)
  exact connects_reorder.mp hv'

/-- If the threads with the first node agree, each order gives the same answer. -/
theorem evaluatesReachable_of_agree (hne : source ≠ target)
    (h : (∃ t ∈ V.tct.threads, V.Connects t source target) → ∀ u ∈ V.tct.threads,
      source ∈ (V.tct.thread u).nodes → V.Connects u source target) :
    V.EvaluatesReachable source target := by
  intro threads hperm
  rw [evalReachable_iff hne]
  constructor
  · rintro ⟨t, hfind, hconnects⟩
    exact ⟨t, hperm.mem_iff.mp (List.mem_of_find?_eq_some hfind), connects_reorder.mp hconnects⟩
  · rintro ⟨t, ht, hconnects⟩
    obtain ⟨u, hfind⟩ :
        ∃ u, (threads.find? fun t => source ∈ (V.tct.thread t).nodes) = some u := by
      rw [← Option.isSome_iff_exists, List.find?_isSome]
      exact ⟨t, hperm.mem_iff.mpr ht, decide_eq_true hconnects.source_mem⟩
    have hfound := List.find?_some hfind
    have hu := hperm.mem_iff.mp (List.mem_of_find?_eq_some hfind)
    exact ⟨u, hfind,
      connects_reorder.mpr (h ⟨t, ht, hconnects⟩ u hu (of_decide_eq_true hfound))⟩

/-- **`eval_reachable` does not depend on the order of the threads** exactly if, as soon as one
thread connects the nodes, every thread with the first node does. -/
theorem evaluatesReachable_iff (V : HypothesisVerifier) {source target : NodeId}
    (hne : source ≠ target) : V.EvaluatesReachable source target ↔
      ((∃ t ∈ V.tct.threads, V.Connects t source target) → ∀ u ∈ V.tct.threads,
        source ∈ (V.tct.thread u).nodes → V.Connects u source target) := by
  refine ⟨fun h hexists u hu hsource => ?_, evaluatesReachable_of_agree hne⟩
  obtain ⟨t, ht, hconnects⟩ := hexists
  exact h.connects hne ht hconnects hu hsource

/-- With a single thread there is nothing to agree on. -/
theorem partlyLocked_evaluatesReachable : partlyLocked.EvaluatesReachable 1 2 := by
  refine (evaluatesReachable_iff partlyLocked (by decide)).mpr fun ⟨t, ht, hconnects⟩ u hu _ => ?_
  obtain rfl := List.mem_singleton.mp ht
  obtain rfl := List.mem_singleton.mp hu
  exact hconnects

/-- Two threads share node 1, and only thread 0 has node 2, which follows it. -/
def sharedNode : HypothesisVerifier :=
  { partlyLocked with
    tct := { twoPathsThread with
      threads := [0, 1]
      thread := fun t =>
        { twoPathsThread.thread t with nodes := if t = 0 then [1, 2] else [1, 3, 4] }
      parent_lt := nofun
      forkNode_inj := fun _ _ h => absurd rfl h
      isKernelEntry_of_ne := fun _ _ _ _ _ => rfl } }

/-- If thread 1 comes first, the path in thread 0 is not found. -/
theorem sharedNode_not_evaluatesReachable : ¬sharedNode.EvaluatesReachable 1 2 := by
  intro h
  have hconnects : sharedNode.Connects 0 1 2 :=
    ⟨by decide, by decide, 1, by decide, Steps.single (Or.inr ⟨by decide, by decide⟩)⟩
  have hother := h.connects (by decide) (by decide) hconnects (u := 1) (by decide) (by decide)
  exact absurd hother.target_mem (by decide)

end HypothesisVerifier

end Lace
