import Lace.HBGraph.Basic
import Lace.Library.PathSearch

/-!
# The happens-before query and its explanation

`hbReachable` answers whether a walk within a cap leads from one node to another, and
`classifyPath` gives the kinds of the edges of one. They are two searches: one over pairs of a node
and a flag, the other over nodes with the kinds so far. Both are exact about walks as lists of
edges.

## Main definitions

* `HBGraph.classifyPath`: the explanation;
* `HBGraph.IsWalk`: the walks;
* `HBGraph.ExactQuery`: what the two searches have to answer.

## Main results

* `exactQuery`: they answer this, for every graph.
-/

namespace Lace

open Library

namespace HBGraph

variable (G : HBGraph)

/-- The search of `classifyPath`. -/
def classifyProblem (cap : ℕ) (n2 : NodeId) : PathProblem NodeId HBEdgeKind where
  next n := (G.outEdges n).map fun e => (e.kind, e.dst)
  goal n := n = n2
  cap := cap

/-- `HBGraph::classifyPath`: the empty vector where nothing is found. -/
def classifyPath (env : LaceEnv) (n1 n2 : NodeId) : List HBEdgeKind :=
  if n1 = n2 then []
  else
    let cap := envInt env.hbMaxDepth 16
    ((G.classifyProblem cap.toNat n2).searchFrom (G.edges.length + 2) n1).getD []

/-! ### Walks -/

/-- The edges lead from one node to the other. -/
def IsWalk : NodeId → List HBEdge → NodeId → Prop
  | m, [], n => m = n
  | m, e :: es, n => e ∈ G.edges ∧ e.src = m ∧ IsWalk e.dst es n

/-- Some walk within the cap leads from `m` to `n`, over an edge that synchronizes if that is
required. -/
def HasWalk (cap : ℤ) (requireSyncEdge : Bool) (policy : SyncPolicy) (m n : NodeId) : Prop :=
  ∃ es, G.IsWalk m es n ∧ (es.length : ℤ) ≤ cap ∧
    (requireSyncEdge = true → ∃ e ∈ es, isSyncEdge e.kind policy = true)

/-- What the query and the explanation have to answer about two nodes. -/
structure ExactQuery (env : LaceEnv) (m n : NodeId) : Prop where
  /-- The query finds the walks within the cap. -/
  hbReachable_iff : ∀ (maxDepth : ℤ) (requireSyncEdge : Bool) (policy : SyncPolicy),
    G.hbReachable env m n maxDepth requireSyncEdge policy = true ↔
      G.HasWalk (envInt env.hbMaxDepth maxDepth) requireSyncEdge policy m n
  /-- The explanation is not empty exactly if the query with its cap succeeds. -/
  classifyPath_ne_nil_iff : ∀ (maxDepth : ℤ) (policy : SyncPolicy),
    envInt env.hbMaxDepth maxDepth = envInt env.hbMaxDepth 16 →
      (G.classifyPath env m n ≠ [] ↔ G.hbReachable env m n maxDepth false policy = true)
  /-- It gives the kinds of a shortest walk. -/
  classifyPath_shortest : G.classifyPath env m n ≠ [] →
    ∃ es, G.IsWalk m es n ∧ G.classifyPath env m n = es.map HBEdge.kind ∧
      ∀ es', G.IsWalk m es' n → es.length ≤ es'.length

variable {G} {policy : SyncPolicy} {m n l : NodeId} {b c : Bool} {k : ℕ} {es es' : List HBEdge}
  {e : HBEdge} {env : LaceEnv}

theorem isWalk_concat :
    G.IsWalk m (es ++ [e]) n ↔ G.IsWalk m es e.src ∧ e ∈ G.edges ∧ e.dst = n := by
  induction es generalizing m with
  | nil =>
    simp only [List.nil_append, IsWalk]
    constructor
    · rintro ⟨he, rfl, rfl⟩
      exact ⟨rfl, he, rfl⟩
    · rintro ⟨rfl, he, rfl⟩
      exact ⟨he, rfl, rfl⟩
  | cons f es ih =>
    simp only [List.cons_append, IsWalk, ih, and_assoc]

/-- A walk is a chain of steps, with the flag of the edges that synchronize. -/
theorem IsWalk.steps (h : G.IsWalk m es n) (policy : SyncPolicy) :
    Steps (G.SyncStep policy) (m, false) es.length
      (n, es.any fun e => isSyncEdge e.kind policy) := by
  -- Induction from the end: the flag is that of all edges so far.
  induction es using List.reverseRecOn generalizing n with
  | nil =>
    obtain rfl : m = n := h
    exact .refl
  | append_singleton es e ih =>
    obtain ⟨hes, he, rfl⟩ := isWalk_concat.mp h
    rw [List.length_append, List.any_append]
    exact (ih hes).tail ⟨e, he, rfl, rfl, by simp⟩

/-- A chain of steps is a walk. -/
theorem exists_walk (h : Steps (G.SyncStep policy) (m, false) k (n, b)) :
    ∃ es, G.IsWalk m es n ∧ es.length = k ∧ b = es.any fun e => isSyncEdge e.kind policy := by
  generalize hs : (m, false) = s at h
  generalize ht : (n, b) = t at h
  induction h generalizing n b with
  | refl =>
    obtain ⟨rfl, rfl⟩ := Prod.mk.inj (ht.trans hs.symm)
    exact ⟨[], rfl, rfl, rfl⟩
  | @tail k u t _ hstep ih =>
    obtain ⟨es, hes, hlen, hflag⟩ := ih (n := u.1) (b := u.2) rfl
    obtain ⟨e, he, hsrc, hdst, hsync⟩ := hstep
    obtain ⟨rfl, rfl⟩ := Prod.mk.inj ht
    -- The last step is an edge from where the walk ends.
    refine ⟨es ++ [e], isWalk_concat.mpr ⟨hsrc ▸ hes, he, hdst⟩, by simp [hlen], ?_⟩
    rw [hsync, hflag, List.any_append]
    simp

/-- The query finds exactly the walks within its cap. -/
theorem hbReachable_iff_hasWalk (hmn : m ≠ n) {maxDepth : ℤ} {requireSyncEdge : Bool} :
    G.hbReachable env m n maxDepth requireSyncEdge policy = true ↔
      G.HasWalk (envInt env.hbMaxDepth maxDepth) requireSyncEdge policy m n := by
  rw [hbReachable_iff, if_neg hmn]
  constructor
  · rintro ⟨k, b, hk, hsteps, hsync⟩
    obtain ⟨es, hes, rfl, rfl⟩ := exists_walk hsteps
    refine ⟨es, hes, ?_, fun hreq => ?_⟩
    · -- Two different nodes are not joined by the empty walk, so the cap is positive.
      have hpos : es ≠ [] := by
        rintro rfl
        exact hmn hes
      have hlen := List.length_pos_iff.mpr hpos
      omega
    · simpa using hsync hreq
  · rintro ⟨es, hes, hlen, hsync⟩
    exact ⟨es.length, _, by omega, hes.steps policy, fun hreq => by simpa using hsync hreq⟩

/-! ### The explanation -/

/-- The paths of the search are the walks, by their kinds. -/
theorem path_iff {cap : ℕ} {kinds : List HBEdgeKind} :
    (G.classifyProblem cap l).Path m kinds n ↔
      ∃ es, G.IsWalk m es n ∧ es.map HBEdge.kind = kinds := by
  constructor
  · intro h
    induction h with
    | nil => exact ⟨[], rfl, rfl⟩
    | @concat kinds t u kind _ hstep ih =>
      -- The last step of the path is an edge with that kind.
      obtain ⟨es, hes, rfl⟩ := ih
      obtain ⟨e, he, heq⟩ := List.mem_map.mp hstep
      obtain ⟨rfl, rfl⟩ := Prod.mk.inj heq
      obtain ⟨hmem, rfl⟩ := mem_outEdges.mp he
      exact ⟨es ++ [e], isWalk_concat.mpr ⟨hes, hmem, rfl⟩, by simp⟩
  · rintro ⟨es, hes, rfl⟩
    induction es using List.reverseRecOn generalizing n with
    | nil =>
      obtain rfl : m = n := hes
      exact .nil
    | append_singleton es e ih =>
      obtain ⟨hfirst, he, rfl⟩ := isWalk_concat.mp hes
      rw [List.map_append]
      exact (ih hfirst).concat (List.mem_map.mpr ⟨e, mem_outEdges.mpr ⟨he, rfl⟩, rfl⟩)

theorem goal_classifyProblem {cap : ℕ} :
    (G.classifyProblem cap l).goal n = true ↔ n = l := by
  simp [classifyProblem]

/-- What the search of `classifyPath` finds is its answer. -/
theorem classifyPath_eq (hmn : m ≠ n) : G.classifyPath env m n =
    ((G.classifyProblem (envInt env.hbMaxDepth 16).toNat n).searchFrom (G.edges.length + 2) m).getD
      [] := by
  rw [classifyPath, if_neg hmn]

/-- The search ends with the kinds of a shortest walk. -/
theorem kinds_of_search {cap : ℕ} (hmn : m ≠ n) {kinds : List HBEdgeKind} {fuel : ℕ}
    (h : (G.classifyProblem cap n).searchFrom fuel m = some kinds) :
    ∃ es, G.IsWalk m es n ∧ kinds = es.map HBEdge.kind ∧ es.length ≤ cap ∧
      ∀ es', G.IsWalk m es' n → es.length ≤ es'.length := by
  have hstart : (G.classifyProblem cap n).goal m = false := by
    rw [← Bool.not_eq_true, goal_classifyProblem]
    exact hmn
  obtain ⟨hcap, ⟨t, ht, hpath⟩, hmin⟩ := PathProblem.searchFrom_eq_some hstart h
  -- The only goal is `n`.
  obtain rfl := goal_classifyProblem.mp ht
  obtain ⟨es, hes, rfl⟩ := path_iff.mp hpath
  refine ⟨es, hes, rfl, by simpa [classifyProblem] using hcap, fun es' hes' => ?_⟩
  simpa using hmin _ _ (path_iff.mpr ⟨es', hes', rfl⟩) ht

/-- The search finds something exactly if a walk is within its cap. -/
theorem search_isSome_iff (cap : ℕ) (hmn : m ≠ n) :
    ((G.classifyProblem cap n).searchFrom (G.edges.length + 2) m).isSome = true ↔
      ∃ es, G.IsWalk m es n ∧ es.length ≤ cap := by
  have hstart : (G.classifyProblem cap n).goal m = false := by
    rw [← Bool.not_eq_true, goal_classifyProblem]
    exact hmn
  -- The search enters targets of edges only, which bounds its turns.
  have hU : ∀ s, ∀ x ∈ (G.classifyProblem cap n).next s,
      x.2 ∈ (G.edges.map HBEdge.dst).toFinset := by
    intro s x hx
    obtain ⟨e, he, rfl⟩ := List.mem_map.mp hx
    exact List.mem_toFinset.mpr (List.mem_map_of_mem (mem_outEdges.mp he).1)
  have hfuel : (G.edges.map HBEdge.dst).toFinset.card + 1 < G.edges.length + 2 := by
    have hcard := card_toFinset_map_le HBEdge.dst G.edges
    omega
  rw [PathProblem.searchFrom_isSome_iff hstart _ hU hfuel]
  constructor
  · rintro ⟨r, t, hr, ht, hlen⟩
    obtain rfl := goal_classifyProblem.mp ht
    obtain ⟨es, hes, rfl⟩ := path_iff.mp hr
    exact ⟨es, hes, by simpa [classifyProblem] using hlen⟩
  · rintro ⟨es, hes, hlen⟩
    refine ⟨es.map HBEdge.kind, n, path_iff.mpr ⟨es, hes, rfl⟩, goal_classifyProblem.mpr rfl, ?_⟩
    simpa [classifyProblem] using hlen

/-- The explanation is not empty exactly if the search finds something. -/
theorem classifyPath_ne_nil_iff_hasWalk (hmn : m ≠ n) : G.classifyPath env m n ≠ [] ↔
    G.HasWalk (envInt env.hbMaxDepth 16) false policy m n := by
  rw [classifyPath_eq hmn]
  have hsome := search_isSome_iff (G := G) (envInt env.hbMaxDepth 16).toNat hmn
  -- No walk between different nodes is empty.
  have hne : ∀ es, G.IsWalk m es n → es ≠ [] := by
    rintro es hes rfl
    exact hmn hes
  constructor
  · intro h
    cases hsearch : (G.classifyProblem (envInt env.hbMaxDepth 16).toNat n).searchFrom
        (G.edges.length + 2) m with
    | none => rw [hsearch] at h; exact absurd rfl h
    | some kinds =>
      obtain ⟨es, hes, hlen⟩ := hsome.mp (by rw [hsearch]; rfl)
      -- A cap that is not positive would allow the empty walk only.
      have hpos := List.length_pos_iff.mpr (hne es hes)
      exact ⟨es, hes, by omega, nofun⟩
  · rintro ⟨es, hes, hlen, -⟩
    obtain ⟨kinds, hkinds⟩ := Option.isSome_iff_exists.mp (hsome.mpr ⟨es, hes, by omega⟩)
    rw [hkinds, Option.getD_some]
    obtain ⟨es', hes', rfl, -⟩ := kinds_of_search hmn hkinds
    exact fun hnil => hne es' hes' (List.map_eq_nil_iff.mp hnil)

/-- The query and its explanation are exact about two different nodes. -/
theorem exactQuery (G : HBGraph) (env : LaceEnv) (m n : NodeId) (hmn : m ≠ n) :
    G.ExactQuery env m n := by
  refine ⟨fun maxDepth requireSyncEdge policy => hbReachable_iff_hasWalk hmn, ?_, ?_⟩
  · intro maxDepth policy hcap
    have hexplain : G.classifyPath env m n ≠ [] ↔
        G.HasWalk (envInt env.hbMaxDepth 16) false policy m n :=
      classifyPath_ne_nil_iff_hasWalk hmn
    rw [hexplain, hbReachable_iff_hasWalk hmn, hcap]
  · intro h
    rw [classifyPath_eq hmn] at h ⊢
    cases hsearch : (G.classifyProblem (envInt env.hbMaxDepth 16).toNat n).searchFrom
        (G.edges.length + 2) m with
    | none => rw [hsearch] at h; exact absurd rfl h
    | some kinds =>
      obtain ⟨es, hes, hkinds, -, hmin⟩ := kinds_of_search hmn hsearch
      exact ⟨es, hes, hkinds, hmin⟩

/-- A node before the acquisition of a lock that another one releases, with a shortcut. -/
def lockedChain : HBGraph :=
  ⟨[⟨1, 2, .programOrder, ""⟩, ⟨2, 3, .lockReleaseAcquire, "l"⟩, ⟨3, 1, .programOrder, ""⟩,
    ⟨1, 4, .callReturn, ""⟩, ⟨4, 3, .callReturn, ""⟩]⟩

/-- The walk over the lock is found, and the first of the two shortest ones is given. -/
theorem exactQuery_lockedChain :
    lockedChain.hbReachable ⟨none, none, false⟩ 1 3 16 true .structuralOnly = true ∧
      lockedChain.classifyPath ⟨none, none, false⟩ 1 3 = [.programOrder, .lockReleaseAcquire] ∧
      lockedChain.ExactQuery ⟨none, none, false⟩ 1 3 :=
  ⟨by decide, by decide, exactQuery _ _ 1 3 (by decide)⟩

end HBGraph

end Lace
