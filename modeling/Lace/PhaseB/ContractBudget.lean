import Lace.PhaseB.ContractWorkers
import Lace.PhaseB.RecallFloor

/-!
# The threads that get a contract

`budgetContractThreads` walks over the sessions before phase A and scores every thread of a pair
that conflicts in a session; the best threads get a contract, up to a cap. The enumeration is not
the one of `composeVerdict`: it reads the threads of the session, knows no second instances, and may
be switched to score all threads. Phase A then asks for the contracts in parallel.

## Main definitions

* `ContractBudget`: what `budgetContractThreads` reads;
* `ContractBudget.score`, `ContractBudget.out`: the scores and the threads;
* `SelectionRun.Meets`: a thread of a pair that phase B may examine;
* `ContractBudget.Covers`: the budget is about the pairs of phase B;
* `SelectionRun.contractPhase`: phase A for the threads of the budget.

## Main results

* `ContractBudget.covers_contractBudget`: the scored threads are those of the pairs of phase B;
* `SelectionRun.askedFor_of_run`: when the workers of phase A have ended, each of them was asked about
  once, unless all workers have thrown.
-/

namespace Lace.PhaseB

open Library

/-- What `budgetContractThreads` reads. -/
structure ContractBudget where
  /-- `sessions`. -/
  sessions : List Session
  /-- `surface`. -/
  surface : VulnerabilitySurface
  /-- `flowPrior`. -/
  flowPrior : FlowPrior
  /-- `tct`. -/
  tct : ThreadCreationTree
  /-- What the parallelism test reads. -/
  filters : EntryFilters
  /-- `threadById`. -/
  threadById : Tid → Option ThreadId
  /-- `LACE_PHASE_A_MODE` is `full`. -/
  fullMode : Bool
  /-- `LACE_CONTRACT_THREAD_CAP`. -/
  capVar : Option ℤ

namespace ContractBudget

variable (K : ContractBudget)

/-- The parallelism test; it is not asked about an id without a thread. -/
def mayPair (t1 t2 : Tid) : Bool :=
  match K.threadById t1, K.threadById t2 with
  | some T1, some T2 => K.tct.mayHappenInParallel K.filters T1 T2
  | _, _ => true

/-- The part of a pair's score that both threads get. -/
def bonus (o : RatedObject) (k1 k2 : AccKind) : ℤ :=
  objectPriorityScore (some o) K.flowPrior +
    if k1.free || k2.free || o.hasFreeOperation then 700
    else if o.hasListMutation then 350
    else if k1.write || k2.write then 180
    else 0

/-- The part for what a thread itself does. -/
def share (k : AccKind) : ℤ := if k.free then 300 else if k.write then 120 else 30

/-- What a pair of threads adds to the scores. -/
def pairScores (o : RatedObject) (p : Tid × Tid) : List (Tid × ℤ) :=
  let k1 := o.toSurfaceObject.threadAccessKind p.1
  let k2 := o.toSurfaceObject.threadAccessKind p.2
  if !K.mayPair p.1 p.2 then []
  else if !conflict k1 k2 then []
  else [(p.1, K.bonus o k1 k2 + share k1), (p.2, K.bonus o k1 k2 + share k2)]

/-- `tids`: the threads of the session that access the object. -/
def tids (ts : TidSet) (o : RatedObject) : List Tid :=
  o.accessingThreadIds.toList.filter fun tid => tid ∈ ts.toList

/-- What an object of a session adds to the scores. -/
def objectScores (ts : TidSet) (o : RatedObject) : List (Tid × ℤ) :=
  let os := objectPriorityScore (some o) K.flowPrior
  if K.fullMode then ts.toList.map fun tid => (tid, os)
  else
    -- An object that races with itself, of which the session has one thread.
    (if o.isSelfRace && (tids ts o).length = 1 then
      ((tids ts o).filter fun tid => (o.toSurfaceObject.threadAccessKind tid).touch).map fun tid =>
        (tid, os + 350)
    else []) ++ (pairs (tids ts o)).flatMap (K.pairScores o)

/-- What is added to the scores, one after the other. -/
def increments : List (Tid × ℤ) :=
  K.sessions.flatMap fun s => s.objects.flatMap fun O =>
    match K.surface.sharedObjects[O]? with
    | none => []
    | some o => K.objectScores s.threads o

/-- The keys of `score`. -/
def scored : TidSet := .ofList (K.increments.map Prod.fst)

/-- `score`: the sum of what a thread gets. -/
def score (tid : Tid) : ℤ :=
  ((K.increments.filter fun inc => inc.1 = tid).map Prod.snd).sum

/-- The order of the threads: by score, and then by id. -/
def before (a b : Tid × ℤ) : Bool := if a.2 ≠ b.2 then b.2 < a.2 else a.1 < b.1

/-- `ranked`: the threads with their scores, the best first. -/
def ranking : List (Tid × ℤ) :=
  ranked before (K.scored.toList.map fun tid => (tid, K.score tid))

/-- `defaultCap`: how many threads get a contract on a surface of that size. -/
def defaultCap : ℕ :=
  if K.surface.hugeSurface then 30 else if K.surface.largeSurface then 45 else 90

/-- `cap`: how many threads get a contract, from the environment or by default. -/
def cap : ℕ := envInt K.capVar K.defaultCap

/-- `budgetContractThreads`: the threads that get a contract. -/
def out : TidSet := .ofList ((K.ranking.take K.cap).map Prod.fst)

end ContractBudget

namespace SelectionRun

variable (R : SelectionRun)

/-- The budget for the sessions of a run. -/
def contractBudget (base : ComposeInput) (fullMode : Bool) (capVar : Option ℤ) :
    ContractBudget where
  sessions := R.sessions
  surface := R.surface
  flowPrior := R.flowPrior
  tct := base.tct
  filters := base.filters
  threadById := base.threadById
  fullMode := fullMode
  capVar := capVar

/-- Phase A for the threads of the budget. -/
def contractPhase (base : ComposeInput) (fullMode : Bool) (capVar parallelismVar : Option ℤ) :
    ContractPhase where
  surface := R.surface
  objKeep := R.keptIds
  threadById := base.threadById
  tidsInPlay := (R.contractBudget base fullMode capVar).out
  parallelismVar := parallelismVar

/-- In some session the thread belongs to a pair that passes the gate of phase B and conflicts. -/
def Meets (base : ComposeInput) (t : Tid) : Prop :=
  ∃ s ∈ R.sessions, ∃ p ∈ (R.compose base s).allPairs, (p.t1 = t ∨ p.t2 = t) ∧
    (R.compose base s).mhpGate p = true ∧
      conflict ((R.compose base s).kind p p.t1) ((R.compose base s).kind p p.t2) = true

end SelectionRun

/-- The threads have ids below a million: the ids of second instances are beyond them. -/
def ComposeInput.SmallIds (base : ComposeInput) : Prop :=
  ∀ t T, base.threadById t = some T → 0 ≤ t ∧ t < 1000000

/-- The threads that get a contract are those of the pairs that phase B may examine. -/
structure ContractBudget.Covers (K : ContractBudget) (R : SelectionRun) (base : ComposeInput) :
    Prop where
  /-- A thread of such a pair is scored. -/
  scored : ∀ t, R.Meets base t → t ∈ K.scored.toList
  /-- No other one is, unless all threads are asked for. -/
  needed : K.fullMode = false → ∀ t ∈ K.scored.toList, R.Meets base t
  /-- The threads of the contracts are scored, and as many as the cap allows. -/
  subset : ∀ t ∈ K.out.toList, t ∈ K.scored.toList
  /-- Their number. -/
  length : K.out.toList.length = min K.cap K.scored.toList.length
  /-- A thread that is left out has no higher score than one that is not. -/
  best : ∀ t ∈ K.out.toList, ∀ u ∈ K.scored.toList, u ∉ K.out.toList → K.score u ≤ K.score t

/-! ### The sessions -/

namespace SelectionRun

variable {R : SelectionRun} {s : Session} {O : ObjectRef} {I : SurfaceInput}

/-- The threads of a session are those of its objects. -/
theorem object_of_mem_session (hs : s ∈ R.sessions) (hO : O ∈ s.objects) :
    ∃ o, R.surface.sharedObjects[O]? = some o ∧ (O : ℤ) ∈ R.keptIds ∧
      o.accessingThreadIds = s.threads := by
  obtain ⟨ch, htake, rfl⟩ := SessionBudget.mem_buildBudgetedSessions_iff.mp hs
  obtain ⟨c, hc, objs, hobjs, rfl⟩ :=
    SessionBudget.mem_allChunks_iff.mp (mem_ranked.mp (List.mem_of_mem_take htake))
  have hmem : O ∈ c.2 := SessionBudget.objects_subset (by decide) hobjs hO
  obtain ⟨o, ho, hclustered, hts⟩ := (VulnerabilitySurface.mem_clusters_iff hc).mp hmem
  simp only [VulnerabilitySurface.clustered, Bool.and_eq_true, decide_eq_true_eq] at hclustered
  exact ⟨o, ho, hclustered.1, hts⟩

end SelectionRun

/-! ### The scored threads -/

namespace ContractBudget

variable {K : ContractBudget} {R : SelectionRun} {base : ComposeInput} {o : RatedObject}
  {t : Tid} {p : Tid × Tid} {ts : TidSet}

/-- A thread is scored if some object of its session gives it a score. -/
theorem mem_scored_iff : t ∈ K.scored.toList ↔
    ∃ s ∈ K.sessions, ∃ O ∈ s.objects, ∃ o, K.surface.sharedObjects[O]? = some o ∧
      t ∈ (K.objectScores s.threads o).map Prod.fst := by
  simp only [scored, TidSet.mem_ofList, increments, List.mem_map, List.mem_flatMap]
  constructor
  · rintro ⟨inc, ⟨s, hs, O, hO, hinc⟩, rfl⟩
    cases ho : K.surface.sharedObjects[O]? with
    | none => simp [ho] at hinc
    | some o => exact ⟨s, hs, O, hO, o, ho, inc, by simpa [ho] using hinc, rfl⟩
  · rintro ⟨s, hs, O, hO, o, ho, inc, hinc, rfl⟩
    exact ⟨inc, ⟨s, hs, O, hO, by simpa [ho] using hinc⟩, rfl⟩

/-- A pair gives both of its threads a score if they may meet and their accesses conflict. -/
theorem mem_pairScores_iff : t ∈ (K.pairScores o p).map Prod.fst ↔
    (p.1 = t ∨ p.2 = t) ∧ K.mayPair p.1 p.2 = true ∧
      conflict (o.toSurfaceObject.threadAccessKind p.1)
        (o.toSurfaceObject.threadAccessKind p.2) = true := by
  unfold pairScores
  dsimp only
  split_ifs with hmay hconf
  · have hmay : K.mayPair p.1 p.2 = false := by simpa using hmay
    simp [hmay]
  · have hconf : conflict (o.toSurfaceObject.threadAccessKind p.1)
        (o.toSurfaceObject.threadAccessKind p.2) = false := by simpa using hconf
    simp [hconf]
  · rw [Bool.not_eq_true', Bool.not_eq_false] at hmay hconf
    rw [List.map_cons, List.map_cons, List.map_nil, List.mem_pair, and_iff_left ⟨hmay, hconf⟩,
      eq_comm, eq_comm (a := t)]

/-- Several threads of a session access an object: in default mode the threads of its conflicting
pairs are scored. -/
theorem mem_objectScores_iff (hfull : K.fullMode = false) (hmany : 2 ≤ (tids ts o).length) :
    t ∈ (K.objectScores ts o).map Prod.fst ↔
      ∃ p ∈ pairs (tids ts o), t ∈ (K.pairScores o p).map Prod.fst := by
  have hone : (tids ts o).length ≠ 1 := by omega
  simp only [objectScores, hfull, hone, decide_false, Bool.and_false, Bool.false_eq_true,
    if_false, List.nil_append, List.map_flatMap, List.mem_flatMap]

/-- The gate of phase B and the test of the budget agree, since an id of a second instance has no
thread. -/
theorem mhpGate_iff_mayPair (hsmall : base.SmallIds) {s : Session} {q : ComposeInput.Pair}
    {fullMode : Bool} {capVar : Option ℤ} (hlt : q.t1 < q.t2) :
    (R.compose base s).mhpGate q = true ↔
      (R.contractBudget base fullMode capVar).mayPair q.t1 q.t2 = true := by
  rw [ComposeInput.mhpGate, Bool.or_eq_true]
  constructor
  · rintro (hrace | hmay)
    · rw [ComposeInput.selfRace, Bool.and_eq_true, decide_eq_true_eq] at hrace
      unfold mayPair
      split
      next T1 T2 h1 h2 =>
        -- Two ids below a million are not those of two instances.
        obtain ⟨hpos1, hlt1⟩ := hsmall _ _ h1
        obtain ⟨hpos2, hlt2⟩ := hsmall _ _ h2
        have heq := hrace.2
        rw [Int.tmod_eq_of_lt hpos1 hlt1, Int.tmod_eq_of_lt hpos2 hlt2] at heq
        exact absurd heq hlt.ne
      next => rfl
    · exact hmay
  · exact Or.inr

/-- In default mode the scored threads are those of the pairs that phase B may examine. -/
theorem mem_scored_iff_meets {I : SurfaceInput} (hS : I.Generates R.surface)
    (hsmall : base.SmallIds) {capVar : Option ℤ} :
    t ∈ (R.contractBudget base false capVar).scored.toList ↔ R.Meets base t := by
  -- All threads of an object belong to its session.
  have htids : ∀ s ∈ R.sessions, ∀ O ∈ s.objects, ∀ o, R.surface.sharedObjects[O]? = some o →
      tids s.threads o = o.accessingThreadIds.toList := by
    intro s hs O hO o ho
    obtain ⟨o', ho', -, hts⟩ := SelectionRun.object_of_mem_session hs hO
    obtain rfl : o' = o := Option.some.inj (ho'.symm.trans ho)
    rw [tids, hts]
    exact List.filter_eq_self.mpr fun x hx => decide_eq_true hx
  have hmany : ∀ s ∈ R.sessions, ∀ O ∈ s.objects, ∀ o, R.surface.sharedObjects[O]? = some o →
      2 ≤ (tids s.threads o).length := by
    intro s hs O hO o ho
    rw [htids s hs O hO o ho]
    exact (hS.wellFormed o (List.mem_of_getElem? ho)).shared
  rw [mem_scored_iff]
  constructor
  · rintro ⟨s, hs, O, hO, o, ho, hmem⟩
    obtain ⟨p, hp, hmem⟩ := (mem_objectScores_iff rfl (hmany s hs O hO o ho)).mp hmem
    obtain ⟨hthread, hmay, hconf⟩ := mem_pairScores_iff.mp hmem
    rw [htids s hs O hO o ho] at hp
    obtain ⟨h1, h2, hlt⟩ := (mem_pairs_iff o.accessingThreadIds.sorted).mp hp
    have hobject := SelectionRun.object_compose ho base s
    refine ⟨s, hs, ⟨O, O, p.1, p.2⟩, ComposeInput.mem_allPairs_iff.mpr ?_, hthread,
      (mhpGate_iff_mayPair hsmall hlt).mpr hmay, ?_⟩
    · refine ⟨List.mem_map_of_mem hO, if_pos (List.getElem?_eq_some_iff.mp ho).1, ?_, ?_, hlt⟩
      · rwa [hobject]
      · rwa [hobject]
    · rw [ComposeInput.kind, ComposeInput.kind, hobject]
      exact hconf
  · rintro ⟨s, hs, q, hq, hthread, hgate, hconf⟩
    obtain ⟨hmem, hindex, h1, h2, hlt⟩ := ComposeInput.mem_allPairs_iff.mp hq
    obtain ⟨O, hO, heq⟩ := List.mem_map.mp hmem
    obtain rfl : O = q.object := Option.some.inj heq
    obtain ⟨o, ho, -, -⟩ := SelectionRun.object_of_mem_session hs hO
    have hobject := SelectionRun.object_compose ho base s
    rw [hobject] at h1 h2
    refine ⟨s, hs, q.object, hO, o, ho,
      (mem_objectScores_iff rfl (hmany s hs _ hO o ho)).mpr ⟨(q.t1, q.t2), ?_,
        mem_pairScores_iff.mpr ⟨hthread, (mhpGate_iff_mayPair hsmall hlt).mp hgate, ?_⟩⟩⟩
    · rw [htids s hs _ hO o ho]
      exact (mem_pairs_iff o.accessingThreadIds.sorted).mpr ⟨h1, h2, hlt⟩
    · rw [ComposeInput.kind, ComposeInput.kind, hobject] at hconf
      exact hconf

/-- In full mode all threads of the sessions are scored. -/
theorem mem_scored_of_meets_full (hfull : K.fullMode = true) (hsessions : K.sessions = R.sessions)
    (hsurface : K.surface = R.surface) (hmeets : R.Meets base t) : t ∈ K.scored.toList := by
  obtain ⟨s, hs, q, hq, hthread, -, -⟩ := hmeets
  obtain ⟨hmem, -, h1, h2, -⟩ := ComposeInput.mem_allPairs_iff.mp hq
  obtain ⟨O, hO, heq⟩ := List.mem_map.mp hmem
  obtain rfl : O = q.object := Option.some.inj heq
  obtain ⟨o, ho, -, hts⟩ := SelectionRun.object_of_mem_session hs hO
  have hobject := SelectionRun.object_compose ho base s
  rw [hobject, hts] at h1 h2
  refine mem_scored_iff.mpr ⟨s, hsessions ▸ hs, q.object, hO, o, hsurface ▸ ho, ?_⟩
  simp only [objectScores, hfull, if_true, List.map_map, List.mem_map, Function.comp_apply]
  rcases hthread with rfl | rfl
  · exact ⟨_, h1, rfl⟩
  · exact ⟨_, h2, rfl⟩

/-! ### The cap -/

/-- The order of the ranking is by score, and by thread id where the scores agree. -/
theorem ranksBy_before : RanksBy (fun a : Tid × ℤ => toLex (-a.2, a.1)) before := by
  intro a b
  simp only [Prod.Lex.toLex_lt_toLex, neg_lt_neg_iff, neg_inj, before]
  split
  next hscore => simp [hscore]
  next hscore =>
    rw [not_not] at hscore
    simp [hscore]

/-- The ranking lists the scored threads. -/
theorem map_fst_ranking_perm : (K.ranking.map Prod.fst).Perm K.scored.toList := by
  have hranking : K.ranking.Perm (K.scored.toList.map fun tid => (tid, K.score tid)) := ranked_perm
  have hperm := hranking.map Prod.fst
  rwa [List.map_map, show (Prod.fst ∘ fun tid => (tid, K.score tid)) = id from rfl,
    List.map_id] at hperm

/-- The budget keeps the first threads of the ranking. -/
theorem mem_out_iff : t ∈ K.out.toList ↔ t ∈ (K.ranking.map Prod.fst).take K.cap := by
  rw [out, TidSet.mem_ofList, List.map_take]

/-- No thread is ranked twice. -/
theorem nodup_ranking : (K.ranking.map Prod.fst).Nodup :=
  map_fst_ranking_perm.nodup_iff.mpr K.scored.nodup

/-- The budget keeps as many threads as its cap allows. -/
theorem length_out : K.out.toList.length = min K.cap K.scored.toList.length := by
  have hperm : K.out.toList.Perm ((K.ranking.map Prod.fst).take K.cap) := by
    rw [List.perm_ext_iff_of_nodup K.out.nodup (nodup_ranking.sublist (List.take_sublist _ _))]
    exact fun t => mem_out_iff
  rw [hperm.length_eq, List.length_take, map_fst_ranking_perm.length_eq]

/-- No thread that is left out has a higher score. -/
theorem score_le_of_not_mem_out {u : Tid} (ht : t ∈ K.out.toList) (hu : u ∈ K.scored.toList)
    (hnot : u ∉ K.out.toList) : K.score u ≤ K.score t := by
  have hentry : ∀ a ∈ K.ranking, a.2 = K.score a.1 := by
    intro a ha
    obtain ⟨tid, -, rfl⟩ := List.mem_map.mp (mem_ranked.mp ha)
    rfl
  rw [mem_out_iff, ← List.map_take] at ht hnot
  obtain ⟨a, ha, rfl⟩ := List.mem_map.mp ht
  obtain ⟨b, hb, rfl⟩ := List.mem_map.mp (map_fst_ranking_perm.mem_iff.mpr hu)
  -- The other thread is behind the cut.
  rw [← List.take_append_drop K.cap K.ranking, List.mem_append] at hb
  have hdrop := hb.resolve_left fun h => hnot (List.mem_map_of_mem h)
  have hbefore := not_better_of_mem_drop ranksBy_before ha hdrop
  rw [← hentry a (List.mem_of_mem_take ha), ← hentry b (List.mem_of_mem_drop hdrop)]
  by_contra hlt
  rw [before, if_pos (not_le.mp hlt).ne', decide_eq_false_iff_not] at hbefore
  exact hbefore (not_le.mp hlt)

/-- The budget of a run is about the pairs of its phase B. -/
theorem covers_contractBudget {I : SurfaceInput} (hS : I.Generates R.surface) (hsmall : base.SmallIds)
    (fullMode : Bool) (capVar : Option ℤ) :
    (R.contractBudget base fullMode capVar).Covers R base where
  scored t hmeets := by
    cases fullMode with
    | false => exact (mem_scored_iff_meets hS hsmall).mpr hmeets
    | true => exact mem_scored_of_meets_full rfl rfl rfl hmeets
  needed hfull t ht := by
    obtain rfl : fullMode = false := hfull
    exact (mem_scored_iff_meets hS hsmall).mp ht
  subset t ht := map_fst_ranking_perm.mem_iff.mp (List.mem_of_mem_take (mem_out_iff.mp ht))
  length := length_out
  best t ht u hu hnot := score_le_of_not_mem_out ht hu hnot

end ContractBudget

/-! ### Phase A -/

namespace SelectionRun

variable {R : SelectionRun} {base : ComposeInput} {fullMode : Bool} {capVar parallelismVar : Option ℤ}
  {C : Type}

/-- A thread that phase B may examine touches an object that its contract is about. -/
theorem touched_ne_nil {I : SurfaceInput} (hS : I.Generates R.surface) (fullMode : Bool)
    (capVar parallelismVar : Option ℤ) {t : Tid} (hmeets : R.Meets base t) :
    (R.contractPhase base fullMode capVar parallelismVar).touched t ≠ [] := by
  obtain ⟨s, hs, q, hq, hthread, -, -⟩ := hmeets
  obtain ⟨hmem, -, h1, h2, -⟩ := ComposeInput.mem_allPairs_iff.mp hq
  obtain ⟨O, hO, heq⟩ := List.mem_map.mp hmem
  obtain rfl : O = q.object := Option.some.inj heq
  obtain ⟨o, ho, hkept, -⟩ := object_of_mem_session hs hO
  rw [object_compose ho base s] at h1 h2
  have ht : t ∈ o.accessingThreadIds.toList := by
    rcases hthread with rfl | rfl
    · exact h1
    · exact h2
  have hshared : ¬o.accessingThreadIds.toList.length < 2 :=
    not_lt.mpr (hS.wellFormed o (List.mem_of_getElem? ho)).shared
  have htouches : (R.contractPhase base fullMode capVar parallelismVar).touches t o q.object =
      true := by
    simp [ContractPhase.touches, contractPhase, hkept, ht, hshared]
  have hne : ((R.surface.sharedObjects.zipIdx.filter fun p =>
      (R.contractPhase base fullMode capVar parallelismVar).touches t p.1 p.2).map Prod.snd) ≠ [] :=
    List.ne_nil_of_mem (List.mem_map_of_mem (List.mem_filter.mpr
      ⟨List.mk_mem_zipIdx_iff_getElem?.mpr ho, htouches⟩))
  rw [ContractPhase.touched]
  intro hnil
  rcases List.take_eq_nil_iff.mp hnil with hzero | hempty
  · exact absurd hzero (by decide)
  · exact hne hempty

/-- What phase A has asked for when its workers have ended. -/
structure AskedFor (R : SelectionRun) (base : ComposeInput) (K : ContractBudget) {W : ℕ}
    (s : PhaseA W C) : Prop where
  /-- Below the cap, and unless every worker has thrown, each thread of a pair that phase B may
  examine was asked about once. -/
  once : (∃ i, s.worker i = .done) ∨ W = 0 → K.scored.toList.length ≤ K.cap →
    ∀ t, R.Meets base t → (base.threadById t).isSome = true →
      (s.log.filterMap Event.askedTid).count t = 1
  /-- In any case no thread was asked about twice. -/
  atMostOnce : ∀ t, (s.log.filterMap Event.askedTid).count t ≤ 1
  /-- No other thread was asked about, unless all of them are. -/
  needed : K.fullMode = false → ∀ t ∈ s.log.filterMap Event.askedTid, R.Meets base t

/-- Below the cap every scored thread gets a contract. -/
theorem mem_out_of_meets {I : SurfaceInput} (hS : I.Generates R.surface) (hsmall : base.SmallIds)
    {t : Tid} (hcap : (R.contractBudget base fullMode capVar).scored.toList.length ≤
      (R.contractBudget base fullMode capVar).cap) (hmeets : R.Meets base t) :
    t ∈ (R.contractBudget base fullMode capVar).out.toList := by
  have hscored : t ∈ (R.contractBudget base fullMode capVar).scored.toList := by
    cases fullMode with
    | false => exact (ContractBudget.mem_scored_iff_meets hS hsmall).mpr hmeets
    | true => exact ContractBudget.mem_scored_of_meets_full rfl rfl rfl hmeets
  rw [ContractBudget.mem_out_iff,
    List.take_of_length_le (by rwa [ContractBudget.map_fst_ranking_perm.length_eq])]
  exact ContractBudget.map_fst_ranking_perm.mem_iff.mpr hscored

/-- Whatever throws: when the workers of phase A have ended, the threads were asked about that phase
B needs. -/
theorem askedFor_of_run {I : SurfaceInput} (hS : I.Generates R.surface) (hsmall : base.SmallIds)
    {stats : TokenStats}
    {inputs : List (Fin (R.contractPhase base fullMode capVar parallelismVar).workers × Reply C)}
    {s : PhaseA (R.contractPhase base fullMode capVar parallelismVar).workers C}
    (hrun : runInputs (R.contractPhase base fullMode capVar parallelismVar).step
      ((R.contractPhase base fullMode capVar parallelismVar).start stats) inputs = some s)
    (hstopped : s.AllStopped) :
    R.AskedFor base (R.contractBudget base fullMode capVar) s := by
  have hperm := ContractPhase.asked_perm_of_run hrun hstopped
  have hs := ContractPhase.inv_of_run hrun
  -- The threads are taken in order, each once, and asked about if they need it.
  have htaken : (s.log.filterMap Event.fetchedTid).Sublist
      (R.contractPhase base fullMode capVar parallelismVar).tidsVec := by
    rw [hs.fetched]
    exact List.take_sublist _ _
  have hnodup := (ContractPhase.nodup_tidsVec.sublist htaken).filter
    (R.contractPhase base fullMode capVar parallelismVar).asksFor
  refine ⟨fun hend hcap t hmeets hthread => ?_, fun t => ?_, fun hfull t ht => ?_⟩
  · rw [hperm.count_eq]
    refine List.count_eq_one_of_mem hnodup (List.mem_filter.mpr ⟨?_, ?_⟩)
    · rw [hs.fetched_eq hend]
      exact mem_out_of_meets hS hsmall hcap hmeets
    · have htouched := touched_ne_nil hS fullMode capVar parallelismVar hmeets
      rw [ContractPhase.asksFor, Bool.and_eq_true]
      exact ⟨hthread, by simpa using htouched⟩
  · rw [hperm.count_eq]
    exact List.nodup_iff_count_le_one.mp hnodup t
  · -- A thread that was asked about was in the budget, so it was scored.
    obtain rfl : fullMode = false := hfull
    have hout := htaken.subset (List.mem_filter.mp (hperm.mem_iff.mp ht)).1
    have hscored := ContractBudget.map_fst_ranking_perm.mem_iff.mp
      (List.mem_of_mem_take (ContractBudget.mem_out_iff.mp hout))
    exact (ContractBudget.mem_scored_iff_meets hS hsmall).mp hscored

/-! ### The contracts of the freed device -/

/-- Two handlers that free and use the device, each with its thread. -/
def deviceThreads : ComposeInput where
  tct := ObjectFilter.probeWithWorker.tct
  filters := ⟨none, none⟩
  threadById t := if t = 0 then some 0 else if t = 2 then some 2 else none
  contractsByTid _ := none
  object _ := (plainObject ⟨[], TidSet.sorted_nil⟩ false 0).toSurfaceObject
  objIndex _ := none
  objs := []
  keepLow := false
  env := ⟨false, false, false, false, none, none, none, none⟩

/-- The ids of the device's threads are small. -/
theorem deviceThreads_smallIds : deviceThreads.SmallIds := by
  intro t T h
  simp only [deviceThreads] at h
  split_ifs at h with h0 h2
  · rw [h0]
    decide
  · rw [h2]
    decide

/-- Both threads are scored; the one that frees comes first. -/
theorem freedDeviceRun_covers :
    (freedDeviceRun.contractBudget deviceThreads false (some 1)).scored.toList = [0, 2] ∧
      (freedDeviceRun.contractBudget deviceThreads false (some 1)).out.toList = [0] ∧
      (freedDeviceRun.contractBudget deviceThreads false (some 1)).Covers freedDeviceRun
        deviceThreads :=
  ⟨by decide +kernel, by decide +kernel,
    ContractBudget.covers_contractBudget (I := SurfaceInput.freedDevice)
    SurfaceInput.generates_generate deviceThreads_smallIds false (some 1)⟩

/-- Phase A of the device, with one worker. -/
def devicePhase : ContractPhase := freedDeviceRun.contractPhase deviceThreads false none (some 1)

/-- The device's phase has a worker. -/
theorem workers_devicePhase : 0 < devicePhase.workers := by decide +kernel

/-- The worker takes a thread, prints its line, and gets no contract. -/
def deviceTurn : List (Fin devicePhase.workers × Reply String) :=
  List.replicate 6 (⟨0, workers_devicePhase⟩, .proceed) ++ [(⟨0, workers_devicePhase⟩, .contract none)]

/-- Both threads are asked about. -/
theorem deviceRun_askedFor :
    ∃ s, runInputs devicePhase.step (devicePhase.start {})
        (deviceTurn ++ deviceTurn ++ [(⟨0, workers_devicePhase⟩, .proceed)]) = some s ∧
      s.AllDone ∧ s.log.filterMap Event.askedTid = [0, 2] ∧
        freedDeviceRun.AskedFor deviceThreads
          (freedDeviceRun.contractBudget deviceThreads false none) s := by
  have hrun : (runInputs devicePhase.step (devicePhase.start {})
      (deviceTurn ++ deviceTurn ++ [(⟨0, workers_devicePhase⟩, .proceed)])).any (fun s =>
        decide s.AllDone && decide (s.log.filterMap Event.askedTid = [0, 2])) = true := by
    decide +kernel
  obtain ⟨s, hs, hend⟩ := (Option.any_eq_true ..).mp hrun
  rw [Bool.and_eq_true, decide_eq_true_eq, decide_eq_true_eq] at hend
  exact ⟨s, hs, hend.1, hend.2, askedFor_of_run (I := SurfaceInput.freedDevice)
    SurfaceInput.generates_generate deviceThreads_smallIds hs hend.1.allStopped⟩

end SelectionRun

end Lace.PhaseB
