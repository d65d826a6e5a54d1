import Lace.Library.Memo
import Lace.PhaseB.Compose
import Lace.Phasar.Footprint

/-!
# The pairs of threads whose parallelism is asked for

`mayHappenInParallel` keeps its answers under the unordered pair of threads, but computes them from
the parent of the first one, and asserts that the two have the same parent. Three callers enumerate
the pairs they ask for: `runAnalysisLegacy` all pairs of threads, `composeVerdict` and
`budgetContractThreads` the pairs of threads that access an object.

## Main definitions

* `ThreadCreationTree.mhpMemo`: the cached test;
* `ThreadCreationTree.WellDefined`: its assertion holds, and neither the order of the threads nor
  the queries before matter;
* `ThreadCreationTree.AsksLegacy`, `ComposeInput.asked`, `BudgetInput.asked`: the pairs of the
  callers.

## Main results

* `ThreadCreationTree.wellDefined_iff`: the test is well defined exactly for siblings;
* `askedPairs_wellDefined_iff`: when it is for the pairs of the three callers.
-/

namespace Lace

open Library

/-- The filters of a run: the entries of manual entry mode, and the shared data of the pointer
analysis, if it is the one of Phasar. -/
def EntryFilters.ofRun (manualEntry : Option (String → Bool)) (pta : Option Module) :
    EntryFilters where
  manualEntry := manualEntry
  haveSharedData := pta.map Module.doEntriesHaveSharedData

/-- Sharing data is symmetric. -/
theorem EntryFilters.ofRun_symmetric (manualEntry : Option (String → Bool)) (pta : Option Module) :
    (ofRun manualEntry pta).Symmetric := by
  intro shared hshared n1 n2
  obtain ⟨M, -, rfl⟩ := Option.map_eq_some_iff.mp hshared
  exact M.doEntriesHaveSharedData_comm n1 n2

namespace ThreadCreationTree

variable (T : ThreadCreationTree) (F : EntryFilters)

/-- `cacheKey`: the threads in a fixed order. -/
def cacheKey (t1 t2 : ThreadId) : ThreadId × ThreadId := if t1 ≤ t2 then (t1, t2) else (t2, t1)

/-- `mayHappenInParallel` with its cache. With assertions on, the test fails for threads with
different parents unless an answer is cached. -/
def mhpMemo (asserts : Bool) : Memo (ThreadId × ThreadId) (ThreadId × ThreadId) Bool where
  key pair := cacheKey pair.1 pair.2
  compute pair :=
    -- `assert`; without it the parent of the first thread stands for both.
    if asserts && T.parent pair.1 ≠ T.parent pair.2 then none
    else some (T.mayHappenInParallel F pair.1 pair.2)

/-- The queries go through, one after the other. -/
def GoesThrough (asserts : Bool) (history : List (ThreadId × ThreadId)) : Prop :=
  (runInputs (T.mhpMemo F asserts).step [] history).isSome

/-- The answer to a query after a history. -/
def answer (asserts : Bool) (history : List (ThreadId × ThreadId)) (a b : ThreadId) :
    Option Bool := (T.mhpMemo F asserts).answer history (a, b)

/-- The test is well defined for two threads, with assertions and without. -/
structure WellDefined (a b : ThreadId) : Prop where
  /-- The assertion holds. -/
  precondition : T.parent a = T.parent b
  /-- The test gives an answer. -/
  answered : ∀ asserts history, T.GoesThrough F asserts history →
    (T.answer F asserts history a b).isSome
  /-- The order of the threads does not matter. -/
  symmetric : ∀ asserts history, T.GoesThrough F asserts history →
    T.answer F asserts history a b = T.answer F asserts history b a
  /-- The queries before do not matter. -/
  independent : ∀ asserts history history', T.GoesThrough F asserts history →
    T.GoesThrough F asserts history' →
      T.answer F asserts history a b = T.answer F asserts history' a b

variable {T F} {a b : ThreadId}

/-- The key belongs to the unordered pair. -/
theorem cacheKey_eq_iff {a b c d : ℕ} :
    cacheKey c d = cacheKey a b ↔ c = a ∧ d = b ∨ c = b ∧ d = a := by
  grind [cacheKey]

/-- For siblings every query under their key has one value. -/
theorem compute_of_siblings (hF : F.Symmetric) (hp : T.parent a = T.parent b) (asserts : Bool)
    (pair : ThreadId × ThreadId)
    (hkey : (T.mhpMemo F asserts).key pair = (T.mhpMemo F asserts).key (a, b)) :
    (T.mhpMemo F asserts).compute pair = some (T.mayHappenInParallel F a b) := by
  obtain ⟨c, d⟩ := pair
  rcases cacheKey_eq_iff.mp hkey with ⟨rfl, rfl⟩ | ⟨rfl, rfl⟩
  · simp [mhpMemo, hp]
  · rw [T.mayHappenInParallel_comm hF hp]
    simp [mhpMemo, hp]

/-- Siblings get the computed answer, whatever was asked before. -/
theorem answer_of_siblings (hF : F.Symmetric) (hp : T.parent a = T.parent b) {asserts : Bool}
    {history : List (ThreadId × ThreadId)} (hrun : T.GoesThrough F asserts history) :
    T.answer F asserts history a b = some (T.mayHappenInParallel F a b) :=
  Memo.answer_eq (compute_of_siblings hF hp asserts) hrun

/-- The test is well defined exactly for siblings. -/
theorem wellDefined_iff (hF : F.Symmetric) : T.WellDefined F a b ↔ T.parent a = T.parent b := by
  constructor
  · exact WellDefined.precondition
  · intro hp
    refine ⟨hp, ?_, ?_, ?_⟩
    · intro asserts history hrun
      rw [answer_of_siblings hF hp hrun]
      rfl
    · intro asserts history hrun
      rw [answer_of_siblings hF hp hrun, answer_of_siblings hF hp.symm hrun,
        T.mayHappenInParallel_comm hF hp]
    · intro asserts history history' hrun hrun'
      rw [answer_of_siblings hF hp hrun, answer_of_siblings hF hp hrun']

/-! ### The callers -/

/-- `runAnalysisLegacy` asks for every two threads of the tree, in the order of the vector. -/
def AsksLegacy (T : ThreadCreationTree) (a b : ThreadId) : Prop :=
  ∃ i j : ℕ, i < j ∧ T.threads[i]? = some a ∧ T.threads[j]? = some b

/-- All threads of the tree have one parent. -/
def AllSiblings (T : ThreadCreationTree) : Prop :=
  ∀ t ∈ T.threads, ∀ u ∈ T.threads, T.parent t = T.parent u

theorem asksLegacy_siblings_iff :
    (∀ a b, T.AsksLegacy a b → T.parent a = T.parent b) ↔ T.AllSiblings := by
  constructor
  · intro h t ht u hu
    obtain ⟨i, hi⟩ := List.mem_iff_getElem?.mp ht
    obtain ⟨j, hj⟩ := List.mem_iff_getElem?.mp hu
    -- The vector is enumerated upwards, so the pair may be asked for the other way round.
    rcases lt_trichotomy i j with hij | rfl | hij
    · exact h t u ⟨i, j, hij, hi, hj⟩
    · rw [hi, Option.some.injEq] at hj
      rw [hj]
    · exact (h u t ⟨j, i, hij, hj, hi⟩).symm
  · rintro h a b ⟨i, j, -, hi, hj⟩
    exact h a (List.mem_of_getElem? hi) b (List.mem_of_getElem? hj)

end ThreadCreationTree

namespace PhaseB

/-- The two threads of a pair of ids, if both have one. -/
def threadsOf (threadById : Tid → Option ThreadId) (t1 t2 : Tid) : Option (ThreadId × ThreadId) :=
  match threadById t1, threadById t2 with
  | some T1, some T2 => some (T1, T2)
  | _, _ => none

/-- The pairs that `composeVerdict` asks for. -/
def ComposeInput.asked (X : ComposeInput) : List (ThreadId × ThreadId) :=
  X.allPairs.filterMap fun p =>
    if X.selfRace p then none else threadsOf X.threadById p.t1 p.t2

/-- What the enumeration of `budgetContractThreads` reads. -/
structure BudgetInput where
  /-- `sessions`: threads and objects; a null pointer is `none`. -/
  sessions : List (TidSet × List (Option ObjectRef))
  /-- The object behind a pointer. -/
  object : ObjectRef → SurfaceObject
  /-- `tct`. -/
  tct : ThreadCreationTree
  /-- `threadById`. -/
  threadById : Tid → Option ThreadId
  /-- `LACE_PHASE_A_MODE` is `full`. -/
  fullMode : Bool

/-- `tids`: the threads of the session that access the object. -/
def BudgetInput.tids (B : BudgetInput) (ts : TidSet) (O : ObjectRef) : List Tid :=
  (B.object O).accessingThreadIds.toList.filter fun tid => tid ∈ ts.toList

/-- The pairs that `budgetContractThreads` asks for. -/
def BudgetInput.asked (B : BudgetInput) : List (ThreadId × ThreadId) :=
  B.sessions.flatMap fun session =>
    session.2.flatMap fun ptr =>
      match ptr with
      | none => []
      | some O =>
        -- Every thread of the session is scored in full mode, and the test is not asked.
        if B.fullMode then []
        else (pairs (B.tids session.1 O)).filterMap fun tt => threadsOf B.threadById tt.1 tt.2

/-- Any two threads that access an object are siblings; the instances of a self race, and ids
without a thread, are left aside. -/
def ComposeInput.AccessedBySiblings (X : ComposeInput) : Prop :=
  ∀ O oi, some O ∈ X.objs → X.objIndex O = some oi →
    ∀ t1 ∈ (X.object O).accessingThreadIds.toList, ∀ t2 ∈ (X.object O).accessingThreadIds.toList,
      t1 < t2 → ¬X.selfRace ⟨O, oi, t1, t2⟩ →
        ∀ T1 T2, X.threadById t1 = some T1 → X.threadById t2 = some T2 →
          X.tct.parent T1 = X.tct.parent T2

/-- Any two threads of a session that access an object of the session are siblings; ids without a
thread are left aside. -/
def BudgetInput.AccessedBySiblings (B : BudgetInput) : Prop :=
  ∀ ts objs O, (ts, objs) ∈ B.sessions → some O ∈ objs →
    ∀ t1 ∈ B.tids ts O, ∀ t2 ∈ B.tids ts O, t1 < t2 →
      ∀ T1 T2, B.threadById t1 = some T1 → B.threadById t2 = some T2 →
        B.tct.parent T1 = B.tct.parent T2

theorem threadsOf_eq_some {threadById : Tid → Option ThreadId} {t1 t2 : Tid}
    {p : ThreadId × ThreadId} :
    threadsOf threadById t1 t2 = some p ↔ threadById t1 = some p.1 ∧ threadById t2 = some p.2 := by
  unfold threadsOf
  cases threadById t1 <;> cases threadById t2 <;> simp [Prod.ext_iff]

theorem ComposeInput.asked_siblings_iff (X : ComposeInput) :
    (∀ p ∈ X.asked, X.tct.parent p.1 = X.tct.parent p.2) ↔ X.AccessedBySiblings := by
  simp only [asked, List.mem_filterMap]
  constructor
  · intro h O oi hO hoi t1 ht1 t2 ht2 hlt hrace T1 T2 hT1 hT2
    refine h (T1, T2) ⟨⟨O, oi, t1, t2⟩, mem_allPairs_iff.mpr ⟨hO, hoi, ht1, ht2, hlt⟩, ?_⟩
    rw [if_neg hrace]
    exact threadsOf_eq_some.mpr ⟨hT1, hT2⟩
  · rintro h p ⟨⟨O, oi, t1, t2⟩, hpair, hp⟩
    obtain ⟨hO, hoi, ht1, ht2, hlt⟩ := mem_allPairs_iff.mp hpair
    split_ifs at hp with hrace
    obtain ⟨hT1, hT2⟩ := threadsOf_eq_some.mp hp
    exact h O oi hO hoi t1 ht1 t2 ht2 hlt hrace _ _ hT1 hT2

theorem BudgetInput.pairwise_tids (B : BudgetInput) (ts : TidSet) (O : ObjectRef) :
    (B.tids ts O).Pairwise (· < ·) := (B.object O).accessingThreadIds.sorted.filter _

theorem BudgetInput.mem_asked_iff (B : BudgetInput) {p : ThreadId × ThreadId} :
    p ∈ B.asked ↔ B.fullMode = false ∧ ∃ ts objs O, (ts, objs) ∈ B.sessions ∧ some O ∈ objs ∧
      ∃ t1 ∈ B.tids ts O, ∃ t2 ∈ B.tids ts O, t1 < t2 ∧
        B.threadById t1 = some p.1 ∧ B.threadById t2 = some p.2 := by
  simp only [asked, List.mem_flatMap]
  constructor
  · rintro ⟨⟨ts, objs⟩, hsession, ptr, hptr, hp⟩
    cases ptr with
    | none => exact absurd hp List.not_mem_nil
    | some O =>
      dsimp only at hp
      -- In full mode nothing is asked.
      split_ifs at hp with hfull
      · exact absurd hp List.not_mem_nil
      · obtain ⟨⟨t1, t2⟩, hpair, hthreads⟩ := List.mem_filterMap.mp hp
        obtain ⟨ht1, ht2, hlt⟩ := (mem_pairs_iff (B.pairwise_tids ts O)).mp hpair
        exact ⟨by simpa using hfull, ts, objs, O, hsession, hptr, t1, ht1, t2, ht2, hlt,
          threadsOf_eq_some.mp hthreads⟩
  · rintro ⟨hfull, ts, objs, O, hsession, hO, t1, ht1, t2, ht2, hlt, hthreads⟩
    refine ⟨(ts, objs), hsession, some O, hO, ?_⟩
    dsimp only
    rw [hfull, if_neg Bool.false_ne_true]
    exact List.mem_filterMap.mpr ⟨(t1, t2),
      (mem_pairs_iff (B.pairwise_tids ts O)).mpr ⟨ht1, ht2, hlt⟩, threadsOf_eq_some.mpr hthreads⟩

theorem BudgetInput.asked_siblings_iff (B : BudgetInput) :
    (∀ p ∈ B.asked, B.tct.parent p.1 = B.tct.parent p.2) ↔
      (B.fullMode = false → B.AccessedBySiblings) := by
  simp only [mem_asked_iff]
  constructor
  · intro h hfull ts objs O hsession hO t1 ht1 t2 ht2 hlt T1 T2 hT1 hT2
    exact h (T1, T2) ⟨hfull, ts, objs, O, hsession, hO, t1, ht1, t2, ht2, hlt, hT1, hT2⟩
  · rintro h p ⟨hfull, ts, objs, O, hsession, hO, t1, ht1, t2, ht2, hlt, hT1, hT2⟩
    exact h hfull ts objs O hsession hO t1 ht1 t2 ht2 hlt _ _ hT1 hT2

/-- The test is well defined for all pairs that a caller asks for exactly if the threads of the
tree, or the threads that access one object, are siblings. -/
theorem askedPairs_wellDefined_iff (manualEntry : Option (String → Bool)) (pta : Option Module) :
    (∀ T : ThreadCreationTree, (∀ a b, T.AsksLegacy a b →
        T.WellDefined (.ofRun manualEntry pta) a b) ↔ T.AllSiblings) ∧
      (∀ X : ComposeInput, (∀ p ∈ X.asked,
        X.tct.WellDefined (.ofRun manualEntry pta) p.1 p.2) ↔ X.AccessedBySiblings) ∧
      ∀ B : BudgetInput, (∀ p ∈ B.asked, B.tct.WellDefined (.ofRun manualEntry pta) p.1 p.2) ↔
        (B.fullMode = false → B.AccessedBySiblings) := by
  have hF := EntryFilters.ofRun_symmetric manualEntry pta
  refine ⟨fun T => ?_, fun X => ?_, fun B => ?_⟩
  · simp only [ThreadCreationTree.wellDefined_iff hF]
    exact ThreadCreationTree.asksLegacy_siblings_iff
  · simp only [ThreadCreationTree.wellDefined_iff hF]
    exact X.asked_siblings_iff
  · simp only [ThreadCreationTree.wellDefined_iff hF]
    exact B.asked_siblings_iff

/-! ### A thread and its parent -/

/-- The main thread forks a worker and never joins it. -/
def mainAndWorker : ThreadCreationTree where
  ccpg := .ofNodes [1, 2] (fun _ => .assignment) fun _ => false
  threads := [0, 1]
  thread t :=
    { parent := if t = 1 then some 0 else none
      forkNode := if t = 1 then 2 else 1
      joinNode := none
      nodes := if t = 1 then [2] else [1]
      isKernelEntry := t ≠ 1
      isReentrant := false
      entryName := "" }
  parent_lt t p h := by
    split_ifs at h with ht
    cases h
    rw [ht]
    exact Nat.one_pos
  forkNode_inj t u ht hu _ := by
    have hone : ∀ v : ThreadId, (if v = 1 then some 0 else none : Option ThreadId) ≠ none →
        v = 1 := by
      intro v hv
      by_contra hne
      exact hv (if_neg hne)
    rw [hone t ht, hone u hu]
  isKernelEntry_of_ne t u ht _ _ := by
    apply decide_eq_true
    rintro rfl
    cases ht

/-- `runAnalysisLegacy` asks for the main thread and its worker: they have different parents, the
order of the two decides the answer, and the first query decides it for all later ones. -/
theorem mainAndWorker_illDefined :
    mainAndWorker.AsksLegacy 0 1 ∧ mainAndWorker.parent 0 ≠ mainAndWorker.parent 1 ∧
      mainAndWorker.answer (.ofRun none none) true [] 0 1 = none ∧
      mainAndWorker.answer (.ofRun none none) false [] 0 1 = some false ∧
      mainAndWorker.answer (.ofRun none none) false [] 1 0 = some true ∧
      mainAndWorker.answer (.ofRun none none) false [(1, 0)] 0 1 = some true := by
  refine ⟨⟨0, 1, by decide, rfl, rfl⟩, by decide, by decide, by decide, by decide, by decide⟩

end PhaseB

end Lace
