import Lace.ThreadTree.Execution

/-!
# When the parallelism test is sound

`mayThreadsRunConcurrently` climbs from both threads in step. It answers `true` where one is an
ancestor of the other and asks `mayHappenInParallel` where the parents agree, so it denies
parallelism in two situations: one climb arrives at an entry thread before the other, or the
threads lie below two siblings of which one has a join that comes before the fork of the other.
Neither excludes an execution with both threads alive. `Covered` is the condition on the tree
under which the second kind of answer is right and the first does not occur.

## Main results

* `exists_siblings_of_false`: where the climb ends when the test says `false`;
* `mayThreadsRunConcurrently_of_alive`: under `Covered` two threads that are alive together are
  reported.
-/

namespace Lace

open Library Library.Forest

namespace ThreadCreationTree

variable (T : ThreadCreationTree)

/-- The join of `q1` lies on a walk through thread `p` to the fork of `q2`. -/
def JoinsBefore (q1 q2 p : ThreadId) : Prop :=
  ∃ join, (T.thread q1).joinNode = some join ∧ (join = (T.thread q2).forkNode ∨
    ∃ m, Relation.ReflTransGen (T.ThreadStep p) join m ∧ ∃ e ∈ T.ccpg.edges, e.src = m ∧
      e.dst = (T.thread q2).forkNode)

/-- The lifecycle and the shared-data filter let every pair of entry threads pass. -/
structure FiltersOff (F : EntryFilters) : Prop where
  lifecycle : ∀ t1 t2, T.isEntryLifecycleIncompatible t1 t2 = false
  sharedData : ∀ shared, F.haveSharedData = some shared → ∀ n1 n2, shared n1 n2 = true

variable {T} {F : EntryFilters}

theorem joinedBeforeFork_iff {q1 q2 p : ThreadId} :
    T.joinedBeforeFork q1 q2 p = true ↔ T.JoinsBefore q1 q2 p := by
  unfold joinedBeforeFork JoinsBefore
  cases (T.thread q1).joinNode with
  | none => simp
  | some join => simp [isReachable_iff]

/-- Siblings are kept apart only by a join of one before the fork of the other. -/
theorem joinsBefore_of_mayHappenInParallel {q1 q2 p : ThreadId} (hp : T.parent q1 = some p)
    (h : T.mayHappenInParallel F q1 q2 = false) :
    T.JoinsBefore q1 q2 p ∨ T.JoinsBefore q2 q1 p := by
  simp only [mayHappenInParallel, hp, Bool.and_eq_false_iff, Bool.not_eq_false',
    joinedBeforeFork_iff] at h
  exact h

/-- Without the filters, two entry threads are always parallel. -/
theorem mayHappenInParallel_entries (hoff : T.FiltersOff F) {q1 q2 : ThreadId} (hne : q1 ≠ q2)
    (h1 : T.parent q1 = none) (h2 : T.parent q2 = none) :
    T.mayHappenInParallel F q1 q2 = true := by
  have hk1 : (T.thread q1).isKernelEntry = true := T.isKernelEntry_of_ne q1 q2 h1 h2 hne
  have hk2 : (T.thread q2).isKernelEntry = true := T.isKernelEntry_of_ne q2 q1 h2 h1 hne.symm
  have hshared : (F.haveSharedData.any fun shared => !(T.thread q1).entryName.isEmpty &&
      !(T.thread q2).entryName.isEmpty &&
      !shared (T.thread q1).entryName (T.thread q2).entryName) = false := by
    cases hs : F.haveSharedData with
    | none => rfl
    | some shared => simp [hoff.sharedData shared hs]
  simp [mayHappenInParallel, h1, hk1, hk2, hoff.lifecycle q1 q2, hshared]

/-- Every thread lies below an entry thread. -/
theorem exists_root (t : ThreadId) :
    ∃ n r, Steps (ChildOf T.parent) t n r ∧ T.parent r = none := by
  induction t using Nat.strong_induction_on with
  | h t ih =>
      cases hp : T.parent t with
      | none => exact ⟨0, t, .refl, hp⟩
      | some p =>
          obtain ⟨n, r, hr, hroot⟩ := ih p (T.parent_lt_self hp)
          exact ⟨n + 1, r, hr.head hp, hroot⟩

theorem under_of_steps {t q : ThreadId} {n : ℕ} (h : Steps (ChildOf T.parent) t n q) :
    Under T.parent t q :=
  exists_steps_iff.mp ⟨n, h⟩

/-- A thread is an entry thread if no entry thread above it, besides `q`, is higher. -/
theorem parent_eq_none_of_height {q r : ThreadId} (hne : r ≠ q) (hbelow : ¬Below T.parent r q)
    (hheight : ∀ e n, Steps (ChildOf T.parent) r n e → T.parent e = none → q ≠ e → n = 0) :
    T.parent r = none := by
  obtain ⟨n, e, hclimb, hroot⟩ := exists_root (T := T) r
  have hqe : q ≠ e := by
    rintro rfl
    rcases under_iff.mp (under_of_steps hclimb) with heq | hlt
    · exact hne heq
    · exact hbelow hlt
  have hn : n = 0 := hheight e n hclimb hroot hqe
  subst hn
  rwa [hclimb.eq_of_zero]

/-- Where the climb ends when the test denies parallelism: two unrelated threads that are
siblings kept apart, or of which exactly one is an entry thread. -/
theorem exists_siblings_of_false {t1 t2 : ThreadId} (hne : t1 ≠ t2)
    (h : T.mayThreadsRunConcurrently F t1 t2 = false) :
    ∃ k q1 q2, Steps (ChildOf T.parent) t1 k q1 ∧ Steps (ChildOf T.parent) t2 k q2 ∧ q1 ≠ q2 ∧
      ¬Below T.parent q1 q2 ∧ ¬Below T.parent q2 q1 ∧
      (T.parent q1 = T.parent q2 → T.mayHappenInParallel F q1 q2 = false) ∧
      (T.parent q1 ≠ T.parent q2 → T.parent q1 = none ∨ T.parent q2 = none) := by
  induction t1 using Nat.strong_induction_on generalizing t2 with
  | h t1 ih =>
      rw [T.mayThreadsRunConcurrently_eq F, if_neg hne] at h
      split_ifs at h with hdesc hparent
      · -- The threads are siblings.
        simp only [Bool.or_eq_true, isDescendant_iff, not_or] at hdesc
        exact ⟨0, t1, t2, .refl, .refl, hne, hdesc.1, hdesc.2, fun _ => h,
          fun hp => absurd hparent hp⟩
      · cases hp1 : T.parent t1 with
        | none =>
            simp only [Bool.or_eq_true, isDescendant_iff, not_or] at hdesc
            exact ⟨0, t1, t2, .refl, .refl, hne, hdesc.1, hdesc.2,
              fun hp => absurd hp hparent, fun _ => Or.inl hp1⟩
        | some p1 =>
            cases hp2 : T.parent t2 with
            | none =>
                simp only [Bool.or_eq_true, isDescendant_iff, not_or] at hdesc
                exact ⟨0, t1, t2, .refl, .refl, hne, hdesc.1, hdesc.2,
                  fun hp => absurd hp hparent, fun _ => Or.inr hp2⟩
            | some p2 =>
                -- The test is the one of the two parents.
                have hpne : p1 ≠ p2 := fun heq => hparent (by rw [hp1, hp2, heq])
                rw [hp1, hp2] at h
                obtain ⟨k, q1, q2, h1, h2, hrest⟩ := ih p1 (T.parent_lt_self hp1) hpne h
                exact ⟨k + 1, q1, q2, h1.head hp1, h2.head hp2, hrest⟩

end ThreadCreationTree

namespace ThreadProgram

variable (P : ThreadProgram)

/-- Whenever two siblings above `t1` and `t2` are forked, the family of the other one cannot
still be alive. -/
def Separated (t1 t2 : ThreadId) : Prop :=
  ∀ r1 r2 p, Under P.tree.parent t1 r1 → Under P.tree.parent t2 r2 →
    P.tree.parent r1 = some p → P.tree.parent r2 = some p →
      ¬P.LiveAt r1 t1 (P.tree.thread r2).forkNode ∧ ¬P.LiveAt r2 t2 (P.tree.thread r1).forkNode

/-- The condition under which the test is sound for a pair of threads. -/
structure Covered (t1 t2 : ThreadId) : Prop where
  /-- Below different entry threads, the two are at the same depth. -/
  sameDepth : ∀ r1 r2 n1 n2, Steps (ChildOf P.tree.parent) t1 n1 r1 →
    Steps (ChildOf P.tree.parent) t2 n2 r2 → P.tree.parent r1 = none → P.tree.parent r2 = none →
      r1 ≠ r2 → n1 = n2
  /-- Below two siblings of which one is joined on some way to the fork of the other, the entry
  above them runs once and no way leads to a fork with the other family still alive. -/
  separated : ∀ k q1 q2 p, Steps (ChildOf P.tree.parent) t1 k q1 →
    Steps (ChildOf P.tree.parent) t2 k q2 → q1 ≠ q2 → P.tree.parent q1 = some p →
      P.tree.parent q2 = some p → P.tree.JoinsBefore q1 q2 p ∨ P.tree.JoinsBefore q2 q1 p →
      (∀ r, Under P.tree.parent p r → P.tree.parent r = none →
        (P.tree.thread r).isReentrant = false) ∧ P.Separated t1 t2

variable {P}

/-- Two threads below siblings that are kept apart are not alive together. -/
theorem not_alive_of_separated {s : List ThreadInstance} (hinv : P.Inv s)
    {t1 t2 q1 q2 p : ThreadId} (h1 : Alive s t1) (h2 : Alive s t2)
    (hq1 : Under P.tree.parent t1 q1) (hq2 : Under P.tree.parent t2 q2) (hne : q1 ≠ q2)
    (hp1 : P.tree.parent q1 = some p) (hp2 : P.tree.parent q2 = some p)
    (hroots : ∀ r, Under P.tree.parent p r → P.tree.parent r = none →
      (P.tree.thread r).isReentrant = false) (hsep : P.Separated t1 t2) : False := by
  obtain ⟨x, rfl, hx⟩ := h1
  obtain ⟨y, rfl, hy⟩ := h2
  have hlink := hinv.toLinked
  -- two different siblings above `x` and `y` contradict the invariant
  have hapart : ∀ a b z, Under (parentAt s) x a → Under (parentAt s) y b → a ≠ b →
      parentAt s a = some z → parentAt s b ≠ some z := by
    intro a b z hxa hyb hab ha hb
    obtain ⟨h1, h2⟩ := hsep (threadAt s a) (threadAt s b) (threadAt s z)
      (hxa.map hlink.parent_eq) (hyb.map hlink.parent_eq) (hlink.parent_threadAt ha)
      (hlink.parent_threadAt hb)
    exact (hinv.apart x y a b z hx hy hxa hyb hab ha hb).elim h1 h2
  obtain ⟨a, hxa, rfl⟩ := hq1.exists_lift hlink.parent_eq
  obtain ⟨b, hyb, rfl⟩ := hq2.exists_lift hlink.parent_eq
  have hab : a ≠ b := fun h => hne (by rw [h])
  rw [hlink.parent_eq] at hp1 hp2
  obtain ⟨za, hza, hpa⟩ := Option.map_eq_some_iff.mp hp1
  obtain ⟨zb, hzb, hpb⟩ := Option.map_eq_some_iff.mp hp2
  by_cases hz : za = zb
  · subst hz
    exact hapart a b za hxa hyb hab hza hzb
  have hwf : WellFounded fun p t => ChildOf P.tree.parent t p :=
    Subrelation.wf (fun h => P.tree.parent_lt_self h) (wellFounded_lt (α := ℕ))
  have hxza := hxa.trans ((Under.refl za).of_parent hza)
  have hyzb := hyb.trans ((Under.refl zb).of_parent hzb)
  rcases exists_split hlink.parent_eq hwf hz (hpa.trans hpb.symm) with
    ⟨a', b', z, ha', hb', hne', h1, h2⟩ | ⟨a', b', ha', hb', hne', hthread, hroot⟩
  · exact hapart a' b' z (hxza.trans ha') (hyzb.trans hb') hne' h1 h2
  · -- two runs of the entry above them
    have halt : a' < s.length :=
      hlink.lt_length_of_under (lt_length_of_nodeAt hx) (hxza.trans ha')
    have hblt : b' < s.length :=
      hlink.lt_length_of_under (lt_length_of_nodeAt hy) (hyzb.trans hb')
    have hre := hlink.roots a' b' halt hblt hne' hthread hroot
    rw [hroots _ (hpa ▸ ha'.map hlink.parent_eq) hroot] at hre
    cases hre

/-- In every execution, two threads of a covered pair that are alive at the same moment are
reported as concurrent. -/
theorem mayThreadsRunConcurrently_of_alive (P : ThreadProgram) (F : EntryFilters)
    (hoff : P.tree.FiltersOff F) {s : List ThreadInstance} (hs : P.Reachable s)
    {t1 t2 : ThreadId} (hne : t1 ≠ t2) (h1 : Alive s t1) (h2 : Alive s t2)
    (hcov : P.Covered t1 t2) : P.tree.mayThreadsRunConcurrently F t1 t2 = true := by
  by_contra hfalse
  -- The climbs stop at two ancestors: siblings that are denied, or one of them an entry.
  obtain ⟨k, q1, q2, hq1, hq2, hqne, hnb1, hnb2, hsib, hroot⟩ :=
    ThreadCreationTree.exists_siblings_of_false hne (Bool.not_eq_true _ ▸ hfalse)
  by_cases hp : P.tree.parent q1 = P.tree.parent q2
  · -- Siblings are denied by a join before the later fork, which has ended one of them.
    cases hp1 : P.tree.parent q1 with
    | none =>
        have htrue := ThreadCreationTree.mayHappenInParallel_entries hoff hqne hp1 (hp ▸ hp1)
        rw [hsib hp] at htrue
        cases htrue
    | some p =>
        have hp2 : P.tree.parent q2 = some p := hp ▸ hp1
        obtain ⟨hroots, hsep⟩ := hcov.separated k q1 q2 p hq1 hq2 hqne hp1 hp2
          (ThreadCreationTree.joinsBefore_of_mayHappenInParallel hp1 (hsib hp))
        exact not_alive_of_separated (Inv.of_reachable hs) h1 h2
          (ThreadCreationTree.under_of_steps hq1) (ThreadCreationTree.under_of_steps hq2) hqne
          hp1 hp2 hroots hsep
  · -- one climb is at an entry thread, the other below a different one
    rcases hroot hp with hnone | hnone
    · refine hp (hnone.trans (ThreadCreationTree.parent_eq_none_of_height hqne.symm hnb2 ?_).symm)
      intro e n hclimb he hne
      have hdepth := hcov.sameDepth q1 e k (k + n) hq1 (hq2.trans hclimb) hnone he hne
      omega
    · refine hp ((ThreadCreationTree.parent_eq_none_of_height hqne hnb1 ?_).trans hnone.symm)
      intro e n hclimb he hne
      have hdepth := hcov.sameDepth e q2 (k + n) k (hq1.trans hclimb) hq2 he hnone hne.symm
      omega

/-! ### Two entries that fork a worker each

Entry 0 forks worker 2 at node 2, entry 1 forks worker 3 at node 5, and nothing is joined. -/

/-- The code of the two entries (nodes 1 to 3 and 4 to 6) and of the workers (nodes 7 and 8). -/
def workersGraph : CCPG where
  nodes := [1, 2, 3, 4, 5, 6, 7, 8]
  type n := if n = 2 ∨ n = 5 then .fork else .assignment
  isCallSite n := n = 2 ∨ n = 5
  edges := [⟨1, 2, .order⟩, ⟨2, 3, .order⟩, ⟨4, 5, .order⟩, ⟨5, 6, .order⟩, ⟨2, 7, .hb⟩,
    ⟨5, 8, .hb⟩]
  mem_nodes := by decide

/-- Threads 2 and 3 are the workers of entries 0 and 1. -/
def workersParent (t : ThreadId) : Option ThreadId :=
  if t = 2 then some 0 else if t = 3 then some 1 else none

theorem workersParent_eq_some {t p : ThreadId} :
    workersParent t = some p ↔ t = 2 ∧ p = 0 ∨ t = 3 ∧ p = 1 := by
  unfold workersParent
  split_ifs with h2 h3 <;> simp_all [eq_comm]

theorem workersParent_eq_none {t : ThreadId} : workersParent t = none ↔ t ≠ 2 ∧ t ≠ 3 := by
  unfold workersParent
  split_ifs with h2 h3 <;> simp_all

/-- The thread tree over `workersGraph`. -/
def workersTree : ThreadCreationTree where
  ccpg := workersGraph
  threads := [0, 1, 2, 3]
  thread t :=
    { parent := workersParent t
      forkNode := if t = 0 then 1 else if t = 2 then 2 else if t = 3 then 5 else 4
      joinNode := none
      nodes := if t = 0 then [1, 2, 3] else if t = 2 then [7] else if t = 3 then [8] else [4, 5, 6]
      isKernelEntry := t ≠ 2 ∧ t ≠ 3
      isReentrant := false
      entryName := "" }
  parent_lt t p h := by
    rcases workersParent_eq_some.mp h with ⟨rfl, rfl⟩ | ⟨rfl, rfl⟩ <;> decide
  forkNode_inj t u ht hu h := by
    have hworker : ∀ v, workersParent v ≠ none → v = 2 ∨ v = 3 := fun v hv => by
      rw [ne_eq, workersParent_eq_none] at hv
      tauto
    rcases hworker t ht with rfl | rfl <;> rcases hworker u hu with rfl | rfl <;>
      simp at h ⊢
  isKernelEntry_of_ne t u ht _ _ := decide_eq_true (workersParent_eq_none.mp ht)

/-- The program over `workersTree`. -/
def workersProgram : ThreadProgram :=
  ofCFG workersTree fun t => if t = 0 then 1 else if t = 2 then 7 else if t = 3 then 8 else 4

/-- Entry 0 has forked its worker; entry 1 has just started. -/
def oneWorker : List ThreadInstance :=
  [⟨0, none, some 3⟩, ⟨1, none, some 4⟩, ⟨2, some 0, some 7⟩]

/-- Both entries have forked their workers. -/
def twoWorkers : List ThreadInstance :=
  [⟨0, none, some 3⟩, ⟨1, none, some 6⟩, ⟨2, some 0, some 7⟩, ⟨3, some 1, some 8⟩]

theorem workersTree_filtersOff : workersTree.FiltersOff ⟨none, none⟩ where
  lifecycle _ _ := rfl
  sharedData _ h := nomatch h

theorem workers_joinReady (s : List ThreadInstance) (i : ℕ) (n : NodeId) :
    workersProgram.JoinReady s i n := nofun

/-- Both entries start and the first one comes to its fork. -/
theorem workers_atFork :
    workersProgram.Reachable [⟨0, none, some 2⟩, ⟨1, none, some 4⟩] := by
  have h1 : workersProgram.Step [] [⟨0, none, some 1⟩] := .enter 0 rfl (Or.inr (by simp))
  have h2 : workersProgram.Step [⟨0, none, some 1⟩] [⟨0, none, some 1⟩, ⟨1, none, some 4⟩] :=
    .enter 1 rfl (Or.inr (by decide))
  have h3 : workersProgram.Step [⟨0, none, some 1⟩, ⟨1, none, some 4⟩]
      [⟨0, none, some 2⟩, ⟨1, none, some 4⟩] :=
    .move 0 1 (some 2) rfl ⟨⟨⟨1, 2, .order⟩, by decide⟩, by decide⟩ (workers_joinReady _ _ _) (by
      intro c hc
      rcases workersParent_eq_some.mp hc with ⟨rfl, -⟩ | ⟨rfl, -⟩ <;> decide)
  exact ((Relation.ReflTransGen.single h1).tail h2).tail h3

theorem oneWorker_reachable : workersProgram.Reachable oneWorker := by
  refine workers_atFork.tail ?_
  exact .fork 0 2 (some 3) 2 rfl ⟨⟨⟨2, 3, .order⟩, by decide⟩, by decide⟩
    (workers_joinReady _ _ _) rfl rfl

/-- A worker of one entry and the other entry are alive together, but at different depths, so
the test denies it. -/
theorem mayThreadsRunConcurrently_unsound :
    workersTree.FiltersOff ⟨none, none⟩ ∧ workersProgram.Reachable oneWorker ∧
      Alive oneWorker 2 ∧ Alive oneWorker 1 ∧
      workersTree.mayThreadsRunConcurrently ⟨none, none⟩ 2 1 = false :=
  ⟨workersTree_filtersOff, oneWorker_reachable, ⟨2, by decide⟩, ⟨1, by decide⟩, by decide⟩

theorem twoWorkers_reachable : workersProgram.Reachable twoWorkers := by
  have hmove : workersProgram.Step oneWorker
      [⟨0, none, some 3⟩, ⟨1, none, some 5⟩, ⟨2, some 0, some 7⟩] :=
    .move 1 4 (some 5) rfl ⟨⟨⟨4, 5, .order⟩, by decide⟩, by decide⟩
      (workers_joinReady _ _ _) (by
        intro c hc
        rcases workersParent_eq_some.mp hc with ⟨rfl, -⟩ | ⟨rfl, -⟩ <;> decide)
  refine (oneWorker_reachable.tail hmove).tail ?_
  exact .fork 1 5 (some 6) 3 rfl ⟨⟨⟨5, 6, .order⟩, by decide⟩, by decide⟩
    (workers_joinReady _ _ _) rfl rfl

/-- The two workers lie at depth one below different entries, so nothing keeps them apart. -/
theorem workers_covered : workersProgram.Covered 2 3 := by
  -- A climb from a worker ends at the worker or at its entry.
  have hup : ∀ {t q n}, Steps (ChildOf workersParent) t n q → workersParent t ≠ none →
      n = 0 ∧ q = t ∨ n = 1 ∧ workersParent t = some q := by
    intro t q n h ht
    induction h with
    | refl => exact Or.inl ⟨rfl, rfl⟩
    | tail _ hstep ih =>
        rcases ih with ⟨rfl, rfl⟩ | ⟨rfl, hp⟩
        · exact Or.inr ⟨rfl, hstep⟩
        · rcases workersParent_eq_some.mp hp with ⟨-, rfl⟩ | ⟨-, rfl⟩ <;> cases hstep
  constructor
  · intro r1 r2 n1 n2 h1 h2 hr1 hr2 _
    rcases hup h1 (by decide) with ⟨-, rfl⟩ | ⟨rfl, -⟩
    · cases hr1
    rcases hup h2 (by decide) with ⟨-, rfl⟩ | ⟨rfl, -⟩
    · cases hr2
    rfl
  · intro k q1 q2 p h1 h2 _ hp1 hp2
    rcases hup h1 (by decide) with ⟨rfl, rfl⟩ | ⟨rfl, hq1⟩
    · cases h2
      cases hp1
      cases hp2
    · cases hq1
      cases hp1

/-- Both workers are alive and the test says so. -/
theorem mayThreadsRunConcurrently_workers :
    workersTree.mayThreadsRunConcurrently ⟨none, none⟩ 2 3 = true :=
  mayThreadsRunConcurrently_of_alive workersProgram ⟨none, none⟩ workersTree_filtersOff
    twoWorkers_reachable (by decide) ⟨2, by decide⟩ ⟨3, by decide⟩ workers_covered

end ThreadProgram

end Lace
