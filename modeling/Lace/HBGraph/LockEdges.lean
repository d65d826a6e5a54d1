import Lace.HBGraph.Build
import Lace.Library.Leaders
import Lace.Library.Reorder

/-!
# Lock edges

`buildLockEdges` iterates over sets: of locks, which it groups into classes by comparing with the
first lock of a class only, and of threads, of which it takes the first one that runs a node. Lock
aliasing need not be transitive and a node may belong to several threads, so both orders can
matter.

## Main definitions

* `HBInput.reorder`: the input with its locks and threads in another order;
* `HBInput.LockEdgesStable`: in every order the edges are complete and the same;
* `HBInput.LocksUnambiguous`: the orders do not matter.

## Main results

* `groupedIn_of_twins`, `crossesIn_of_separate`: what holds in every order;
* `lockEdgesStable_iff`: the edges are complete and the same in every order exactly if the orders
  do not matter.
-/

namespace Lace.HBInput

open Library

variable (I : HBInput)

/-- `t` runs the node. -/
def Runs (t : ThreadId) (n : NodeId) : Prop :=
  t ∈ I.tree.threads ∧ n ∈ (I.tree.thread t).nodes

instance (t : ThreadId) (n : NodeId) : Decidable (I.Runs t n) :=
  inferInstanceAs (Decidable (_ ∧ _))

/-- The alias test between two locks. -/
def lockAlias (l l' : Lock) : Bool :=
  I.ir.isLockAlias l.acquire l'.acquire

/-- The input with its locks and threads in another order. -/
def reorder (locks : List Lock) (threads : List ThreadId) (hlocks : locks.Perm I.locks)
    (hthreads : threads.Perm I.tree.threads) : HBInput :=
  { I with
    tree := { I.tree with threads := threads }
    locks := locks
    id_inj := fun l hl l' hl' => I.id_inj l (hlocks.mem_iff.mp hl) l' (hlocks.mem_iff.mp hl')
    rcuThreads_perm := fun fam => (I.rcuThreads_perm fam).trans hthreads.symm }

/-- With the threads in this order, the release and the acquire are attributed to two threads that
may run at the same time. -/
def CrossesIn (threads : List ThreadId) (r a : NodeId) : Prop :=
  ∃ tr, (threads.find? fun t => r ∈ (I.tree.thread t).nodes) = some tr ∧
    ∃ ta, (threads.find? fun t => a ∈ (I.tree.thread t).nodes) = some ta ∧ tr ≠ ta ∧
      I.mayThreadsRunConcurrently tr ta = true

/-- With the locks in this order, some other lock with acquire `a` is in the class of `lr`. -/
def GroupedIn (locks : List Lock) (lr : Lock) (a : NodeId) : Prop :=
  ∃ la ∈ locks, la ≠ lr ∧ la.acquire = a ∧ ∃ cls ∈ classesOf I.lockAlias locks, lr ∈ cls ∧ la ∈ cls

/-- The edge from the release of a lock to an acquire. -/
def handOver (lr : Lock) (r a : NodeId) : HBEdge :=
  ⟨r, a, .lockReleaseAcquire, "lock" ++ toString lr.id⟩

/-- Every release of a lock is ordered before the acquire of every other lock that aliases it, if
they belong to distinct threads that may run at the same time. -/
def LockEdgesComplete : Prop :=
  ∀ lr ∈ I.locks, ∀ r, lr.release = some r → ∀ la ∈ I.locks, la ≠ lr →
    I.lockAlias lr la = true → ∀ tr ta, I.Runs tr r → I.Runs ta la.acquire → tr ≠ ta →
      I.mayThreadsRunConcurrently tr ta = true →
        ∃ e ∈ I.buildLockEdges, e.src = r ∧ e.dst = la.acquire

/-- In every order the edges are complete, and the same. -/
def LockEdgesStable : Prop :=
  ∀ locks threads hlocks hthreads, (I.reorder locks threads hlocks hthreads).LockEdgesComplete ∧
    ∀ e, e ∈ (I.reorder locks threads hlocks hthreads).buildLockEdges ↔ e ∈ I.buildLockEdges

/-- No thread runs both nodes, and every thread of one may run together with every thread of the
other. -/
def SeparateThreads (r a : NodeId) : Prop :=
  ∀ tr ∈ I.tree.threads, r ∈ (I.tree.thread tr).nodes → a ∉ (I.tree.thread tr).nodes ∧
    ∀ ta ∈ I.tree.threads, a ∈ (I.tree.thread ta).nodes →
      I.mayThreadsRunConcurrently tr ta = true

/-- Every lock aliases both or none of `lr` and the locks with acquire `a`, these locks apart. -/
def Twins (lr : Lock) (a : NodeId) : Prop :=
  ∀ lf ∈ I.locks, lf ≠ lr → lf.acquire ≠ a →
    I.lockAlias lf lr = I.ir.isLockAlias lf.acquire a

instance (r a : NodeId) : Decidable (I.SeparateThreads r a) :=
  inferInstanceAs (Decidable (∀ tr ∈ I.tree.threads, _ → _ ∧ ∀ ta ∈ I.tree.threads, _ → _))

instance (lr : Lock) (a : NodeId) : Decidable (I.Twins lr a) :=
  inferInstanceAs (Decidable (∀ lf ∈ I.locks, _ → _ → _))

/-- If the locks alias, the threads of the two nodes are separate and other locks alias both or
none; if the locks only alias a common lock, both threads run both nodes. -/
def PairUnambiguous (lr la : Lock) (r : NodeId) (tr ta : ThreadId) : Prop :=
  (I.lockAlias lr la = true → I.SeparateThreads r la.acquire ∧ I.Twins lr la.acquire) ∧
  (I.lockAlias lr la = false →
    (∃ lf ∈ I.locks, I.lockAlias lf lr = true ∧ I.lockAlias lf la = true) →
      la.acquire ∈ (I.tree.thread tr).nodes ∧ r ∈ (I.tree.thread ta).nodes)

instance (lr la : Lock) (r : NodeId) (tr ta : ThreadId) :
    Decidable (I.PairUnambiguous lr la r tr ta) :=
  inferInstanceAs (Decidable ((_ → _ ∧ _) ∧ (_ → (∃ lf ∈ I.locks, _ ∧ _) → _ ∧ _)))

/-- So it is wherever a release and an acquire of two locks belong to distinct threads that may run
at the same time. -/
def LocksUnambiguous : Prop :=
  ∀ lr ∈ I.locks, ∀ r ∈ lr.release, ∀ la ∈ I.locks, la ≠ lr →
    ∀ tr ∈ I.tree.threads, r ∈ (I.tree.thread tr).nodes →
      ∀ ta ∈ I.tree.threads, la.acquire ∈ (I.tree.thread ta).nodes → tr ≠ ta →
        I.mayThreadsRunConcurrently tr ta = true → I.PairUnambiguous lr la r tr ta

variable {I} {lr la : Lock} {r a : NodeId} {locks : List Lock} {threads : List ThreadId}
  {tr ta : ThreadId}

/-! ### The edges of one order -/

theorem placeLock_eq (l : Lock) (classes : List (List Lock)) :
    I.placeLock l classes = place I.lockAlias l classes := by
  induction classes with
  | nil => rfl
  | cons cls classes ih => rw [placeLock, place, ih]; rfl

theorem lockClasses_eq : I.lockClasses = classesOf I.lockAlias I.locks := by
  unfold lockClasses classesOf
  congr
  funext classes l
  exact placeLock_eq l classes

/-- The order of the threads does not matter to the climb to the ancestors. -/
theorem isDescendantFrom_threads (T : ThreadCreationTree) (threads : List ThreadId) (fuel : ℕ)
    (p : Option ThreadId) (t : ThreadId) :
    ThreadCreationTree.isDescendantFrom { T with threads := threads } fuel p t =
      T.isDescendantFrom fuel p t := by
  induction fuel generalizing p with
  | zero => cases p <;> rfl
  | succ fuel ih =>
    cases p with
    | none => rfl
    | some q =>
      simp only [ThreadCreationTree.isDescendantFrom, ih]
      rfl

/-- Nor to the parallelism test. -/
theorem mayThreadsRunConcurrentlyAux_threads (T : ThreadCreationTree) (threads : List ThreadId)
    (F : EntryFilters) (fuel : ℕ) (t t' : ThreadId) :
    ThreadCreationTree.mayThreadsRunConcurrentlyAux { T with threads := threads } F fuel t t' =
      T.mayThreadsRunConcurrentlyAux F fuel t t' := by
  induction fuel generalizing t t' with
  | zero => rfl
  | succ fuel ih =>
    simp only [ThreadCreationTree.mayThreadsRunConcurrentlyAux, ih,
      ThreadCreationTree.isDescendant, isDescendantFrom_threads]
    rfl

theorem mayThreadsRunConcurrently_reorder (hlocks : locks.Perm I.locks)
    (hthreads : threads.Perm I.tree.threads) (t t' : ThreadId) :
    (I.reorder locks threads hlocks hthreads).mayThreadsRunConcurrently t t' =
      I.mayThreadsRunConcurrently t t' :=
  mayThreadsRunConcurrentlyAux_threads I.tree threads I.filters (t + 1) t t'

theorem crossesIn_reorder (hlocks : locks.Perm I.locks) (hthreads : threads.Perm I.tree.threads) :
    (I.reorder locks threads hlocks hthreads).CrossesIn = I.CrossesIn := by
  funext threads' r a
  simp only [CrossesIn, mayThreadsRunConcurrently_reorder]
  rfl

/-- A lock's class in the code is its class in the order of the locks. -/
theorem groupedIn_iff_lockClasses : I.GroupedIn I.locks lr a ↔
    ∃ la ∈ I.locks, la ≠ lr ∧ la.acquire = a ∧ ∃ cls ∈ I.lockClasses, lr ∈ cls ∧ la ∈ cls := by
  rw [lockClasses_eq]
  rfl

/-- What the builder adds. -/
theorem mem_buildLockEdges_iff (hnodup : I.locks.Nodup) {e : HBEdge} : e ∈ I.buildLockEdges ↔
    ∃ lr ∈ I.locks, ∃ r, lr.release = some r ∧ ∃ a, I.GroupedIn I.locks lr a ∧
      I.CrossesIn I.tree.threads r a ∧ e = handOver lr r a := by
  rw [mem_buildLockEdges]
  have hmem : ∀ {cls l}, cls ∈ I.lockClasses → l ∈ cls → l ∈ I.locks := by
    intro cls l hcls hl
    rw [lockClasses_eq] at hcls
    exact ((mem_classesOf (y := l) hnodup).mp ⟨cls, hcls, hl, hl⟩).1
  constructor
  · rintro ⟨cls, hcls, lr, hlr, la, hla, he⟩
    -- Two locks of one class with different ids are two locks.
    obtain ⟨r, hr, hid, tr, htr, ta, hta, hne, hmay, rfl⟩ := lockEdge_eq_some.mp he
    have hne' : la ≠ lr := fun h => hid (congrArg Lock.id h)
    exact ⟨lr, hmem hcls hlr, r, hr, la.acquire, groupedIn_iff_lockClasses.mpr
      ⟨la, hmem hcls hla, hne', rfl, cls, hcls, hlr, hla⟩, ⟨tr, htr, ta, hta, hne, hmay⟩, rfl⟩
  · rintro ⟨lr, hlr, r, hr, a, hgrouped, ⟨tr, htr, ta, hta, hne, hmay⟩, rfl⟩
    obtain ⟨la, hla, hne', rfl, cls, hcls, hlrc, hlac⟩ := groupedIn_iff_lockClasses.mp hgrouped
    have hid : la.id ≠ lr.id := fun h => hne' (I.id_inj la hla lr hlr h)
    exact ⟨cls, hcls, lr, hlrc, la, hlac,
      lockEdge_eq_some.mpr ⟨r, hr, hid, tr, htr, ta, hta, hne, hmay, rfl⟩⟩

/-- The edges in another order of the input. -/
theorem mem_buildLockEdges_reorder (hnodup : I.locks.Nodup) (hlocks : locks.Perm I.locks)
    (hthreads : threads.Perm I.tree.threads) {e : HBEdge} :
    e ∈ (I.reorder locks threads hlocks hthreads).buildLockEdges ↔
      ∃ lr ∈ I.locks, ∃ r, lr.release = some r ∧ ∃ a, I.GroupedIn locks lr a ∧
        I.CrossesIn threads r a ∧ e = handOver lr r a := by
  rw [mem_buildLockEdges_iff (hlocks.nodup_iff.mpr hnodup), crossesIn_reorder]
  constructor
  · rintro ⟨lr, hlr, h⟩
    exact ⟨lr, hlocks.mem_iff.mp hlr, h⟩
  · rintro ⟨lr, hlr, h⟩
    exact ⟨lr, hlocks.mem_iff.mpr hlr, h⟩

/-- An edge tells the lock and the two nodes. -/
theorem handOver_inj {lr' : Lock} {r' a' : NodeId} (hlr : lr ∈ I.locks) (hlr' : lr' ∈ I.locks)
    (h : handOver lr r a = handOver lr' r' a') : lr = lr' ∧ r = r' ∧ a = a' := by
  simp only [handOver, HBEdge.mk.injEq, true_and] at h
  obtain ⟨hr, ha, hid⟩ := h
  refine ⟨I.id_inj lr hlr lr' hlr' ?_, hr, ha⟩
  have hdigits := congrArg String.toList hid
  rw [String.toList_append, String.toList_append] at hdigits
  have hrepr : Nat.toDigits 10 lr.id = Nat.toDigits 10 lr'.id := by
    rw [← Nat.toList_repr, ← Nat.toList_repr]
    exact List.append_cancel_left hdigits
  rw [← Nat.ofDigitChars_ten_toDigits (n := lr.id), hrepr, Nat.ofDigitChars_ten_toDigits]

/-- So the edge of a lock and two nodes is there exactly if the lock is grouped with the acquire
and the nodes are attributed to concurrent threads. -/
theorem handOver_mem_iff (hnodup : I.locks.Nodup) (hlocks : locks.Perm I.locks)
    (hthreads : threads.Perm I.tree.threads) (hlr : lr ∈ I.locks) (hr : lr.release = some r) :
    handOver lr r a ∈ (I.reorder locks threads hlocks hthreads).buildLockEdges ↔
      I.GroupedIn locks lr a ∧ I.CrossesIn threads r a := by
  rw [mem_buildLockEdges_reorder hnodup]
  constructor
  · rintro ⟨lr', hlr', r', hr', a', hgrouped, hcrosses, heq⟩
    obtain ⟨rfl, rfl, rfl⟩ := handOver_inj hlr hlr' heq
    exact ⟨hgrouped, hcrosses⟩
  · rintro ⟨hgrouped, hcrosses⟩
    exact ⟨lr, hlr, r, hr, a, hgrouped, hcrosses, rfl⟩

/-! ### The order of the locks -/

section Locks

variable (hnodup : I.locks.Nodup)
  (hsymm : ∀ m n, I.ir.isLockAlias m n = I.ir.isLockAlias n m)

include hnodup in
/-- Locks are in one class if they have the same leader. -/
theorem groupedIn_iff (hlocks : locks.Perm I.locks) (hlr : lr ∈ I.locks) :
    I.GroupedIn locks lr a ↔ ∃ la ∈ I.locks, la ≠ lr ∧ la.acquire = a ∧
      leaderIn I.lockAlias (leaders I.lockAlias locks) lr =
        leaderIn I.lockAlias (leaders I.lockAlias locks) la := by
  unfold GroupedIn
  constructor
  · rintro ⟨la, hla, hne, ha, hcls⟩
    obtain ⟨-, -, heq⟩ := (mem_classesOf (hlocks.nodup_iff.mpr hnodup)).mp hcls
    exact ⟨la, hlocks.mem_iff.mp hla, hne, ha, heq⟩
  · rintro ⟨la, hla, hne, ha, heq⟩
    exact ⟨la, hlocks.mem_iff.mpr hla, hne, ha, (mem_classesOf (hlocks.nodup_iff.mpr hnodup)).mpr
      ⟨hlocks.mem_iff.mpr hlr, hlocks.mem_iff.mpr hla, heq⟩⟩

include hnodup in
/-- If a lock comes first, it groups the locks that it aliases, and only these with each other. -/
theorem groupedIn_cons_iff {lf : Lock} (hlocks : (lf :: locks).Perm I.locks) (hlr : lr ∈ I.locks)
    (hlf : lf = lr ∨ I.lockAlias lf lr = true) :
    I.GroupedIn (lf :: locks) lr a ↔ ∃ la ∈ I.locks, la ≠ lr ∧ la.acquire = a ∧
      (lf = la ∨ I.lockAlias lf la = true) := by
  rw [groupedIn_iff hnodup hlocks hlr]
  refine exists_congr fun la => and_congr_right fun _ => and_congr_right fun _ =>
    and_congr_right fun _ => ?_
  rw [leaderIn_leaders_cons.mpr hlf, eq_comm, leaderIn_leaders_cons]

include hnodup hsymm in
/-- Grouped locks alias, or alias a common lock. -/
theorem linked_of_groupedIn (hlocks : locks.Perm I.locks) (hlr : lr ∈ I.locks)
    (h : I.GroupedIn locks lr a) : ∃ la ∈ I.locks, la ≠ lr ∧ la.acquire = a ∧
      (I.lockAlias lr la = true ∨
        ∃ lf ∈ I.locks, I.lockAlias lf lr = true ∧ I.lockAlias lf la = true) := by
  obtain ⟨la, hla, hne, ha, heq⟩ := (groupedIn_iff hnodup hlocks hlr).mp h
  refine ⟨la, hla, hne, ha, ?_⟩
  obtain ⟨f, hf⟩ := exists_leaderIn (r := I.lockAlias) (hlocks.mem_iff.mpr hlr)
  have hfmem := hlocks.mem_iff.mp (mem_of_mem_leaders (List.mem_of_find?_eq_some hf))
  have hflr : f = lr ∨ I.lockAlias f lr = true := by simpa using List.find?_some hf
  have hf' : leaderIn I.lockAlias (leaders I.lockAlias locks) la = some f := heq ▸ hf
  have hfla : f = la ∨ I.lockAlias f la = true := by simpa using List.find?_some hf'
  -- The first of their class is one of the two, or aliases both.
  rcases hflr with rfl | hflr
  · exact Or.inl (hfla.resolve_left (Ne.symm hne))
  · rcases hfla with rfl | hfla
    · exact Or.inl ((hsymm _ _).trans hflr)
    · exact Or.inr ⟨f, hfmem, hflr, hfla⟩

include hnodup hsymm in
/-- Aliasing locks that no other lock tells apart are grouped in every order. -/
theorem groupedIn_of_twins (hlocks : locks.Perm I.locks) (hlr : lr ∈ I.locks) (hla : la ∈ I.locks)
    (hne : la ≠ lr) (halias : I.lockAlias lr la = true) (htwins : I.Twins lr la.acquire) :
    I.GroupedIn locks lr la.acquire := by
  rw [groupedIn_iff hnodup hlocks hlr]
  have hnodup' : locks.Nodup := hlocks.nodup_iff.mpr hnodup
  obtain ⟨f, hf⟩ := exists_leaderIn (r := I.lockAlias) (hlocks.mem_iff.mpr hlr)
  have hfF := List.mem_of_find?_eq_some hf
  by_cases hfa : f.acquire = la.acquire ∧ f ≠ lr
  · -- The leader of `lr` is itself a lock with this acquire.
    refine ⟨f, hlocks.mem_iff.mp (mem_of_mem_leaders hfF), hfa.2, hfa.1, ?_⟩
    rw [hf, leaderIn_self hnodup' hfF]
  · -- Every leader before it misses `lr`, so it misses `la` as well.
    refine ⟨la, hla, hne, rfl, ?_⟩
    obtain ⟨hfp, before, after, hF, hbefore⟩ := List.find?_eq_some_iff_append.mp hf
    rw [hf, eq_comm, leaderIn, List.find?_eq_some_iff_append]
    refine ⟨?_, before, after, hF, fun g hg => ?_⟩
    · have hfmem := hlocks.mem_iff.mp (mem_of_mem_leaders hfF)
      by_cases hflr : f = lr
      · subst hflr
        simp [halias]
      · have hfa' : f.acquire ≠ la.acquire := fun h => hfa ⟨h, hflr⟩
        have halias' : I.lockAlias f lr = true := by simpa [hflr] using hfp
        have hfla : I.lockAlias f la = true := (htwins f hfmem hflr hfa').symm.trans halias'
        simp [hfla]
    · have hgF : g ∈ leaders I.lockAlias locks := by
        rw [hF]
        exact List.mem_append_left _ hg
      have hgmem := hlocks.mem_iff.mp (mem_of_mem_leaders hgF)
      have hmiss : g ≠ lr ∧ I.lockAlias g lr = false := by simpa using hbefore g hg
      -- A lock with the acquire of `la` would not miss `lr`.
      have hga : g.acquire ≠ la.acquire := by
        intro h
        have hhit : I.lockAlias g lr = true := by
          rw [lockAlias, h, hsymm]
          exact halias
        rw [hmiss.2] at hhit
        exact Bool.noConfusion hhit
      have hgla : I.lockAlias g la = false := (htwins g hgmem hmiss.1 hga).symm.trans hmiss.2
      have hne : g ≠ la := fun h => hga (congrArg Lock.acquire h)
      simp [hgla, hne]

include hnodup in
/-- A lock that tells the locks apart separates them in some order. -/
theorem twins_of_groupedIn (hlr : lr ∈ I.locks)
    (h : ∀ locks, locks.Perm I.locks → I.GroupedIn locks lr la.acquire) :
    I.Twins lr la.acquire := by
  intro lf hlf hne ha
  have hlocks : (lf :: I.locks.erase lf).Perm I.locks := (List.perm_cons_erase hlf).symm
  have hgrouped := h _ hlocks
  cases hlflr : I.lockAlias lf lr with
  | true =>
    -- `lf` leads `lr`, so it leads a lock with this acquire.
    obtain ⟨la', -, -, ha', hlead⟩ :=
      (groupedIn_cons_iff hnodup hlocks hlr (Or.inr hlflr)).mp hgrouped
    rcases hlead with rfl | hlead
    · exact absurd ha' ha
    · rw [← ha']
      exact hlead.symm
  | false =>
    rw [eq_comm, ← Bool.not_eq_true]
    intro hlfa
    obtain ⟨la', hla', hne', ha', heq⟩ := (groupedIn_iff hnodup hlocks hlr).mp hgrouped
    have hlead : leaderIn I.lockAlias (leaders I.lockAlias (lf :: I.locks.erase lf)) la' =
        some lf := by
      rw [leaderIn_leaders_cons, lockAlias, ha']
      exact Or.inr hlfa
    rw [hlead, leaderIn_leaders_cons] at heq
    rcases heq with heq | heq
    · exact hne heq
    · rw [hlflr] at heq
      exact Bool.noConfusion heq

end Locks

/-! ### The order of the threads -/

/-- Separate threads are told apart in every order. -/
theorem crossesIn_of_separate (hthreads : threads.Perm I.tree.threads) (htr : I.Runs tr r)
    (hta : I.Runs ta a) (h : I.SeparateThreads r a) : I.CrossesIn threads r a := by
  -- Some thread runs the node, so one is found, whatever the order.
  have hfind : ∀ {t : ThreadId} {n : NodeId}, I.Runs t n →
      ∃ t', (threads.find? fun t => n ∈ (I.tree.thread t).nodes) = some t' ∧ I.Runs t' n := by
    rintro t n ⟨ht, hn⟩
    obtain ⟨t', ht'⟩ := Option.isSome_iff_exists.mp
      (List.find?_isSome (p := fun t => n ∈ (I.tree.thread t).nodes).mpr
        ⟨t, hthreads.mem_iff.mpr ht, by simpa using hn⟩)
    exact ⟨t', ht', hthreads.mem_iff.mp (List.mem_of_find?_eq_some ht'),
      by simpa using List.find?_some ht'⟩
  obtain ⟨tr', htr', hr⟩ := hfind htr
  obtain ⟨ta', hta', ha⟩ := hfind hta
  obtain ⟨hnot, hmay⟩ := h tr' hr.1 hr.2
  refine ⟨tr', htr', ta', hta', ?_, hmay ta' ha.1 ha.2⟩
  rintro rfl
  exact hnot ha.2

/-- Two distinct threads that may run at the same time are the ones that the nodes are attributed
to in some order, unless both run both nodes. -/
theorem exists_crossesIn (htr : I.Runs tr r) (hta : I.Runs ta a) (hne : tr ≠ ta)
    (hmay : I.mayThreadsRunConcurrently tr ta = true)
    (hboth : ¬(a ∈ (I.tree.thread tr).nodes ∧ r ∈ (I.tree.thread ta).nodes)) :
    ∃ threads, threads.Perm I.tree.threads ∧ I.CrossesIn threads r a := by
  -- The thread that runs one of the nodes only has to come behind the other one.
  by_cases hra : a ∈ (I.tree.thread tr).nodes
  · have har : r ∉ (I.tree.thread ta).nodes := fun h => hboth ⟨hra, h⟩
    obtain ⟨threads, hperm, hfr, hfa⟩ := exists_perm_find?_eq_find?_eq
      (p := fun t => decide (r ∈ (I.tree.thread t).nodes))
      (q := fun t => decide (a ∈ (I.tree.thread t).nodes)) htr.1 (by simpa using htr.2) hta.1
      (by simpa using hta.2) (by simpa using har)
    exact ⟨threads, hperm, tr, hfr, ta, hfa, hne, hmay⟩
  · obtain ⟨threads, hperm, hfa, hfr⟩ := exists_perm_find?_eq_find?_eq
      (p := fun t => decide (a ∈ (I.tree.thread t).nodes))
      (q := fun t => decide (r ∈ (I.tree.thread t).nodes)) hta.1 (by simpa using hta.2) htr.1
      (by simpa using htr.2) (by simpa using hra)
    exact ⟨threads, hperm, tr, hfr, ta, hfa, hne, hmay⟩

/-- If the nodes are told apart in every order, their threads are separate. -/
theorem separate_of_crossesIn
    (h : ∀ threads, threads.Perm I.tree.threads → I.CrossesIn threads r a) :
    I.SeparateThreads r a := by
  have hnot : ∀ t ∈ I.tree.threads, r ∈ (I.tree.thread t).nodes →
      a ∉ (I.tree.thread t).nodes := by
    intro t ht hr ha
    -- With `t` first both nodes are attributed to it.
    have hperm : (t :: I.tree.threads.erase t).Perm I.tree.threads :=
      (List.perm_cons_erase ht).symm
    obtain ⟨tr, htr, ta, hta, hne, -⟩ := h _ hperm
    rw [List.find?_cons_of_pos (by simpa using hr)] at htr
    rw [List.find?_cons_of_pos (by simpa using ha)] at hta
    exact hne (Option.some.inj (htr.symm.trans hta))
  refine fun tr htr hr => ⟨hnot tr htr hr, fun ta hta ha => ?_⟩
  have hra : r ∉ (I.tree.thread ta).nodes := fun hr' => hnot ta hta hr' ha
  obtain ⟨threads, hperm, hfr, hfa⟩ := exists_perm_find?_eq_find?_eq
    (p := fun t => decide (r ∈ (I.tree.thread t).nodes))
    (q := fun t => decide (a ∈ (I.tree.thread t).nodes)) htr (by simpa using hr) hta
    (by simpa using ha) (by simpa using hra)
  obtain ⟨tr', htr', ta', hta', -, hmay⟩ := h threads hperm
  obtain rfl := Option.some.inj (htr'.symm.trans hfr)
  obtain rfl := Option.some.inj (hta'.symm.trans hfa)
  exact hmay

/-- The threads that the nodes are attributed to in some order do not both run both nodes. -/
theorem crossesIn_spec (hthreads : threads.Perm I.tree.threads) (h : I.CrossesIn threads r a) :
    ∃ tr ta, I.Runs tr r ∧ I.Runs ta a ∧ tr ≠ ta ∧ I.mayThreadsRunConcurrently tr ta = true ∧
      ¬(a ∈ (I.tree.thread tr).nodes ∧ r ∈ (I.tree.thread ta).nodes) := by
  obtain ⟨tr, htr, ta, hta, hne, hmay⟩ := h
  refine ⟨tr, ta, ?_, ?_, hne, hmay, ?_⟩
  · exact ⟨hthreads.mem_iff.mp (List.mem_of_find?_eq_some htr), by simpa using List.find?_some htr⟩
  · exact ⟨hthreads.mem_iff.mp (List.mem_of_find?_eq_some hta), by simpa using List.find?_some hta⟩
  · rintro ⟨hra, har⟩
    rcases find?_separates htr hta hne with h | h
    · exact absurd har (by simpa using h)
    · exact absurd hra (by simpa using h)

/-! ### All orders -/

/-- Where the orders do not matter, an edge of one order is an edge of every other. -/
theorem handOver_of_unambiguous (hnodup : I.locks.Nodup)
    (hsymm : ∀ m n, I.ir.isLockAlias m n = I.ir.isLockAlias n m) (h : I.LocksUnambiguous)
    {locks' : List Lock} {threads' : List ThreadId} (hlocks : locks.Perm I.locks)
    (hthreads : threads.Perm I.tree.threads) (hlocks' : locks'.Perm I.locks)
    (hthreads' : threads'.Perm I.tree.threads) (hlr : lr ∈ I.locks) (hr : lr.release = some r)
    (hgrouped : I.GroupedIn locks lr a) (hcrosses : I.CrossesIn threads r a) :
    I.GroupedIn locks' lr a ∧ I.CrossesIn threads' r a := by
  obtain ⟨la, hla, hne, rfl, hlinked⟩ := linked_of_groupedIn hnodup hsymm hlocks hlr hgrouped
  obtain ⟨tr, ta, htr, hta, htne, hmay, hboth⟩ := crossesIn_spec hthreads hcrosses
  obtain ⟨halias, hnot⟩ := h lr hlr r hr la hla hne tr htr.1 htr.2 ta hta.1 hta.2 htne hmay
  -- Aliasing locks are kept together; locks that only alias a common one have no edge.
  cases hlrla : I.lockAlias lr la with
  | true =>
    obtain ⟨hseparate, htwins⟩ := halias hlrla
    exact ⟨groupedIn_of_twins hnodup hsymm hlocks' hlr hla hne hlrla htwins,
      crossesIn_of_separate hthreads' htr hta hseparate⟩
  | false =>
    rw [hlrla] at hlinked
    exact absurd (hnot hlrla (hlinked.resolve_left Bool.false_ne_true)) hboth

/-- Where the orders do not matter, the edges are complete in every order. -/
theorem lockEdgesComplete_of_unambiguous (hnodup : I.locks.Nodup)
    (hsymm : ∀ m n, I.ir.isLockAlias m n = I.ir.isLockAlias n m) (h : I.LocksUnambiguous)
    (hlocks : locks.Perm I.locks) (hthreads : threads.Perm I.tree.threads) :
    (I.reorder locks threads hlocks hthreads).LockEdgesComplete := by
  intro lr hlr r hr la hla hne halias tr ta htr hta htne hmay
  rw [mayThreadsRunConcurrently_reorder] at hmay
  have hlr' : lr ∈ I.locks := hlocks.mem_iff.mp hlr
  have hla' : la ∈ I.locks := hlocks.mem_iff.mp hla
  have htr' : I.Runs tr r := ⟨hthreads.mem_iff.mp htr.1, htr.2⟩
  have hta' : I.Runs ta la.acquire := ⟨hthreads.mem_iff.mp hta.1, hta.2⟩
  obtain ⟨hseparate, htwins⟩ :=
    (h lr hlr' r hr la hla' hne tr htr'.1 htr'.2 ta hta'.1 hta'.2 htne hmay).1 halias
  exact ⟨handOver lr r la.acquire, (handOver_mem_iff hnodup hlocks hthreads hlr' hr).mpr
    ⟨groupedIn_of_twins hnodup hsymm hlocks hlr' hla' hne halias htwins,
      crossesIn_of_separate hthreads htr' hta' hseparate⟩, rfl, rfl⟩

/-- If the edges are the same in every order, the edge of a lock and an acquire is there in every
order or in none. -/
theorem handOver_of_stable (hnodup : I.locks.Nodup) (h : I.LockEdgesStable)
    {locks' : List Lock} {threads' : List ThreadId} (hlocks : locks.Perm I.locks)
    (hthreads : threads.Perm I.tree.threads) (hlocks' : locks'.Perm I.locks)
    (hthreads' : threads'.Perm I.tree.threads) (hlr : lr ∈ I.locks) (hr : lr.release = some r)
    (hgrouped : I.GroupedIn locks lr a) (hcrosses : I.CrossesIn threads r a) :
    I.GroupedIn locks' lr a ∧ I.CrossesIn threads' r a := by
  rw [← handOver_mem_iff hnodup hlocks' hthreads' hlr hr,
    (h locks' threads' hlocks' hthreads').2, ← (h locks threads hlocks hthreads).2,
    handOver_mem_iff hnodup hlocks hthreads hlr hr]
  exact ⟨hgrouped, hcrosses⟩

/-- If the edges are complete, the nodes of two aliasing locks are told apart. -/
theorem crossesIn_of_complete (hnodup : I.locks.Nodup) (h : I.LockEdgesStable)
    (hthreads : threads.Perm I.tree.threads) (hlr : lr ∈ I.locks) (hr : lr.release = some r)
    (hla : la ∈ I.locks) (hne : la ≠ lr) (halias : I.lockAlias lr la = true)
    (htr : I.Runs tr r) (hta : I.Runs ta la.acquire) (htne : tr ≠ ta)
    (hmay : I.mayThreadsRunConcurrently tr ta = true) : I.CrossesIn threads r la.acquire := by
  obtain ⟨e, he, hsrc, hdst⟩ := (h I.locks threads (List.Perm.refl _) hthreads).1 lr hlr r hr la hla
    hne halias tr ta ⟨hthreads.mem_iff.mpr htr.1, htr.2⟩ ⟨hthreads.mem_iff.mpr hta.1, hta.2⟩ htne
    ((mayThreadsRunConcurrently_reorder _ hthreads tr ta).trans hmay)
  obtain ⟨lr', -, r', -, a', -, hcrosses, rfl⟩ :=
    (mem_buildLockEdges_reorder hnodup (List.Perm.refl _) hthreads).mp he
  rw [← hsrc, ← hdst]
  exact hcrosses

/-- The lock edges are complete and the same in every order of the locks and the threads, exactly
if the orders do not matter. -/
theorem lockEdgesStable_iff (I : HBInput) (hnodup : I.locks.Nodup)
    (hsymm : ∀ m n, I.ir.isLockAlias m n = I.ir.isLockAlias n m) :
    I.LockEdgesStable ↔ I.LocksUnambiguous := by
  constructor
  · intro h lr hlr r hr la hla hne tr htr hrtr ta hta hata htne hmay
    have hfirst : (lr :: I.locks.erase lr).Perm I.locks := (List.perm_cons_erase hlr).symm
    refine ⟨fun halias => ?_, fun halias hlinked => ?_⟩
    · have hcrosses : ∀ threads, threads.Perm I.tree.threads →
          I.CrossesIn threads r la.acquire := fun threads hthreads =>
        crossesIn_of_complete hnodup h hthreads hlr hr hla hne halias ⟨htr, hrtr⟩ ⟨hta, hata⟩ htne
          hmay
      -- With `lr` first the two locks are grouped, so they are in every order.
      have hgrouped : I.GroupedIn (lr :: I.locks.erase lr) lr la.acquire :=
        (groupedIn_cons_iff hnodup hfirst hlr (Or.inl rfl)).mpr ⟨la, hla, hne, rfl, Or.inr halias⟩
      refine ⟨separate_of_crossesIn hcrosses, twins_of_groupedIn hnodup hlr ?_⟩
      intro locks hlocks
      exact (handOver_of_stable hnodup h hfirst (List.Perm.refl _) hlocks (List.Perm.refl _) hlr hr
        hgrouped (hcrosses _ (List.Perm.refl _))).1
    · by_contra hboth
      obtain ⟨threads, hthreads, hcrosses⟩ :=
        exists_crossesIn ⟨htr, hrtr⟩ ⟨hta, hata⟩ htne hmay hboth
      -- With the common lock first the two locks are grouped, with `lr` first they are not.
      obtain ⟨lf, hlf, hlflr, hlfla⟩ := hlinked
      have hlfirst : (lf :: I.locks.erase lf).Perm I.locks := (List.perm_cons_erase hlf).symm
      have hgrouped : I.GroupedIn (lf :: I.locks.erase lf) lr la.acquire :=
        (groupedIn_cons_iff hnodup hlfirst hlr (Or.inr hlflr)).mpr
          ⟨la, hla, hne, rfl, Or.inr hlfla⟩
      have hgrouped' := (handOver_of_stable hnodup h hlfirst hthreads hfirst hthreads hlr hr
        hgrouped hcrosses).1
      obtain ⟨la', -, hne', ha', hlead⟩ :=
        (groupedIn_cons_iff hnodup hfirst hlr (Or.inl rfl)).mp hgrouped'
      rcases hlead with rfl | hlead
      · exact hne' rfl
      · rw [lockAlias, ha', ← lockAlias, halias] at hlead
        exact Bool.noConfusion hlead
  · intro h locks threads hlocks hthreads
    refine ⟨lockEdgesComplete_of_unambiguous hnodup hsymm h hlocks hthreads, fun e => ?_⟩
    rw [mem_buildLockEdges_reorder hnodup, mem_buildLockEdges_iff hnodup]
    constructor
    · rintro ⟨lr, hlr, r, hr, a, hgrouped, hcrosses, rfl⟩
      obtain ⟨hgrouped', hcrosses'⟩ := handOver_of_unambiguous hnodup hsymm h hlocks hthreads
        (List.Perm.refl _) (List.Perm.refl _) hlr hr hgrouped hcrosses
      exact ⟨lr, hlr, r, hr, a, hgrouped', hcrosses', rfl⟩
    · rintro ⟨lr, hlr, r, hr, a, hgrouped, hcrosses, rfl⟩
      obtain ⟨hgrouped', hcrosses'⟩ := handOver_of_unambiguous hnodup hsymm h (List.Perm.refl _)
        (List.Perm.refl _) hlocks hthreads hlr hr hgrouped hcrosses
      exact ⟨lr, hlr, r, hr, a, hgrouped', hcrosses', rfl⟩

/-! ### Three critical sections -/

/-- Three entries with a critical section each: the acquires 1, 3 and 5, the releases 2, 4 and 6.
The entries are 0, 1 and 2. -/
def threeSectionsTree : ThreadCreationTree where
  ccpg :=
    { nodes := [1, 2, 3, 4, 5, 6]
      type := fun n => if n ∈ [1, 3, 5] then .acquire else .release
      isCallSite := fun _ => true
      edges := [⟨1, 2, .order⟩, ⟨3, 4, .order⟩, ⟨5, 6, .order⟩]
      mem_nodes := by decide }
  threads := [0, 1, 2]
  thread t :=
    { parent := none
      forkNode := 2 * t + 1
      joinNode := none
      nodes := [2 * t + 1, 2 * t + 2]
      isKernelEntry := true
      isReentrant := false
      entryName := "" }
  parent_lt := nofun
  forkNode_inj _ _ h := absurd rfl h
  isKernelEntry_of_ne _ _ _ _ _ := rfl

/-- The lock of a section is named by its acquire; the alias relation is a parameter. -/
def threeSections (areAliases : ValueId → ValueId → Bool) : HBInput where
  tree := threeSectionsTree
  filters := ⟨none, none⟩
  ir := ⟨fun n => some ⟨none, [n.toNat]⟩, fun _ => none, areAliases, id, fun _ => .other⟩
  locks := [⟨1, 1, some 2⟩, ⟨2, 3, some 4⟩, ⟨3, 5, some 6⟩]
  id_inj := by decide
  mainFuncNode t := some (2 * t + 1)
  env := ⟨none, none, false⟩
  rcuFamilies := [.vanilla, .bh, .sched, .srcu, .tasks]
  rcuFamilies_perm := HBInput.declared_families_perm
  rcuThreads _ := [0, 1, 2]
  rcuThreads_perm _ := List.Perm.refl _

/-- The lock of the first section aliases the two others, which do not alias each other. -/
def firstAliasesBoth : HBInput :=
  threeSections fun v w => v = w || v = 1 || w = 1

/-- The locks 3 and 5 do not alias but join the class of 1, which comes first; with 3 first, the
class of 1 is 3's and the section of 5 is left out, although 1 and 5 alias. -/
theorem firstAliasesBoth_not_stable :
    (∃ e ∈ firstAliasesBoth.buildLockEdges, e.src = 4 ∧ e.dst = 5) ∧
    (let other := firstAliasesBoth.reorder [⟨2, 3, some 4⟩, ⟨1, 1, some 2⟩, ⟨3, 5, some 6⟩] [0, 1, 2]
        (by decide) (by decide)
     (∀ e ∈ other.buildLockEdges, ¬(e.src = 4 ∧ e.dst = 5)) ∧
      other.lockAlias ⟨1, 1, some 2⟩ ⟨3, 5, some 6⟩ = true ∧
      other.Runs 0 2 ∧ other.Runs 2 5 ∧ other.mayThreadsRunConcurrently 0 2 = true ∧
      ∀ e ∈ other.buildLockEdges, ¬(e.src = 2 ∧ e.dst = 5)) := by
  decide

/-- Three sections of one lock. -/
theorem oneLock_stable : (threeSections fun _ _ => true).LockEdgesStable :=
  (lockEdgesStable_iff (threeSections fun _ _ => true) (by decide) fun _ _ => rfl).mpr (by
    unfold LocksUnambiguous
    decide)

end Lace.HBInput
