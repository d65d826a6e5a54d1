import Lace.PhaseB.Selection

/-!
# Serialization by a lock

`surfaceSharedLock` answers that two threads are serialized on an object when all their accesses are
locked and some lock is common to them. The lock discharge of `composeVerdict` removes such a pair.
Exclusion is about each two accesses: one lock has to protect them all.

## Main definitions

* `OneLock`: one lock protects every access of the two threads;
* `UsesOneLock`: the accesses of a thread name one lock;
* `Serialized`: what `surfaceSharedLock` has to see for its answer to be right.

## Main results

* `surfaceSharedLock_iff`: what it does see;
* `lockSerialization_iff`: when its answer, and the lock discharge, are right.
-/

namespace Lace

namespace SharedObject

/-- One lock protects every access of the two threads. -/
def OneLock (o : SharedObject) (ta tb : Tid) : Prop :=
  ∃ lock ≠ "", ∀ a ∈ o.accesses, a.threadId = ta ∨ a.threadId = tb →
    a.isLockProtected = true ∧ a.protectingLock = lock

/-- Every access of the thread is locked. -/
def AllLocked (o : SharedObject) (t : Tid) : Prop :=
  ∀ a ∈ o.accesses, a.threadId = t → a.locked = true

/-- An access of the one thread and one of the other name the same lock. -/
def SharesLock (o : SharedObject) (ta tb : Tid) : Prop :=
  ∃ a ∈ o.accesses, a.threadId = ta ∧
    ∃ b ∈ o.accesses, b.threadId = tb ∧ a.protectingLock = b.protectingLock

/-- The accesses of the thread name one lock. -/
def UsesOneLock (o : SharedObject) (t : Tid) : Prop :=
  ∀ a ∈ o.accesses, a.threadId = t → ∀ a' ∈ o.accesses, a'.threadId = t →
    a.protectingLock = a'.protectingLock

/-- An access is not locked, no lock is common, or neither thread uses two locks. -/
def Serialized (o : SharedObject) (ta tb : Tid) : Prop :=
  ¬o.AllLocked ta ∨ ¬o.AllLocked tb ∨ ¬o.SharesLock ta tb ∨ o.UsesOneLock ta ∧ o.UsesOneLock tb

instance (o : SharedObject) (t : Tid) : Decidable (o.AllLocked t) :=
  inferInstanceAs (Decidable (∀ a ∈ o.accesses, _))

instance (o : SharedObject) (ta tb : Tid) : Decidable (o.SharesLock ta tb) :=
  inferInstanceAs (Decidable (∃ a ∈ o.accesses, a.threadId = ta ∧ ∃ b ∈ o.accesses, _))

instance (o : SharedObject) (t : Tid) : Decidable (o.UsesOneLock t) :=
  inferInstanceAs (Decidable (∀ a ∈ o.accesses, a.threadId = t → ∀ a' ∈ o.accesses, _))

instance (o : SharedObject) (ta tb : Tid) : Decidable (o.Serialized ta tb) :=
  inferInstanceAs (Decidable (_ ∨ _))

variable {o : SharedObject} {ta tb : Tid}

/-- What `surfaceSharedLock` sees. -/
theorem surfaceSharedLock_iff :
    surfaceSharedLock o ta tb = true ↔ o.AllLocked ta ∧ o.AllLocked tb ∧ o.SharesLock ta tb := by
  simp only [surfaceSharedLock, Bool.and_eq_true, List.all_eq_true, List.any_eq_true,
    List.mem_filter, decide_eq_true_eq, Bool.not_eq_true', List.isEmpty_eq_false_iff_exists_mem]
  constructor
  · rintro ⟨⟨⟨-, hla⟩, hlb⟩, a, ⟨ha, hta⟩, b, ⟨hb, htb⟩, heq⟩
    exact ⟨fun x hx hxt => hla x ⟨hx, hxt⟩, fun x hx hxt => hlb x ⟨hx, hxt⟩, a, ha, hta, b, hb,
      htb, heq⟩
  · -- The accesses that share a lock are there, so neither thread is without accesses.
    rintro ⟨hla, hlb, a, ha, hta, b, hb, htb, heq⟩
    exact ⟨⟨⟨⟨⟨a, ha, hta⟩, b, hb, htb⟩, fun x hx => hla x hx.1 hx.2⟩,
      fun x hx => hlb x hx.1 hx.2⟩, a, ⟨ha, hta⟩, b, ⟨hb, htb⟩, heq⟩

theorem OneLock.usesOneLock (h : o.OneLock ta tb) {t : Tid} (ht : t = ta ∨ t = tb) :
    o.UsesOneLock t := by
  obtain ⟨lock, -, hall⟩ := h
  rintro a ha rfl a' ha' hta'
  rw [(hall a ha ht).2, (hall a' ha' (hta' ▸ ht)).2]

/-- Threads that use one lock each, and have a lock in common, use the same one. -/
theorem SharesLock.oneLock (h : o.SharesLock ta tb) (hla : o.AllLocked ta) (hlb : o.AllLocked tb)
    (ha : o.UsesOneLock ta) (hb : o.UsesOneLock tb) : o.OneLock ta tb := by
  obtain ⟨a, hamem, rfl, b, hbmem, rfl, heq⟩ := h
  have hlocked := Bool.and_eq_true_iff.mp (hla a hamem rfl)
  -- The common lock has a name, and each thread uses it throughout.
  refine ⟨a.protectingLock, fun hempty => ?_, fun x hx hxt => ?_⟩
  · rw [hempty] at hlocked
    exact absurd hlocked.2 (by decide)
  · rcases hxt with hxt | hxt
    · exact ⟨(Bool.and_eq_true_iff.mp (hla x hx hxt)).1, ha x hx hxt a hamem rfl⟩
    · exact ⟨(Bool.and_eq_true_iff.mp (hlb x hx hxt)).1, (hb x hx hxt b hbmem rfl).trans heq.symm⟩

/-- For threads with locked accesses and a common lock, one lock protects all accesses exactly if
neither thread uses two. -/
theorem oneLock_iff_of_surfaceSharedLock (h : surfaceSharedLock o ta tb = true) :
    o.OneLock ta tb ↔ o.UsesOneLock ta ∧ o.UsesOneLock tb := by
  obtain ⟨hla, hlb, hcommon⟩ := surfaceSharedLock_iff.mp h
  constructor
  · exact fun hone => ⟨hone.usesOneLock (Or.inl rfl), hone.usesOneLock (Or.inr rfl)⟩
  · exact fun huses => hcommon.oneLock hla hlb huses.1 huses.2

/-- When the answer that two threads are serialized is right. -/
theorem surfaceSharedLock_imp_oneLock_iff :
    (surfaceSharedLock o ta tb = true → o.OneLock ta tb) ↔ o.Serialized ta tb := by
  rw [Serialized]
  by_cases h : surfaceSharedLock o ta tb = true
  · obtain ⟨hla, hlb, hcommon⟩ := surfaceSharedLock_iff.mp h
    simp only [h, forall_const, oneLock_iff_of_surfaceSharedLock h, hla, hlb, hcommon, not_true,
      false_or]
  · refine iff_of_true (fun h' => absurd h' h) ?_
    rw [surfaceSharedLock_iff] at h
    tauto

end SharedObject

namespace PhaseB.ComposeInput

variable (X : ComposeInput) (p : Pair)

/-- The other conditions of the lock discharge: nothing is freed, there is no hazard of a null
state, and a contract names the order. -/
def NamesOrder : Prop :=
  ((X.kind p p.t1).free || (X.kind p p.t2).free) = false ∧ X.semanticNullHazard p = false ∧
    ((X.clause p p.t1).any establishesOrder || (X.clause p p.t2).any establishesOrder) = true

theorem lockDischarge_iff {X : ComposeInput} {p : Pair} : X.lockDischarge p = true ↔
    X.NamesOrder p ∧ surfaceSharedLock (X.object p.object).shared p.t1 p.t2 = true := by
  rw [lockDischarge, NamesOrder, Bool.and_eq_true, Bool.and_eq_true, Bool.and_eq_true,
    Bool.not_eq_true', Bool.not_eq_true']
  tauto

/-- Two threads of an object are answered to be serialized only where one lock protects all their
accesses, exactly if one of the accesses is not locked, no lock is common to the threads, or neither
of them uses two locks. The lock discharge removes a pair only where one lock protects all its
accesses, exactly if this is so or its other conditions fail. -/
theorem lockSerialization_iff (o : SharedObject) (ta tb : Tid) (X : ComposeInput) (p : Pair) :
    ((surfaceSharedLock o ta tb = true → o.OneLock ta tb) ↔ o.Serialized ta tb) ∧
      ((X.lockDischarge p = true → (X.object p.object).shared.OneLock p.t1 p.t2) ↔
        ¬X.NamesOrder p ∨ (X.object p.object).shared.Serialized p.t1 p.t2) := by
  refine ⟨SharedObject.surfaceSharedLock_imp_oneLock_iff, ?_⟩
  rw [lockDischarge_iff, and_imp, SharedObject.surfaceSharedLock_imp_oneLock_iff, imp_iff_not_or]

/-! ### Two locks on one object -/

/-- A counter that thread 1 writes under lock `a` and under lock `b`, and thread 2 under `b`. -/
def twoLockCounter : SurfaceObject where
  name := "count"
  accesses :=
    [⟨⟨1, .write, 1, "count++", true, "mutex_lock(&a)"⟩, "drv_ioctl", "", ""⟩,
      ⟨⟨1, .write, 2, "count--", true, "mutex_lock(&b)"⟩, "drv_ioctl", "", ""⟩,
      ⟨⟨2, .write, 3, "count = 0", true, "mutex_lock(&b)"⟩, "drv_irq", "", ""⟩]
  accessingThreadIds := ⟨[1, 2], TidSet.sorted_one_two⟩
  hasFreeOperation := false
  hasScalarTornAccess := false
  hasListMutation := false
  isSelfRace := false
  riskScore := 0

/-- The counter, with a contract of thread 1 that claims exclusion. -/
def excludedCounter : ComposeInput where
  tct := declaredEntries
  filters := ⟨some fun name => name = "drv_ioctl" || name = "drv_irq", none⟩
  threadById t := if t = 1 then some 0 else if t = 2 then some 1 else none
  contractsByTid t :=
    if t = 1 then some ⟨[⟨"count", 0, [], [], [⟨"EXCLUDE", "mutex"⟩]⟩]⟩ else none
  object _ := twoLockCounter
  objIndex O := if O = 0 then some 0 else none
  objs := [some 0]
  keepLow := false
  env := ⟨false, false, false, false, none, none, none, none⟩

/-- The write under `a` and the write under `b` are answered to be serialized, and the pair is
discharged. -/
theorem excludedCounter_not_oneLock :
    (surfaceSharedLock twoLockCounter.shared 1 2 = true ∧ ¬twoLockCounter.shared.OneLock 1 2) ∧
      excludedCounter.lockDischarge ⟨0, 0, 1, 2⟩ = true ∧
        excludedCounter.composePair ⟨0, 0, 1, 2⟩ = .discharged := by
  refine ⟨⟨by decide +kernel, fun hone => ?_⟩, by decide +kernel, by decide +kernel⟩
  exact absurd (hone.usesOneLock (Or.inl rfl)) (by decide +kernel)

end PhaseB.ComposeInput

end Lace
