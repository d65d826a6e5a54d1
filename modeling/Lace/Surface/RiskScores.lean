import Mathlib.Data.Finset.Card
import Mathlib.Data.Finset.Prod
import Lace.L2.NodeAccesses
import Lace.PhaseB.BudgetedSessions

/-!
# The risk scores of the surface

`computeRiskScores` runs once over the accesses of an object and fills sets, counters and flags.
From these it derives the risk indicators of the object and its score. A flow-insensitive scan
knows neither orders nor contexts; what its indicators say is said here in terms of the accesses
alone.

## Main definitions

* `CollectedObject`: an object before it is rated;
* `RiskScan`: what the loop over the accesses collects;
* `CollectedObject.riskFlags`, `CollectedObject.riskScore`: the indicators and the score;
* `RiskExact`: what the indicators mean.

## Main results

* `CollectedObject.foldl_turn`: what the loop has collected;
* `CollectedObject.riskExact`: the indicators mean what they say;
* `CollectedObject.rating_perm`: the order of the accesses does not matter;
* `CollectedObject.riskScore_lt_of_focused`: a list of a global that few threads mutate outranks
  every object whose list is not mutated.
-/

namespace Lace

open PhaseB

/-- `SharedObject`, as `collectSharedObjects` leaves it. -/
structure CollectedObject where
  /-- `name`. -/
  name : String
  /-- `accesses`. -/
  accesses : List AccessSite
  /-- `accessing_thread_ids`. -/
  accessingThreadIds : TidSet
  /-- `is_self_race`. -/
  isSelfRace : Bool
  deriving DecidableEq, Repr

/-- `mentionsAtomicLikeField`, of a code in lower case. -/
def mentionsAtomicLikeField (code : String) : Bool :=
  ["atomic_", "refcount_", "kref_", "read_once", "write_once"].any (has code)

/-- `usesAtomicApi`, of a code in lower case. -/
def usesAtomicApi (code : String) : Bool :=
  ["atomic_", "refcount_", "kref_", "cmpxchg", "xchg("].any (has code)

namespace PhaseB.AccessSite

variable (a : AccessSite)

/-- `isWrite`: a free counts as a write. -/
def isWrite : Bool := a.accessType = .write || a.accessType = .free

/-- `isRead`: the access only reads. -/
def isRead : Bool := a.accessType = .read

/-- `code`: the code of an access, in lower case. -/
def code : String := lower a.codeSnippet

/-- A mutation that a list helper makes. -/
def mutatesList : Bool := has a.code "[list-helper]" && a.isWrite

/-- The code iterates over a list. -/
def iteratesList : Bool := has a.code "list_for_each_entry" || has a.code "hlist_for_each_entry"

/-- A read without `READ_ONCE`. -/
def plainRead : Bool := a.isRead && !has a.code "read_once"

/-- A write without `WRITE_ONCE`. -/
def plainWrite : Bool := a.isWrite && !has a.code "write_once"

/-- A write that uses an atomic API. -/
def atomicApiWrite : Bool := a.isWrite && usesAtomicApi a.code

/-- A write that no lock protects. -/
def unprotectedWrite : Bool := !a.isLockProtected && a.isWrite

/-- An access reads or mutates. -/
theorem isRead_eq_not_isWrite : a.isRead = !a.isWrite := by
  rw [isRead, isWrite]
  cases a.accessType <;> rfl

end PhaseB.AccessSite

/-- Some access has an annotation, and another one of its kind has none. -/
def MixedAnnotations (accesses : List AccessSite) : Prop :=
  ((∃ a ∈ accesses, has a.code "read_once" = true) ∧ ∃ a ∈ accesses, a.plainRead = true) ∨
    (∃ a ∈ accesses, has a.code "write_once" = true) ∧ ∃ a ∈ accesses, a.plainWrite = true

/-- The accesses read and write a field whose name has its place, and none of them is annotated or
atomic. -/
structure PlainField (name : String) (accesses : List AccessSite) : Prop where
  /-- It is a field. -/
  field : "field:".toList.isPrefixOf name.toList = true
  /-- Its name says where it is. -/
  place : has name "@" = true
  /-- Someone writes it. -/
  write : ∃ a ∈ accesses, a.isWrite = true
  /-- Someone reads it. -/
  read : ∃ a ∈ accesses, a.isRead = true
  /-- No access is annotated. -/
  unannotated : ∀ a ∈ accesses, has a.code "read_once" = false ∧ has a.code "write_once" = false
  /-- No write uses an atomic API. -/
  nonatomic : ∀ a ∈ accesses, a.isWrite = true → usesAtomicApi a.code = false

/-- The variables that the loop over the accesses fills. -/
structure RiskScan where
  /-- `threadAccessTypes`: the threads with the kinds of their accesses. -/
  threadAccessTypes : Finset (Tid × AccessType) := ∅
  /-- `threadLocks`: the threads with their locks. -/
  threadLocks : Finset (Tid × String) := ∅
  /-- `anyUnprotectedWrite`. -/
  anyUnprotectedWrite : Bool := false
  /-- `anyFree`. -/
  anyFree : Bool := false
  /-- `readCount`. -/
  readCount : ℕ := 0
  /-- `writeLikeCount`. -/
  writeLikeCount : ℕ := 0
  /-- `hasReadOnceLike`. -/
  hasReadOnceLike : Bool := false
  /-- `hasWriteOnceLike`. -/
  hasWriteOnceLike : Bool := false
  /-- `hasPlainRead`. -/
  hasPlainRead : Bool := false
  /-- `hasPlainWrite`. -/
  hasPlainWrite : Bool := false
  /-- `mentionsAtomicField`. -/
  mentionsAtomicField : Bool := false
  /-- `hasAtomicApiWrite`. -/
  hasAtomicApiWrite : Bool := false
  /-- `listMutatingThreads`. -/
  listMutatingThreads : Finset Tid := ∅
  /-- `anyListIter`. -/
  anyListIter : Bool := false
  deriving DecidableEq

namespace RiskScan

/-- One turn of the loop over the accesses. -/
def turn (s : RiskScan) (a : AccessSite) : RiskScan where
  threadAccessTypes := insert (a.threadId, a.accessType) s.threadAccessTypes
  threadLocks :=
    if a.locked then insert (a.threadId, a.protectingLock) s.threadLocks else s.threadLocks
  anyUnprotectedWrite := s.anyUnprotectedWrite || a.unprotectedWrite
  anyFree := s.anyFree || a.accessType = .free
  readCount := if a.isRead then s.readCount + 1 else s.readCount
  writeLikeCount := if a.isWrite then s.writeLikeCount + 1 else s.writeLikeCount
  hasReadOnceLike := s.hasReadOnceLike || has a.code "read_once"
  hasWriteOnceLike := s.hasWriteOnceLike || has a.code "write_once"
  hasPlainRead := s.hasPlainRead || a.plainRead
  hasPlainWrite := s.hasPlainWrite || a.plainWrite
  mentionsAtomicField := s.mentionsAtomicField || mentionsAtomicLikeField a.code
  hasAtomicApiWrite := s.hasAtomicApiWrite || a.atomicApiWrite
  listMutatingThreads :=
    if a.mutatesList then insert a.threadId s.listMutatingThreads else s.listMutatingThreads
  anyListIter := s.anyListIter || a.iteratesList

variable (s : RiskScan)

/-- The keys of `threadAccessTypes`. -/
def threads : Finset Tid := s.threadAccessTypes.image Prod.fst

/-- The thread writes or frees. -/
def writes (t : Tid) : Bool :=
  (t, .write) ∈ s.threadAccessTypes || (t, .free) ∈ s.threadAccessTypes

/-- The thread reads. -/
def reads (t : Tid) : Bool := (t, .read) ∈ s.threadAccessTypes

/-- The test of two threads: one writes, and the other one reads or writes. -/
def crosses (t1 t2 : Tid) : Bool :=
  s.writes t1 && (s.reads t2 || s.writes t2) || s.writes t2 && (s.reads t1 || s.writes t1)

/-- `sawCrossThreadRW`: the test holds for two keys, of which the first one is smaller. -/
def sawCrossThreadRW : Bool :=
  decide (∃ t1 ∈ s.threads, ∃ t2 ∈ s.threads, t1 < t2 ∧ s.crosses t1 t2 = true)

/-- `threadsWithLock`: how many threads take a lock at some access. -/
def threadsWithLock : ℕ := (s.threadLocks.image Prod.fst).card

/-- `allLocks`: the locks that the accesses are annotated with. -/
def allLocks : Finset String := s.threadLocks.image Prod.snd

/-- `isInconsistentLocking`: some threads have a lock and others not, or there are two locks. -/
def isInconsistentLocking : Bool :=
  0 < s.threadsWithLock && s.threadsWithLock < s.threads.card || 1 < s.allLocks.card

end RiskScan

/-- The risk indicators of an object. -/
structure RiskFlags where
  /-- `has_cross_thread_rw`. -/
  hasCrossThreadRw : Bool
  /-- `has_free_operation`. -/
  hasFreeOperation : Bool
  /-- `has_unprotected_write`. -/
  hasUnprotectedWrite : Bool
  /-- `has_inconsistent_locking`. -/
  hasInconsistentLocking : Bool
  /-- `has_scalar_torn_access`. -/
  hasScalarTornAccess : Bool
  /-- `has_read_dominated_lone_writer`. -/
  hasReadDominatedLoneWriter : Bool
  /-- `has_missing_atomic_annotation`. -/
  hasMissingAtomicAnnotation : Bool
  /-- `has_list_mutation`. -/
  hasListMutation : Bool
  deriving DecidableEq, Repr

namespace CollectedObject

variable (O : CollectedObject)

/-- The variables after the loop over the accesses. -/
def scan : RiskScan := O.accesses.foldl RiskScan.turn {}

/-- `obj.accessing_thread_ids.size()`: how many threads access the object. -/
def threadCount : ℕ := O.accessingThreadIds.toList.length

/-- `obj.name.rfind(prefix, 0) == 0`: the object's name starts with a text, which tells its kind. -/
def named (start : String) : Bool := start.toList.isPrefixOf O.name.toList

/-- The free of an object that several threads access. -/
def freeOperation : Bool := O.scan.anyFree && 2 ≤ O.threadCount

/-- `isListMutation`: two threads mutate the list, or one mutates and the code iterates. -/
def isListMutation : Bool :=
  2 ≤ O.scan.listMutatingThreads.card ||
    1 ≤ O.scan.listMutatingThreads.card && O.scan.anyListIter && 2 ≤ O.threadCount

/-- `isKernelPseudoGlobal`: the guards of `WARN_ONCE` and its kin. -/
def isKernelPseudoGlobal : Bool :=
  O.named "global:" &&
    [".__warned", "__already_done", ".__ratelimit", ".__exiting", ".__done"].any (has O.name)

/-- `isPlainRWRace`: one thread writes and another one reads, and nothing says more. -/
def isPlainRWRace : Bool :=
  O.scan.sawCrossThreadRW && 0 < O.scan.writeLikeCount && 0 < O.scan.readCount &&
    !O.isListMutation && !O.freeOperation && !O.scan.isInconsistentLocking

/-- The boost for plain races is given. -/
def plainRWBoost : Bool :=
  O.isPlainRWRace && !O.isKernelPseudoGlobal &&
    (O.named "global:" || O.named "field:" && O.threadCount ≤ 5)

/-- An annotation on one access of a kind and none on another one. -/
def mixedAnnotations : Bool :=
  O.scan.hasReadOnceLike && O.scan.hasPlainRead || O.scan.hasWriteOnceLike && O.scan.hasPlainWrite

/-- `isPureFieldPlainRW`: a field without any annotation. -/
def isPureFieldPlainRW : Bool :=
  O.named "field:" && has O.name "@" && O.scan.sawCrossThreadRW &&
    O.scan.hasPlainWrite && O.scan.hasPlainRead &&
    !O.scan.hasReadOnceLike && !O.scan.hasWriteOnceLike && !O.scan.hasAtomicApiWrite &&
    !O.isListMutation && !O.freeOperation && !O.scan.isInconsistentLocking

/-- The indicators that `computeRiskScores` sets. -/
def riskFlags : RiskFlags where
  hasCrossThreadRw := O.scan.sawCrossThreadRW
  hasFreeOperation := O.freeOperation
  hasUnprotectedWrite := O.scan.anyUnprotectedWrite
  hasInconsistentLocking := O.scan.isInconsistentLocking
  hasScalarTornAccess := O.mixedAnnotations || O.isPureFieldPlainRW
  hasReadDominatedLoneWriter :=
    2 ≤ O.threadCount && 3 ≤ O.scan.readCount && O.scan.writeLikeCount = 1
  hasMissingAtomicAnnotation :=
    O.scan.mentionsAtomicField && 0 < O.scan.writeLikeCount && !O.scan.hasAtomicApiWrite
  hasListMutation := O.isListMutation

/-- The bonus for more than two threads, which is capped. -/
def threadBonus : ℤ :=
  if 2 < O.scan.threads.card then (min (O.scan.threads.card - 2) 8 * 3 : ℕ) else 0

/-- The list is mutated by few threads. -/
def focusedList : Bool :=
  1 ≤ O.scan.listMutatingThreads.card && 2 ≤ O.threadCount && O.threadCount ≤ 4

/-- The score of an indicator that is set. -/
def points (flag : Bool) (n : ℤ) : ℤ := if flag then n else 0

/-- `risk_score`, with its parts in the order of the source. -/
def riskScore : ℤ :=
  let flags := O.riskFlags
  points flags.hasCrossThreadRw (30 + O.threadBonus) +
  points flags.hasFreeOperation 50 +
  points flags.hasUnprotectedWrite 30 +
  points (flags.hasFreeOperation && flags.hasUnprotectedWrite) 40 +
  points (flags.hasCrossThreadRw && O.named "global:") 15 +
  points flags.hasInconsistentLocking 25 +
  points O.plainRWBoost 80 +
  points O.mixedAnnotations 28 +
  points O.isPureFieldPlainRW 30 +
  points flags.hasReadDominatedLoneWriter 22 +
  points flags.hasMissingAtomicAnnotation 18 +
  points flags.hasListMutation
    (45 + points (O.named "global:") 150 + points O.focusedList 60)

/-- The object with its indicators and its score. -/
def rated : RatedObject where
  name := O.name
  accesses := O.accesses
  accessingThreadIds := O.accessingThreadIds
  hasFreeOperation := O.riskFlags.hasFreeOperation
  hasScalarTornAccess := O.riskFlags.hasScalarTornAccess
  hasListMutation := O.riskFlags.hasListMutation
  isSelfRace := O.isSelfRace
  riskScore := O.riskScore
  hasUnprotectedWrite := O.riskFlags.hasUnprotectedWrite
  hasCrossThreadRw := O.riskFlags.hasCrossThreadRw
  hasMissingAtomicAnnotation := O.riskFlags.hasMissingAtomicAnnotation
  hasInconsistentLocking := O.riskFlags.hasInconsistentLocking
  hasReadDominatedLoneWriter := O.riskFlags.hasReadDominatedLoneWriter

/-- The ids of the object are those of its accesses. -/
def IdsOfAccesses : Prop :=
  ∀ t, t ∈ O.accessingThreadIds.toList ↔ ∃ a ∈ O.accesses, a.threadId = t

/-- What the indicators of an object say about its accesses. -/
structure RiskExact : Prop where
  /-- Two threads access the object, and one of them mutates it. -/
  crossThreadRw : O.riskFlags.hasCrossThreadRw = true ↔
    ∃ a ∈ O.accesses, ∃ b ∈ O.accesses, a.threadId ≠ b.threadId ∧ a.isWrite = true
  /-- Someone frees the object, and someone else accesses it. -/
  freeOperation : O.riskFlags.hasFreeOperation = true ↔
    ∃ a ∈ O.accesses, ∃ b ∈ O.accesses, a.threadId ≠ b.threadId ∧ a.accessType = .free
  /-- Someone mutates the object without a lock. -/
  unprotectedWrite : O.riskFlags.hasUnprotectedWrite = true ↔
    ∃ a ∈ O.accesses, a.isWrite = true ∧ a.isLockProtected = false
  /-- Someone locks the object, and someone else does it never or with another lock. -/
  inconsistentLocking : O.riskFlags.hasInconsistentLocking = true ↔
    ∃ a ∈ O.accesses, a.locked = true ∧ ∃ b ∈ O.accesses,
      b.locked = true ∧ b.protectingLock ≠ a.protectingLock ∨
        ∀ c ∈ O.accesses, c.threadId = b.threadId → c.locked = false
  /-- A list helper mutates the object, and another thread does so as well or the code iterates. -/
  listMutation : O.riskFlags.hasListMutation = true ↔
    ∃ a ∈ O.accesses, a.mutatesList = true ∧ ((∃ b ∈ O.accesses, b.mutatesList = true ∧
      b.threadId ≠ a.threadId) ∨ (∃ b ∈ O.accesses, b.iteratesList = true) ∧
        ∃ b ∈ O.accesses, b.threadId ≠ a.threadId)
  /-- An atomic field is written, but never through an atomic API. -/
  missingAtomic : O.riskFlags.hasMissingAtomicAnnotation = true ↔
    (∃ a ∈ O.accesses, mentionsAtomicLikeField a.code = true) ∧
      (∃ a ∈ O.accesses, a.isWrite = true) ∧
        ∀ a ∈ O.accesses, a.isWrite = true → usesAtomicApi a.code = false
  /-- The annotations are mixed, or a field that threads race on has none, and no indicator says
  more about it. -/
  scalarTorn : O.riskFlags.hasScalarTornAccess = true ↔
    MixedAnnotations O.accesses ∨ PlainField O.name O.accesses ∧
      O.riskFlags.hasCrossThreadRw = true ∧ O.riskFlags.hasListMutation = false ∧
        O.riskFlags.hasFreeOperation = false ∧ O.riskFlags.hasInconsistentLocking = false
  /-- Two threads access the object, at least three accesses read it and a single one writes it. -/
  loneWriter : O.riskFlags.hasReadDominatedLoneWriter = true ↔
    2 ≤ O.accessingThreadIds.toList.length ∧ 3 ≤ O.accesses.countP AccessSite.isRead ∧
      O.accesses.countP AccessSite.isWrite = 1

/-! ### What the loop collects -/

/-- What the loop has collected after some accesses. -/
theorem foldl_turn (s : RiskScan) (accesses : List AccessSite) :
    accesses.foldl RiskScan.turn s =
      { threadAccessTypes :=
          s.threadAccessTypes ∪ (accesses.map fun a => (a.threadId, a.accessType)).toFinset
        threadLocks := s.threadLocks ∪
          ((accesses.filter fun a => a.locked).map fun a => (a.threadId, a.protectingLock)).toFinset
        anyUnprotectedWrite := s.anyUnprotectedWrite || accesses.any AccessSite.unprotectedWrite
        anyFree := s.anyFree || accesses.any fun a => a.accessType = .free
        readCount := s.readCount + accesses.countP AccessSite.isRead
        writeLikeCount := s.writeLikeCount + accesses.countP AccessSite.isWrite
        hasReadOnceLike := s.hasReadOnceLike || accesses.any fun a => has a.code "read_once"
        hasWriteOnceLike := s.hasWriteOnceLike || accesses.any fun a => has a.code "write_once"
        hasPlainRead := s.hasPlainRead || accesses.any AccessSite.plainRead
        hasPlainWrite := s.hasPlainWrite || accesses.any AccessSite.plainWrite
        mentionsAtomicField :=
          s.mentionsAtomicField || accesses.any fun a => mentionsAtomicLikeField a.code
        hasAtomicApiWrite := s.hasAtomicApiWrite || accesses.any AccessSite.atomicApiWrite
        listMutatingThreads := s.listMutatingThreads ∪
          ((accesses.filter AccessSite.mutatesList).map fun a => a.threadId).toFinset
        anyListIter := s.anyListIter || accesses.any AccessSite.iteratesList } := by
  -- Induction on the accesses; every variable collects on its own.
  induction accesses generalizing s with
  | nil => simp
  | cons a rest ih =>
    rw [List.foldl_cons, ih]
    simp only [RiskScan.turn, List.map_cons, List.toFinset_cons, List.any_cons, List.countP_cons,
      List.filter_cons, Bool.or_assoc, RiskScan.mk.injEq, Finset.insert_union,
      Finset.union_insert, true_and, and_true]
    refine ⟨?_, ?_, ?_, ?_⟩
    · split_ifs <;> simp
    · split_ifs <;> omega
    · split_ifs <;> omega
    · split_ifs <;> simp

variable {O}

/-- What the scan has for a thread are the types of its accesses. -/
theorem mem_threadAccessTypes {t : Tid} {k : AccessType} :
    (t, k) ∈ O.scan.threadAccessTypes ↔
      ∃ a ∈ O.accesses, a.threadId = t ∧ a.accessType = k := by
  simp [scan, foldl_turn]

/-- The scan has the threads of the accesses. -/
theorem mem_threads {t : Tid} :
    t ∈ O.scan.threads ↔ ∃ a ∈ O.accesses, a.threadId = t := by
  simp [RiskScan.threads, scan, foldl_turn]

/-- The threads that mutate the list have an access that does. -/
theorem mem_listMutatingThreads {t : Tid} :
    t ∈ O.scan.listMutatingThreads ↔
      ∃ a ∈ O.accesses, a.mutatesList = true ∧ a.threadId = t := by
  simp [scan, foldl_turn, and_assoc]

/-- A thread writes if one of its accesses does. -/
theorem writes_iff {t : Tid} :
    O.scan.writes t = true ↔ ∃ a ∈ O.accesses, a.threadId = t ∧ a.isWrite = true := by
  simp only [RiskScan.writes, Bool.or_eq_true, decide_eq_true_eq, mem_threadAccessTypes,
    AccessSite.isWrite]
  constructor
  · rintro (⟨a, ha, ht, hk⟩ | ⟨a, ha, ht, hk⟩)
    · exact ⟨a, ha, ht, Or.inl hk⟩
    · exact ⟨a, ha, ht, Or.inr hk⟩
  · rintro ⟨a, ha, ht, hk | hk⟩
    · exact Or.inl ⟨a, ha, ht, hk⟩
    · exact Or.inr ⟨a, ha, ht, hk⟩

/-- A thread of the map reads or writes. -/
theorem reads_or_writes {t : Tid} (ht : t ∈ O.scan.threads) :
    (O.scan.reads t || O.scan.writes t) = true := by
  obtain ⟨a, ha, rfl⟩ := mem_threads.mp ht
  rw [Bool.or_eq_true, writes_iff]
  cases hw : a.isWrite with
  | true => exact Or.inr ⟨a, ha, rfl, hw⟩
  | false =>
    refine Or.inl (decide_eq_true (mem_threadAccessTypes.mpr ⟨a, ha, rfl, ?_⟩))
    have hread := a.isRead_eq_not_isWrite
    rw [hw] at hread
    exact of_decide_eq_true hread

/-- Two threads meet in a write if one of them writes. -/
theorem crosses_iff {t1 t2 : Tid} (h1 : t1 ∈ O.scan.threads) (h2 : t2 ∈ O.scan.threads) :
    O.scan.crosses t1 t2 = true ↔ O.scan.writes t1 = true ∨ O.scan.writes t2 = true := by
  rw [RiskScan.crosses, reads_or_writes h1, reads_or_writes h2, Bool.and_true, Bool.and_true,
    Bool.or_eq_true]

/-- The nested loops find two threads of which one writes, in either order. -/
theorem sawCrossThreadRW_iff : O.scan.sawCrossThreadRW = true ↔
    ∃ a ∈ O.accesses, ∃ b ∈ O.accesses, a.threadId ≠ b.threadId ∧ a.isWrite = true := by
  rw [RiskScan.sawCrossThreadRW, decide_eq_true_eq]
  constructor
  · rintro ⟨t1, h1, t2, h2, hlt, hcross⟩
    rcases (crosses_iff h1 h2).mp hcross with hw | hw
    · obtain ⟨a, ha, rfl, hmut⟩ := writes_iff.mp hw
      obtain ⟨b, hb, rfl⟩ := mem_threads.mp h2
      exact ⟨a, ha, b, hb, hlt.ne, hmut⟩
    · obtain ⟨a, ha, rfl, hmut⟩ := writes_iff.mp hw
      obtain ⟨b, hb, rfl⟩ := mem_threads.mp h1
      exact ⟨a, ha, b, hb, hlt.ne', hmut⟩
  · rintro ⟨a, ha, b, hb, hne, hmut⟩
    have h1 := mem_threads.mpr ⟨a, ha, rfl⟩
    have h2 := mem_threads.mpr ⟨b, hb, rfl⟩
    have hw := writes_iff.mpr ⟨a, ha, rfl, hmut⟩
    -- The smaller thread is the outer one.
    rcases hne.lt_or_gt with hlt | hlt
    · exact ⟨_, h1, _, h2, hlt, (crosses_iff h1 h2).mpr (Or.inl hw)⟩
    · exact ⟨_, h2, _, h1, hlt, (crosses_iff h2 h1).mpr (Or.inr hw)⟩

/-- Beside a thread that accesses the object there is another one. -/
theorem two_le_threadCount_iff (hids : O.IdsOfAccesses) {a : AccessSite} (ha : a ∈ O.accesses) :
    2 ≤ O.threadCount ↔ ∃ b ∈ O.accesses, b.threadId ≠ a.threadId := by
  have hmem := (hids a.threadId).mpr ⟨a, ha, rfl⟩
  constructor
  · intro hcount
    by_contra hnone
    push Not at hnone
    have hsub : O.accessingThreadIds.toList ⊆ [a.threadId] := by
      intro t ht
      obtain ⟨b, hb, rfl⟩ := (hids t).mp ht
      exact List.mem_singleton.mpr (hnone b hb)
    exact absurd (hcount.trans (O.accessingThreadIds.nodup.subperm hsub).length_le) (by simp)
  · rintro ⟨b, hb, hne⟩
    have hsub : [a.threadId, b.threadId] ⊆ O.accessingThreadIds.toList := by
      simp [hmem, (hids b.threadId).mpr ⟨b, hb, rfl⟩]
    exact ((List.nodup_cons.mpr ⟨by simpa using hne.symm, by simp⟩).subperm hsub).length_le

/-- A free counts when another thread accesses the object. -/
theorem freeOperation_iff (hids : O.IdsOfAccesses) : O.freeOperation = true ↔
    ∃ a ∈ O.accesses, ∃ b ∈ O.accesses, a.threadId ≠ b.threadId ∧ a.accessType = .free := by
  have hfree : O.scan.anyFree = true ↔ ∃ a ∈ O.accesses, a.accessType = .free := by
    simp [scan, foldl_turn]
  rw [freeOperation, Bool.and_eq_true, hfree, decide_eq_true_eq]
  constructor
  · rintro ⟨⟨a, ha, hk⟩, hcount⟩
    obtain ⟨b, hb, hne⟩ := (two_le_threadCount_iff hids ha).mp hcount
    exact ⟨a, ha, b, hb, hne.symm, hk⟩
  · rintro ⟨a, ha, b, hb, hne, hk⟩
    exact ⟨⟨a, ha, hk⟩, (two_le_threadCount_iff hids ha).mpr ⟨b, hb, hne.symm⟩⟩

/-- The counts of the locks see a thread without a lock, or a second lock. -/
theorem isInconsistentLocking_iff : O.scan.isInconsistentLocking = true ↔
    ∃ a ∈ O.accesses, a.locked = true ∧ ∃ b ∈ O.accesses,
      b.locked = true ∧ b.protectingLock ≠ a.protectingLock ∨
        ∀ c ∈ O.accesses, c.threadId = b.threadId → c.locked = false := by
  have hlockers : ∀ t, t ∈ O.scan.threadLocks.image Prod.fst ↔
      ∃ a ∈ O.accesses, a.locked = true ∧ a.threadId = t := by
    simp [scan, foldl_turn, and_assoc]
  have hlocks : ∀ lock, lock ∈ O.scan.allLocks ↔
      ∃ a ∈ O.accesses, a.locked = true ∧ a.protectingLock = lock := by
    simp [RiskScan.allLocks, scan, foldl_turn, and_assoc]
  have hsub : O.scan.threadLocks.image Prod.fst ⊆ O.scan.threads := by
    intro t ht
    obtain ⟨a, ha, -, rfl⟩ := (hlockers t).mp ht
    exact mem_threads.mpr ⟨a, ha, rfl⟩
  rw [RiskScan.isInconsistentLocking, Bool.or_eq_true, Bool.and_eq_true, decide_eq_true_eq,
    decide_eq_true_eq, decide_eq_true_eq, RiskScan.threadsWithLock, Finset.card_pos,
    Finset.one_lt_card]
  constructor
  · rintro (⟨⟨t, ht⟩, hlt⟩ | ⟨l, hl, l', hl', hne⟩)
    · obtain ⟨a, ha, hlocked, -⟩ := (hlockers t).mp ht
      obtain ⟨u, hu, hnot⟩ := Finset.exists_mem_notMem_of_card_lt_card hlt
      obtain ⟨b, hb, rfl⟩ := mem_threads.mp hu
      refine ⟨a, ha, hlocked, b, hb, Or.inr fun c hc hthread => ?_⟩
      by_contra hlocked'
      exact hnot ((hlockers _).mpr ⟨c, hc, by simpa using hlocked', hthread⟩)
    · obtain ⟨a, ha, hlocked, rfl⟩ := (hlocks l).mp hl
      obtain ⟨b, hb, hlocked', rfl⟩ := (hlocks l').mp hl'
      exact ⟨a, ha, hlocked, b, hb, Or.inl ⟨hlocked', hne.symm⟩⟩
  · rintro ⟨a, ha, hlocked, b, hb, ⟨hlocked', hne⟩ | hnever⟩
    · exact Or.inr ⟨_, (hlocks _).mpr ⟨a, ha, hlocked, rfl⟩, _,
        (hlocks _).mpr ⟨b, hb, hlocked', rfl⟩, hne.symm⟩
    · refine Or.inl ⟨⟨_, (hlockers _).mpr ⟨a, ha, hlocked, rfl⟩⟩, Finset.card_lt_card ?_⟩
      refine Finset.ssubset_iff_subset_ne.mpr ⟨hsub, fun heq => ?_⟩
      -- The thread that never locks is not among those with a lock.
      have hmem := mem_threads.mpr ⟨b, hb, rfl⟩
      rw [← heq, hlockers] at hmem
      obtain ⟨c, hc, hlocked', hthread⟩ := hmem
      rw [hnever c hc hthread] at hlocked'
      cases hlocked'

/-- A mutation of a list counts when another thread mutates it or walks over it. -/
theorem isListMutation_iff (hids : O.IdsOfAccesses) : O.isListMutation = true ↔
    ∃ a ∈ O.accesses, a.mutatesList = true ∧ ((∃ b ∈ O.accesses, b.mutatesList = true ∧
      b.threadId ≠ a.threadId) ∨ (∃ b ∈ O.accesses, b.iteratesList = true) ∧
        ∃ b ∈ O.accesses, b.threadId ≠ a.threadId) := by
  have hiter : O.scan.anyListIter = true ↔ ∃ b ∈ O.accesses, b.iteratesList = true := by
    simp [scan, foldl_turn]
  rw [isListMutation, Bool.or_eq_true, Bool.and_eq_true, Bool.and_eq_true, decide_eq_true_eq,
    decide_eq_true_eq, decide_eq_true_eq, hiter]
  constructor
  · rintro (htwo | ⟨⟨hone, hi⟩, hcount⟩)
    · obtain ⟨t, ht, u, hu, hne⟩ := Finset.one_lt_card.mp htwo
      obtain ⟨a, ha, hmut, rfl⟩ := mem_listMutatingThreads.mp ht
      obtain ⟨b, hb, hmut', rfl⟩ := mem_listMutatingThreads.mp hu
      exact ⟨a, ha, hmut, Or.inl ⟨b, hb, hmut', hne.symm⟩⟩
    · obtain ⟨t, ht⟩ := Finset.card_pos.mp hone
      obtain ⟨a, ha, hmut, rfl⟩ := mem_listMutatingThreads.mp ht
      exact ⟨a, ha, hmut, Or.inr ⟨hi, (two_le_threadCount_iff hids ha).mp hcount⟩⟩
  · rintro ⟨a, ha, hmut, ⟨b, hb, hmut', hne⟩ | ⟨hi, hother⟩⟩
    · exact Or.inl (Finset.one_lt_card.mpr ⟨_, mem_listMutatingThreads.mpr ⟨a, ha, hmut, rfl⟩, _,
        mem_listMutatingThreads.mpr ⟨b, hb, hmut', rfl⟩, hne.symm⟩)
    · refine Or.inr ⟨⟨?_, hi⟩, (two_le_threadCount_iff hids ha).mpr hother⟩
      exact Finset.card_pos.mpr ⟨_, mem_listMutatingThreads.mpr ⟨a, ha, hmut, rfl⟩⟩

/-- The locking is inconsistent exactly if the annotations are mixed. -/
theorem mixedAnnotations_iff : O.mixedAnnotations = true ↔ MixedAnnotations O.accesses := by
  simp [mixedAnnotations, MixedAnnotations, scan, foldl_turn]

/-- The test for a field without annotations, in terms of the accesses. -/
theorem isPureFieldPlainRW_iff : O.isPureFieldPlainRW = true ↔
    PlainField O.name O.accesses ∧ O.scan.sawCrossThreadRW = true ∧ O.isListMutation = false ∧
      O.freeOperation = false ∧ O.scan.isInconsistentLocking = false := by
  have honce : O.scan.hasReadOnceLike = false ∧ O.scan.hasWriteOnceLike = false ↔
      ∀ a ∈ O.accesses, has a.code "read_once" = false ∧ has a.code "write_once" = false := by
    simp [scan, foldl_turn, forall_and]
  have hatomic : O.scan.hasAtomicApiWrite = false ↔
      ∀ a ∈ O.accesses, a.isWrite = true → usesAtomicApi a.code = false := by
    simp [scan, foldl_turn, AccessSite.atomicApiWrite]
  -- Without annotations the plain writes and reads are all of them.
  have hwrite : O.scan.hasWriteOnceLike = false →
      (O.scan.hasPlainWrite = true ↔ ∃ a ∈ O.accesses, a.isWrite = true) := by
    intro hnone
    have hnone' : ∀ a ∈ O.accesses, has a.code "write_once" = false := by
      simpa [scan, foldl_turn] using hnone
    simp only [scan, foldl_turn, Bool.false_or, List.any_eq_true]
    refine exists_congr fun a => and_congr_right fun ha => ?_
    rw [AccessSite.plainWrite, hnone' a ha, Bool.not_false, Bool.and_true]
  have hread : O.scan.hasReadOnceLike = false →
      (O.scan.hasPlainRead = true ↔ ∃ a ∈ O.accesses, a.isRead = true) := by
    intro hnone
    have hnone' : ∀ a ∈ O.accesses, has a.code "read_once" = false := by
      simpa [scan, foldl_turn] using hnone
    simp only [scan, foldl_turn, Bool.false_or, List.any_eq_true]
    refine exists_congr fun a => and_congr_right fun ha => ?_
    rw [AccessSite.plainRead, hnone' a ha, Bool.not_false, Bool.and_true]
  simp only [isPureFieldPlainRW, Bool.and_eq_true, Bool.not_eq_true']
  constructor
  · rintro ⟨⟨⟨⟨⟨⟨⟨⟨⟨⟨hfield, hplace⟩, hcross⟩, hpw⟩, hpr⟩, hro⟩, hwo⟩, hnot⟩, hlist⟩, hfree⟩, hlock⟩
    exact ⟨⟨hfield, hplace, (hwrite hwo).mp hpw, (hread hro).mp hpr, honce.mp ⟨hro, hwo⟩,
      hatomic.mp hnot⟩, hcross, hlist, hfree, hlock⟩
  · rintro ⟨hplain, hcross, hlist, hfree, hlock⟩
    obtain ⟨hro, hwo⟩ := honce.mpr hplain.unannotated
    exact ⟨⟨⟨⟨⟨⟨⟨⟨⟨⟨hplain.field, hplain.place⟩, hcross⟩, (hwrite hwo).mpr hplain.write⟩,
      (hread hro).mpr hplain.read⟩, hro⟩, hwo⟩, hatomic.mpr hplain.nonatomic⟩, hlist⟩, hfree⟩,
      hlock⟩

/-- The indicators say about the accesses what their names promise. -/
theorem riskExact (hids : O.IdsOfAccesses) : O.RiskExact where
  crossThreadRw := sawCrossThreadRW_iff
  freeOperation := freeOperation_iff hids
  unprotectedWrite := by
    simp [riskFlags, scan, foldl_turn, AccessSite.unprotectedWrite, and_comm]
  inconsistentLocking := isInconsistentLocking_iff
  listMutation := isListMutation_iff hids
  missingAtomic := by
    simp [riskFlags, scan, foldl_turn, AccessSite.atomicApiWrite, and_assoc]
  scalarTorn := by
    simp only [riskFlags, Bool.or_eq_true, mixedAnnotations_iff, isPureFieldPlainRW_iff]
  loneWriter := by
    change _ ↔ 2 ≤ O.threadCount ∧ _
    simp only [riskFlags, scan, foldl_turn, zero_add, Bool.and_eq_true, decide_eq_true_eq, and_assoc]

/-- The order in which the accesses were found does not matter. -/
theorem scan_perm {O' : CollectedObject} (h : O.accesses.Perm O'.accesses) : O.scan = O'.scan := by
  have hany : ∀ p : AccessSite → Bool, O.accesses.any p = O'.accesses.any p := fun p => h.any_eq
  rw [scan, scan, foldl_turn, foldl_turn]
  simp only [hany, h.countP_eq, List.toFinset_eq_of_perm _ _ (h.map _),
    List.toFinset_eq_of_perm _ _ ((h.filter _).map _)]

/-- The order in which the accesses were found changes neither the indicators nor the score. -/
theorem rating_perm {l : List AccessSite} (h : O.accesses.Perm l) :
    riskFlags { O with accesses := l } = O.riskFlags ∧
      riskScore { O with accesses := l } = O.riskScore := by
  have hscan : scan { O with accesses := l } = O.scan := (scan_perm h).symm
  have hfree : freeOperation { O with accesses := l } = O.freeOperation := by
    rw [freeOperation, freeOperation, hscan]
    rfl
  have hlist : isListMutation { O with accesses := l } = O.isListMutation := by
    rw [isListMutation, isListMutation, hscan]
    rfl
  have hpure : isPureFieldPlainRW { O with accesses := l } = O.isPureFieldPlainRW := by
    rw [isPureFieldPlainRW, isPureFieldPlainRW, hscan, hfree, hlist]
    rfl
  have hmixed : mixedAnnotations { O with accesses := l } = O.mixedAnnotations := by
    rw [mixedAnnotations, mixedAnnotations, hscan]
  have hflags : riskFlags { O with accesses := l } = O.riskFlags := by
    rw [riskFlags, riskFlags, hscan, hfree, hlist, hpure, hmixed]
    rfl
  have hplain : plainRWBoost { O with accesses := l } = O.plainRWBoost := by
    rw [plainRWBoost, plainRWBoost, isPlainRWRace, isPlainRWRace, hscan, hfree, hlist]
    rfl
  have hbonus : threadBonus { O with accesses := l } = O.threadBonus := by
    rw [threadBonus, threadBonus, hscan]
  have hfocused : focusedList { O with accesses := l } = O.focusedList := by
    rw [focusedList, focusedList, hscan]
    rfl
  refine ⟨hflags, ?_⟩
  rw [riskScore, riskScore, hflags, hplain, hpure, hmixed, hbonus, hfocused]
  rfl

/-- A counter that one thread reads and another one writes under a lock. -/
def lockedCounter : CollectedObject where
  name := "global:counter"
  accesses :=
    [ { threadId := 1, accessType := .read, nodeId := 1, codeSnippet := "READ_ONCE(counter)",
        isLockProtected := false, protectingLock := "", functionName := "reader",
        containingFunction := "reader", location := "a.c:1" },
      { threadId := 2, accessType := .write, nodeId := 2, codeSnippet := "counter++",
        isLockProtected := true, protectingLock := "spin_lock(&l)", functionName := "writer",
        containingFunction := "writer", location := "a.c:2" } ]
  accessingThreadIds := ⟨[1, 2], TidSet.sorted_one_two⟩
  isSelfRace := false

/-- The score of the counter whose write was found first. -/
theorem lockedCounter_rating_perm :
    lockedCounter.riskScore = 30 + 15 + 25 + 18 ∧
      riskFlags { lockedCounter with accesses := lockedCounter.accesses.reverse } =
        lockedCounter.riskFlags ∧
      riskScore { lockedCounter with accesses := lockedCounter.accesses.reverse } =
        lockedCounter.riskScore :=
  ⟨by decide +kernel, rating_perm (List.reverse_perm _).symm⟩

/-! ### The ranking -/

@[simp]
theorem points_true (n : ℤ) : points true n = n := rfl

@[simp]
theorem points_false (n : ℤ) : points false n = 0 := rfl

/-- An indicator takes nothing away. -/
theorem points_nonneg (flag : Bool) {n : ℤ} (hn : 0 ≤ n) : 0 ≤ points flag n := by
  cases flag
  · exact le_rfl
  · exact hn

/-- An indicator gives its points at most. -/
theorem points_le (flag : Bool) {n : ℤ} (hn : 0 ≤ n) : points flag n ≤ n := by
  cases flag
  · exact hn
  · exact le_rfl

/-- The bonus for threads takes nothing away. -/
theorem threadBonus_nonneg : 0 ≤ O.threadBonus := by
  rw [threadBonus]
  split_ifs <;> omega

/-- The bonus for threads is bounded. -/
theorem threadBonus_le : O.threadBonus ≤ 24 := by
  rw [threadBonus]
  split_ifs <;> omega

/-- The boost for plain races is not given along with the points for inconsistent locking. -/
theorem locking_add_plain_le :
    points O.scan.isInconsistentLocking 25 + points O.plainRWBoost 80 ≤ 80 := by
  cases hinc : O.scan.isInconsistentLocking with
  | true => simp [plainRWBoost, isPlainRWRace, hinc, points]
  | false => simpa [points] using points_le O.plainRWBoost (n := 80) (by decide)

/-- A field without annotations has no mixed ones. -/
theorem mixed_add_pure_le :
    points O.mixedAnnotations 28 + points O.isPureFieldPlainRW 30 ≤ 30 := by
  cases hpure : O.isPureFieldPlainRW with
  | true =>
    have hmixed : O.mixedAnnotations = false := by
      simp only [isPureFieldPlainRW, Bool.and_eq_true, Bool.not_eq_true'] at hpure
      simp [mixedAnnotations, hpure]
    simp [points, hmixed]
  | false =>
    have hmixed := points_le O.mixedAnnotations (n := 28) (by decide)
    rw [points_false]
    omega

/-- Without list mutations the points do not add up to more. -/
theorem riskScore_le (h : O.riskFlags.hasListMutation = false) : O.riskScore ≤ 282 := by
  have hlist : O.isListMutation = false := h
  have hcross := points_le O.scan.sawCrossThreadRW (n := 30 + O.threadBonus)
    (add_nonneg (by decide) O.threadBonus_nonneg)
  have hbonus := O.threadBonus_le
  have hunprot := points_le O.scan.anyUnprotectedWrite (n := 30) (by decide)
  have hglobal := points_le (O.scan.sawCrossThreadRW && O.named "global:") (n := 15) (by decide)
  have hlone := points_le O.riskFlags.hasReadDominatedLoneWriter (n := 22) (by decide)
  have hatomic := points_le O.riskFlags.hasMissingAtomicAnnotation (n := 18) (by decide)
  simp only [riskFlags] at hlone hatomic
  cases hfree : O.freeOperation with
  | true =>
    -- The boosts for plain races are for objects that nobody frees.
    have hplain : O.plainRWBoost = false := by simp [plainRWBoost, isPlainRWRace, hfree]
    have hpure : O.isPureFieldPlainRW = false := by simp [isPureFieldPlainRW, hfree]
    have hlock := points_le O.scan.isInconsistentLocking (n := 25) (by decide)
    have hmixed := points_le O.mixedAnnotations (n := 28) (by decide)
    have huaf := points_le O.scan.anyUnprotectedWrite (n := 40) (by decide)
    simp only [riskScore, riskFlags, hfree, hplain, hpure, hlist, Bool.true_and, points_true,
      points_false]
    omega
  | false =>
    have hlock := O.locking_add_plain_le
    have hmixed := O.mixed_add_pure_le
    simp only [riskScore, riskFlags, hfree, hlist, Bool.false_and, points_false]
    omega

/-- A list of a global that few threads mutate gets more. -/
theorem le_riskScore (hids : O.IdsOfAccesses) (hlist : O.riskFlags.hasListMutation = true)
    (hglobal : O.named "global:" = true) (hfew : O.threadCount ≤ 4) : 300 ≤ O.riskScore := by
  obtain ⟨a, ha, hmut, hcases⟩ := (isListMutation_iff hids).mp hlist
  have hwrite : a.isWrite = true := ((Bool.and_eq_true _ _).mp hmut).2
  -- Another thread accesses the object in both cases.
  have hother : ∃ b ∈ O.accesses, b.threadId ≠ a.threadId := by
    rcases hcases with ⟨b, hb, -, hne⟩ | ⟨-, hother⟩
    · exact ⟨b, hb, hne⟩
    · exact hother
  have hcross : O.scan.sawCrossThreadRW = true := by
    obtain ⟨b, hb, hne⟩ := hother
    exact sawCrossThreadRW_iff.mpr ⟨a, ha, b, hb, hne.symm, hwrite⟩
  have hfocused : O.focusedList = true := by
    have hmem := mem_listMutatingThreads.mpr ⟨a, ha, hmut, rfl⟩
    simp [focusedList, hfew, (two_le_threadCount_iff hids ha).mpr hother,
      Finset.one_le_card.mpr ⟨_, hmem⟩]
  have hbonus := O.threadBonus_nonneg
  have hfree := points_nonneg O.riskFlags.hasFreeOperation (n := 50) (by decide)
  have hunprot := points_nonneg O.riskFlags.hasUnprotectedWrite (n := 30) (by decide)
  have huaf := points_nonneg (O.riskFlags.hasFreeOperation && O.riskFlags.hasUnprotectedWrite)
    (n := 40) (by decide)
  have hlock := points_nonneg O.riskFlags.hasInconsistentLocking (n := 25) (by decide)
  have hplain := points_nonneg O.plainRWBoost (n := 80) (by decide)
  have hmixed := points_nonneg O.mixedAnnotations (n := 28) (by decide)
  have hpure := points_nonneg O.isPureFieldPlainRW (n := 30) (by decide)
  have hlone := points_nonneg O.riskFlags.hasReadDominatedLoneWriter (n := 22) (by decide)
  have hatomic := points_nonneg O.riskFlags.hasMissingAtomicAnnotation (n := 18) (by decide)
  have hcross' : O.riskFlags.hasCrossThreadRw = true := hcross
  simp only [riskScore, hcross', hlist, hglobal, hfocused, Bool.and_true, points_true]
  omega

/-- A list of a global that few threads mutate outranks every object whose list nobody mutates. -/
theorem riskScore_lt_of_focused {O' : CollectedObject} (hids : O.IdsOfAccesses)
    (hlist : O.riskFlags.hasListMutation = true) (hglobal : O.named "global:" = true)
    (hfew : O.threadCount ≤ 4) (hother : O'.riskFlags.hasListMutation = false) :
    O'.riskScore < O.riskScore := by
  have hle := riskScore_le hother
  have hge := le_riskScore hids hlist hglobal hfew
  omega

end CollectedObject

end Lace
