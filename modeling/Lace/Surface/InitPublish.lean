import Lace.Surface.AccessGroups
import Lace.Surface.ProtectingLock

/-!
# The suppression of published state

Step 3 of `collectSharedObjects` drops an object that is written by setup entries and read by a
runtime entry, since the device is published only after its setup. The test folds over all accesses:
whether something is written, whether each write is in a setup root, and whether some runtime root
reads. It does not ask whether the writes are in one root, nor who else reads.

## Main definitions

* `ObjectFilter`: what the step reads besides the accesses of a group;
* `ObjectFilter.selfRaceRoot`: the root of a self-race;
* `ObjectFilter.initPublish`: the suppression;
* `ObjectFilter.Sound`: what the suppression promises;
* `ObjectFilter.PublishedOnce`: one thread writes, and every other one is a runtime root.

## Main results

* `ObjectFilter.publishedOnce_of_pairs`, `ObjectFilter.sound_iff`: when the suppression keeps its
  promise.
-/

namespace Lace

open Library

/-- The access is a write or a free. -/
def RawAccess.mutates (a : RawAccess) : Bool := a.isWrite || a.isFree

/-- What the step reads besides the accesses of a group. -/
structure ObjectFilter where
  /-- The thread creation tree. -/
  tct : ThreadCreationTree
  /-- The locks at the nodes. -/
  locks : LockSurface
  /-- `manualentry::matches` when manual entry mode is enabled. -/
  manualEntry : Option (String → Bool)
  /-- `LACE_SELF_RACE`. -/
  selfRaceDeclared : Bool
  /-- The leaf GEP of an address has an integer of at most 64 bits as its result type. -/
  intScalarField : ValueId → Bool
  /-- `LACE_SUPPRESS_INIT_PUBLISH` is not `0`. -/
  suppressInitPublish : Bool

namespace ObjectFilter

/-- The lambda `endsWith`. -/
def endsWith (n s : String) : Bool := s.toList.isSuffixOf n.toList

/-- `isRunOnceEntry`: the endings of entries that run once, when the module comes or goes. -/
def isRunOnceEntry (n : String) : Bool :=
  ["_init", "_exit", "_probe", "_remove", "_shutdown", "_ctor", "_dtor"].any (endsWith n)

/-- `isSetupEntry`: the entries that publish; those of a teardown are not among them. -/
def isSetupEntry (n : String) : Bool := ["_init", "_probe", "_setup", "_ctor"].any (endsWith n)

variable (F : ObjectFilter) (key : SharedFieldKey) (accesses : List RawAccess)

/-- `entryName`: the name of the thread's main function. -/
def entryName (t : ThreadId) : String := (F.tct.thread t).entryName

/-- The thread has no parent. -/
def topLevel (t : ThreadId) : Bool := (F.tct.parent t).isNone

/-- `threadIds`: the threads of a group of accesses. -/
def threadIds : List ThreadId := (accesses.map RawAccess.thread).dedup

/-! ### Self-races -/

/-- `onceGuard`: the flags of `WARN_ONCE` and its kin. -/
def onceGuard : Bool :=
  ["__warned", "__already_done", "__print_once", "___once_key"].any fun pat =>
    (findStr key.typeName pat).isSome

/-- `unsyncMutation`: some mutation is not protected by a lock. -/
def unsyncMutation : Bool :=
  accesses.any fun a => a.mutates &&
    !((F.locks.ccpg.getNodeByID a.nodeId).any F.locks.isNodeLockProtected)

/-- `hasListHelper`: some access goes through a list helper. -/
def hasListHelper : Bool :=
  accesses.any fun a => ["[list-helper]", "list_add", "list_del"].any fun pat =>
    (findStr a.code pat).isSome

/-- `selfRaceFeature`: a counter that is read and written, an object that is freed, or a list. -/
def selfRaceFeature : Bool :=
  (accesses.any fun a => F.intScalarField a.ptr) && (accesses.any fun a => !a.mutates) &&
      accesses.any RawAccess.mutates ||
    accesses.any RawAccess.isFree || hasListHelper accesses

/-- `manualentry::selfRaceDeclared`: the user declared that the entry races with itself. -/
def manualSelfRace : Bool := F.manualEntry.isSome && F.selfRaceDeclared

/-- `qualifies`: the thread can race with itself. -/
def qualifies (t : ThreadId) : Bool :=
  F.topLevel t && !(F.entryName t).isEmpty &&
    match F.manualEntry with
    | some manual => manual (F.entryName t) &&
        !(isRunOnceEntry (F.entryName t) && !F.manualSelfRace)
    | none => !isRunOnceEntry (F.entryName t)

/-- `selfRaceRootTid`, if there is a self-race. -/
def selfRaceRoot : Option ThreadId :=
  if !onceGuard key && accesses.any RawAccess.mutates && F.unsyncMutation accesses &&
      F.selfRaceFeature accesses && 2 ≤ accesses.length then
    if (threadIds accesses).length = 1 then
      if F.manualSelfRace || F.manualEntry.isNone && key.kind = .global then
        (accesses.head?.map RawAccess.thread).filter F.qualifies
      else none
    else if F.manualSelfRace then
      -- Exactly one configured root is among the accessors, and it writes.
      let roots := accesses.filter fun a => F.qualifies a.thread
      if (roots.map fun a => F.entryName a.thread).dedup.length = 1 &&
          roots.any RawAccess.mutates then
        roots.head?.map RawAccess.thread
      else none
    else none
  else none

/-! ### The suppression -/

/-- `setupRoot`: a top-level thread whose entry publishes. -/
def setupRoot (t : ThreadId) : Bool := F.topLevel t && isSetupEntry (F.entryName t)

/-- A top-level thread whose entry does not publish. -/
def runtimeRoot (t : ThreadId) : Bool := F.topLevel t && !isSetupEntry (F.entryName t)

/-- `anyWrite`, `allWritesSetupRoot` and `topLevelRuntimeReader`. -/
structure PublishFlags where
  /-- `anyWrite`. -/
  anyWrite : Bool := false
  /-- `allWritesSetupRoot`. -/
  allWritesSetupRoot : Bool := true
  /-- `topLevelRuntimeReader`. -/
  topLevelRuntimeReader : Bool := false
  deriving DecidableEq, Repr

/-- One turn of the loop over the accesses. -/
def publishTurn (flags : PublishFlags) (a : RawAccess) : PublishFlags :=
  if a.mutates then
    { flags with
      anyWrite := true
      allWritesSetupRoot := flags.allWritesSetupRoot && F.setupRoot a.thread }
  -- A reader that is no runtime root changes nothing.
  else if F.runtimeRoot a.thread then { flags with topLevelRuntimeReader := true }
  else flags

/-- The flags after the loop. -/
def publishFlags : PublishFlags := accesses.foldl F.publishTurn {}

/-- The suppression is asked for this group. -/
def initPublishAsked : Bool :=
  (F.selfRaceRoot key accesses).isNone && 2 ≤ (threadIds accesses).length &&
    F.manualEntry.isSome && F.suppressInitPublish

/-- The suppression drops the object. -/
def initPublish : Bool :=
  F.initPublishAsked key accesses &&
    let flags := F.publishFlags accesses
    flags.anyWrite && flags.allWritesSetupRoot && flags.topLevelRuntimeReader

/-- The object is added to the surface. -/
def keepsObject : Bool :=
  !F.initPublish key accesses &&
    (2 ≤ (threadIds accesses).length || (F.selfRaceRoot key accesses).isSome)

/-! ### What the suppression promises -/

/-- What the suppression promises about a group. -/
structure Sound : Prop where
  /-- A dropped object has one setup root such that every two accesses of different threads, one of
  which mutates, are a mutation in this root and an access in a runtime root. -/
  pairs : F.initPublish key accesses = true → ∃ root, F.setupRoot root = true ∧
    ∀ a ∈ accesses, ∀ b ∈ accesses, a.thread ≠ b.thread → a.mutates = true →
      a.thread = root ∧ F.runtimeRoot b.thread = true
  /-- An object that a child of a setup root reads is not dropped. -/
  children : (∃ a ∈ accesses, a.mutates = false ∧ ∃ root, F.setupRoot root = true ∧
    Forest.Below F.tct.parent a.thread root) → F.initPublish key accesses = false
  /-- An object that two setup roots write is not dropped. -/
  writers : (∃ a ∈ accesses, ∃ b ∈ accesses, a.thread ≠ b.thread ∧ a.mutates = true ∧
    b.mutates = true ∧ F.setupRoot a.thread = true ∧ F.setupRoot b.thread = true) →
      F.initPublish key accesses = false

/-- One thread makes all mutations, and every other thread is a runtime root. -/
def PublishedOnce : Prop :=
  ∃ root, (∀ a ∈ accesses, a.mutates = true → a.thread = root) ∧
    ∀ b ∈ accesses, b.thread ≠ root → F.runtimeRoot b.thread = true

/-- The group looks like published state: something is written, by setup roots only, and a runtime
root reads. -/
structure LooksPublished : Prop where
  /-- Something is written. -/
  written : ∃ a ∈ accesses, a.mutates = true
  /-- Each write is in a setup root. -/
  setup : ∀ a ∈ accesses, a.mutates = true → F.setupRoot a.thread = true
  /-- Some runtime root reads. -/
  read : ∃ a ∈ accesses, a.mutates = false ∧ F.runtimeRoot a.thread = true

variable {F key accesses}

/-- What the loop has found after the first accesses. -/
theorem foldl_publishTurn (flags : PublishFlags) :
    accesses.foldl F.publishTurn flags =
      { anyWrite := flags.anyWrite || accesses.any RawAccess.mutates
        allWritesSetupRoot := flags.allWritesSetupRoot &&
          accesses.all fun a => !a.mutates || F.setupRoot a.thread
        topLevelRuntimeReader := flags.topLevelRuntimeReader ||
          accesses.any fun a => !a.mutates && F.runtimeRoot a.thread } := by
  -- The flags of the rest do not depend on those of the first access.
  induction accesses generalizing flags with
  | nil => simp
  | cons a rest ih =>
    rw [List.foldl_cons, ih, publishTurn]
    cases hmut : a.mutates with
    | true => simp [hmut, Bool.and_assoc]
    | false => cases hrun : F.runtimeRoot a.thread <;> simp [hmut, hrun]

/-- The three flags are set exactly for what looks like published state. -/
theorem initPublish_iff : F.initPublish key accesses = true ↔
    F.initPublishAsked key accesses = true ∧ F.LooksPublished accesses := by
  rw [initPublish, publishFlags, foldl_publishTurn]
  simp only [Bool.and_eq_true, Bool.false_or, Bool.true_and, List.any_eq_true, List.all_eq_true,
    Bool.or_eq_true, Bool.not_eq_true']
  refine and_congr_right fun _ => ⟨?_, ?_⟩
  · rintro ⟨⟨hwritten, hsetup⟩, hread⟩
    refine ⟨hwritten, fun a ha hmut => ?_, hread⟩
    exact (hsetup a ha).resolve_left (by simp [hmut])
  · rintro ⟨hwritten, hsetup, hread⟩
    refine ⟨⟨hwritten, fun a ha => ?_⟩, hread⟩
    cases hmut : a.mutates with
    | false => exact Or.inl rfl
    | true => exact Or.inr (hsetup a ha hmut)

/-- Beside every thread of a group with two threads there is another one. -/
theorem exists_other_thread (h : 2 ≤ (threadIds accesses).length) (t : ThreadId) :
    ∃ b ∈ accesses, b.thread ≠ t := by
  -- Otherwise `t` is the only thread.
  by_contra hnone
  push Not at hnone
  have hsub : threadIds accesses ⊆ [t] := by
    intro u hu
    obtain ⟨b, hb, rfl⟩ := List.mem_map.mp (List.mem_dedup.mp hu)
    exact List.mem_singleton.mpr (hnone b hb)
  have hle : (threadIds accesses).length ≤ [t].length :=
    ((List.nodup_dedup _).subperm hsub).length_le
  exact absurd (h.trans hle) (by simp)

theorem not_runtimeRoot_of_setupRoot {t : ThreadId} (h : F.setupRoot t = true) :
    F.runtimeRoot t = false := by
  rw [setupRoot, Bool.and_eq_true] at h
  simp [runtimeRoot, h.2]

/-- Where the promise about the pairs is kept, published state is published once. -/
theorem publishedOnce_of_pairs {root : ThreadId} (h : F.initPublish key accesses = true)
    (hpairs : ∀ a ∈ accesses, ∀ b ∈ accesses, a.thread ≠ b.thread → a.mutates = true →
      a.thread = root ∧ F.runtimeRoot b.thread = true) : F.PublishedOnce accesses := by
  obtain ⟨hasked, hlooks⟩ := initPublish_iff.mp h
  have htwo : 2 ≤ (threadIds accesses).length := by
    simp only [initPublishAsked, Bool.and_eq_true, decide_eq_true_eq] at hasked
    exact hasked.1.1.2
  -- Every mutation makes a pair with an access of another thread.
  have hroot : ∀ a ∈ accesses, a.mutates = true → a.thread = root := by
    intro a ha hmut
    obtain ⟨b, hb, hne⟩ := exists_other_thread htwo a.thread
    exact (hpairs a ha b hb hne.symm hmut).1
  -- An access of another thread makes a pair with the mutation of the root.
  refine ⟨root, hroot, fun b hb hne => ?_⟩
  obtain ⟨w, hw, hmut⟩ := hlooks.written
  refine (hpairs w hw b hb ?_ hmut).2
  rw [hroot w hw hmut]
  exact hne.symm

/-- State that is published once is dropped for a reason. -/
theorem PublishedOnce.sound (honce : F.initPublish key accesses = true → F.PublishedOnce accesses) :
    F.Sound key accesses := by
  have hpairs : F.initPublish key accesses = true → ∃ root, F.setupRoot root = true ∧
      ∀ a ∈ accesses, ∀ b ∈ accesses, a.thread ≠ b.thread → a.mutates = true →
        a.thread = root ∧ F.runtimeRoot b.thread = true := by
    intro hdrop
    obtain ⟨root, hroot, hothers⟩ := honce hdrop
    -- The root is a setup root because some setup root writes.
    obtain ⟨w, hw, hmut⟩ := (initPublish_iff.mp hdrop).2.written
    refine ⟨root, hroot w hw hmut ▸ (initPublish_iff.mp hdrop).2.setup w hw hmut, ?_⟩
    intro a ha b hb hne hmuta
    have harootr := hroot a ha hmuta
    exact ⟨harootr, hothers b hb fun h => hne (harootr.trans h.symm)⟩
  refine ⟨hpairs, ?_, ?_⟩
  · -- The child is no root, so a mutation beside its read makes a forbidden pair.
    rintro ⟨a, ha, -, s, -, hbelow⟩
    rw [Bool.eq_false_iff]
    intro hdrop
    obtain ⟨root, hsetup, hall⟩ := hpairs hdrop
    obtain ⟨w, hw, hmut⟩ := (initPublish_iff.mp hdrop).2.written
    have hchild : F.topLevel a.thread = false := by
      obtain ⟨p, hp, -⟩ := Forest.below_iff.mp hbelow
      simp [topLevel, hp]
    have hwsetup := (initPublish_iff.mp hdrop).2.setup w hw hmut
    -- The mutation is in a top-level thread, the read is not.
    have hne : w.thread ≠ a.thread := by
      intro heq
      rw [setupRoot, heq, hchild] at hwsetup
      cases hwsetup
    have hrun := (hall w hw a ha hne hmut).2
    rw [runtimeRoot, hchild] at hrun
    cases hrun
  · rintro ⟨a, ha, b, hb, hne, hmuta, -, -, hsetupb⟩
    rw [Bool.eq_false_iff]
    intro hdrop
    obtain ⟨root, -, hall⟩ := hpairs hdrop
    -- One of the two writers would be a runtime root.
    have hrun := (hall a ha b hb hne hmuta).2
    rw [not_runtimeRoot_of_setupRoot hsetupb] at hrun
    cases hrun

/-- The suppression keeps its promise about a group exactly if, where the suppression is asked for
and the group looks like published state, one thread makes all mutations and every other thread is
a runtime root. -/
theorem sound_iff (F : ObjectFilter) (key : SharedFieldKey) (accesses : List RawAccess) :
    F.Sound key accesses ↔
      (F.initPublishAsked key accesses = true → F.LooksPublished accesses →
        F.PublishedOnce accesses) := by
  constructor
  · intro h hasked hlooks
    have hdrop := initPublish_iff.mpr ⟨hasked, hlooks⟩
    obtain ⟨root, -, hpairs⟩ := h.pairs hdrop
    exact publishedOnce_of_pairs hdrop hpairs
  · intro h
    refine PublishedOnce.sound fun hdrop => ?_
    obtain ⟨hasked, hlooks⟩ := initPublish_iff.mp hdrop
    exact h hasked hlooks

/-! ### A reader that a setup root has created -/

/-- A probe function, a worker that it creates, and the handler of a file operation. -/
def probeWithWorker : ObjectFilter where
  tct :=
    { ccpg := .ofNodes [1, 2, 3] (fun _ => .assignment) fun _ => false
      threads := [0, 1, 2]
      thread := fun t =>
        { parent := if t = 1 then some 0 else none
          forkNode := if t = 1 then 1 else if t = 0 then 10 else 30
          joinNode := none
          nodes := []
          isKernelEntry := true
          isReentrant := false
          entryName := if t = 0 then "dev_probe" else if t = 1 then "dev_work" else "dev_ioctl" }
      parent_lt := by
        intro t p hp
        obtain ⟨rfl, rfl⟩ : t = 1 ∧ 0 = p := by simpa using hp
        exact Nat.one_pos
      forkNode_inj := by
        intro t u ht hu _
        have ht1 : t = 1 := by simpa using ht
        have hu1 : u = 1 := by simpa using hu
        rw [ht1, hu1]
      isKernelEntry_of_ne := fun _ _ _ _ _ => rfl }
  locks := LockSurface.twoNodes (fun _ => "") (fun _ => []) fun _ => []
  manualEntry := some fun _ => true
  selfRaceDeclared := false
  intScalarField _ := true
  suppressInitPublish := true

/-- The field that the three threads share. -/
def statusField : SharedFieldKey := ⟨.structField, "struct.dev", 16⟩

/-- The probe function writes the field; its worker and the handler read it. -/
def probeAccesses : List RawAccess :=
  [ { ptr := 1, isWrite := true, isFree := false, thread := 0, location := "dev.c:10",
      code := "d->status = 1", nodeId := 1, key := statusField, containingFunction := "dev_probe" },
    { ptr := 2, isWrite := false, isFree := false, thread := 1, location := "dev.c:20",
      code := "use(d->status)", nodeId := 2, key := statusField, containingFunction := "dev_work" },
    { ptr := 3, isWrite := false, isFree := false, thread := 2, location := "dev.c:30",
      code := "use(d->status)", nodeId := 3, key := statusField,
      containingFunction := "dev_ioctl" } ]

/-- The field is dropped although the worker runs beside the probe function. -/
theorem probeWithWorker_not_sound :
    probeWithWorker.initPublish statusField probeAccesses = true ∧
      ¬probeWithWorker.Sound statusField probeAccesses := by
  have hdrop : probeWithWorker.initPublish statusField probeAccesses = true := by decide +kernel
  refine ⟨hdrop, fun h => ?_⟩
  have hkept := h.children ⟨probeAccesses[1], by decide, rfl, 0, by decide +kernel,
    Forest.below_iff.mpr ⟨0, rfl, Forest.Under.refl 0⟩⟩
  rw [hdrop] at hkept
  cases hkept

end ObjectFilter

end Lace
