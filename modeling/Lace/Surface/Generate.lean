import Lace.Library.Precedence
import Lace.Surface.FieldKeyText
import Lace.Surface.FreePropagation
import Lace.Surface.InitPublish
import Lace.Surface.RiskScores

/-!
# The generated surface

`VulnerabilitySurfaceGenerator::generate`, from the raw accesses on: they are grouped under their
keys, the frees of structs are copied to their fields, the groups that several threads access or
that race with themselves become objects, and the objects are rated and sorted. The sort is not
stable, so any order by descending score may come out.

## Main definitions

* `SurfaceInput`: what the generator reads;
* `SurfaceInput.sharedObjects`: the objects that `collectSharedObjects` adds;
* `SurfaceInput.Generates`: the surfaces that `generate` may return;
* `RatedObject.WellFormed`: what the objects of a surface have in common;
* `SurfaceInput.SoundSurface`, `SurfaceInput.CompleteSurface`: what a surface tells about the raw
  accesses.

## Main results

* `Generates.object_of_raw_conflict`, `Generates.object_of_raw_free`: the conflicts that become
  objects;
* `Generates.soundSurface`: what every surface says is true;
* `Generates.completeSurface`: what conflicts is on every surface.
-/

namespace Lace

open Library PhaseB

/-- What `generate` reads. -/
structure SurfaceInput extends ObjectFilter where
  /-- `allAccesses`, after step 1. -/
  rawAccesses : List RawAccess
  /-- `DwarfFieldNameMap::lookup`. -/
  lookup : List Char → ℤ → List Char
  /-- `getThreadRootEntryPoints`. -/
  entryPoints : List String
  /-- `doEntriesHaveSharedData`. -/
  haveSharedData : String → String → Bool

/-- The same access by the second instance of the root. -/
def PhaseB.AccessSite.sibling (rootId : Tid) (a : AccessSite) : AccessSite :=
  { a with toThreadAccess := a.toThreadAccess.sibling rootId }

/-- The second instance of the root of a self-race. -/
def CollectedObject.materializeSibling (O : CollectedObject) (rootId : Tid) : CollectedObject :=
  { O with
    accesses := O.accesses ++
      (O.accesses.filter fun a => a.threadId = rootId).map (AccessSite.sibling rootId)
    accessingThreadIds := O.accessingThreadIds.insert (siblingId rootId)
    isSelfRace := true }

/-- The object with the second instance of its root, if it races with itself. -/
def CollectedObject.withInstance (O : CollectedObject) : Option ThreadId → CollectedObject
  | none => O
  | some root => O.materializeSibling root

/-- The kind of an access. -/
def RawAccess.accessType (a : RawAccess) : AccessType :=
  if a.isFree then .free else if a.isWrite then .write else .read

namespace SurfaceInput

variable (I : SurfaceInput)

/-- The raw accesses in their groups, after step 2b. -/
def table : AccessTable := (groupAccesses I.rawAccesses).propagateFrees

/-- `function_name`: the name of the thread's main function. -/
def functionName (t : ThreadId) : String :=
  if (I.entryName t).isEmpty then "(unknown)" else I.entryName t

/-- The `ThreadAccess` of a raw access. -/
def site (a : RawAccess) : AccessSite where
  threadId := a.thread
  accessType := a.accessType
  nodeId := a.nodeId
  codeSnippet := a.code
  isLockProtected := (I.locks.lockFields a.nodeId).1
  protectingLock := (I.locks.lockFields a.nodeId).2
  functionName := I.functionName a.thread
  containingFunction :=
    if a.containingFunction.isEmpty then I.functionName a.thread else a.containingFunction
  location := a.location

/-- `threadIds`, as `accessing_thread_ids` stores them. -/
def tidSet (accesses : List RawAccess) : TidSet :=
  .ofList (accesses.map fun a => (a.thread : Tid))

/-- The object of a group, without a second instance. -/
def plainCollected (key : SharedFieldKey) (accesses : List RawAccess) : CollectedObject where
  name := String.ofList (annotateFieldName I.lookup key.toText)
  accesses := accesses.map I.site
  accessingThreadIds := tidSet accesses
  isSelfRace := false

/-- The object of a group. -/
def collected (key : SharedFieldKey) (accesses : List RawAccess) : CollectedObject :=
  (I.plainCollected key accesses).withInstance (I.selfRaceRoot key accesses)

/-- The objects that `collectSharedObjects` adds, group by group. -/
def sharedObjects : List CollectedObject :=
  (I.table.groups.filter fun g => I.keepsObject g.key (I.table.accessesOf g)).map fun g =>
    I.collected g.key (I.table.accessesOf g)

/-- `conflicting_pair_count`: how many pairs of entries share data. -/
def conflictingPairCount : ℕ :=
  (orderedPairs I.entryPoints).countP fun p => I.haveSharedData p.1 p.2

/-- The surface that `generate` may return. -/
structure Generates (S : VulnerabilitySurface) : Prop where
  /-- Its objects are the rated ones. -/
  perm : S.sharedObjects.Perm (I.sharedObjects.map CollectedObject.rated)
  /-- `std::sort`: the score descends. -/
  sorted : S.sharedObjects.Pairwise fun a b => b.riskScore ≤ a.riskScore
  /-- `total_thread_count`. -/
  threads : S.totalThreadCount = I.tct.threads.length
  /-- `conflicting_pair_count`. -/
  pairs : S.conflictingPairCount = I.conflictingPairCount

/-- A surface that `generate` may return: objects with one score stay in the order of the groups. -/
def generate : VulnerabilitySurface where
  sharedObjects :=
    (I.sharedObjects.map CollectedObject.rated).insertionSort fun a b => b.riskScore ≤ a.riskScore
  totalThreadCount := I.tct.threads.length
  conflictingPairCount := I.conflictingPairCount

end SurfaceInput

/-- What the objects of a surface have in common. -/
structure PhaseB.RatedObject.WellFormed (o : RatedObject) : Prop where
  /-- The ids are those of the accesses. -/
  ids : ∀ t, t ∈ o.accessingThreadIds.toList ↔ ∃ a ∈ o.accesses, a.threadId = t
  /-- There are two of them. -/
  shared : 2 ≤ o.accessingThreadIds.toList.length
  /-- Two threads access the object, and one of them mutates it. -/
  crossThreadRw : o.hasCrossThreadRw = true ↔
    ∃ a ∈ o.accesses, ∃ b ∈ o.accesses, a.threadId ≠ b.threadId ∧ a.isWrite = true
  /-- Someone frees the object, and someone else accesses it. -/
  freeOperation : o.hasFreeOperation = true ↔
    ∃ a ∈ o.accesses, ∃ b ∈ o.accesses, a.threadId ≠ b.threadId ∧ a.accessType = .free
  /-- Someone mutates the object without a lock. -/
  unprotectedWrite : o.hasUnprotectedWrite = true ↔
    ∃ a ∈ o.accesses, a.isWrite = true ∧ a.isLockProtected = false
  /-- A list helper mutates the object, and another thread does so as well or the code iterates. -/
  listMutation : o.hasListMutation = true ↔
    ∃ a ∈ o.accesses, a.mutatesList = true ∧ ((∃ b ∈ o.accesses, b.mutatesList = true ∧
      b.threadId ≠ a.threadId) ∨ (∃ b ∈ o.accesses, b.iteratesList = true) ∧
        ∃ b ∈ o.accesses, b.threadId ≠ a.threadId)
  /-- An atomic field is written, but never through an atomic API. -/
  missingAtomic : o.hasMissingAtomicAnnotation = true ↔
    (∃ a ∈ o.accesses, mentionsAtomicLikeField a.code = true) ∧
      (∃ a ∈ o.accesses, a.isWrite = true) ∧
        ∀ a ∈ o.accesses, a.isWrite = true → usesAtomicApi a.code = false
  /-- Someone locks the object, and someone else does it never or with another lock. -/
  inconsistentLocking : o.hasInconsistentLocking = true ↔
    ∃ a ∈ o.accesses, a.locked = true ∧ ∃ b ∈ o.accesses,
      b.locked = true ∧ b.protectingLock ≠ a.protectingLock ∨
        ∀ c ∈ o.accesses, c.threadId = b.threadId → c.locked = false
  /-- The annotations are mixed, or a field that threads race on has none, and no indicator says
  more about it. -/
  scalarTorn : o.hasScalarTornAccess = true ↔
    MixedAnnotations o.accesses ∨ PlainField o.name o.accesses ∧ o.hasCrossThreadRw = true ∧
      o.hasListMutation = false ∧ o.hasFreeOperation = false ∧ o.hasInconsistentLocking = false
  /-- At least three accesses read the object, and a single one writes it. -/
  loneWriter : o.hasReadDominatedLoneWriter = true ↔
    2 ≤ o.accessingThreadIds.toList.length ∧ 3 ≤ o.accesses.countP AccessSite.isRead ∧
      o.accesses.countP AccessSite.isWrite = 1
  /-- An object that races with itself is mutated across threads, and without a lock. -/
  selfRace : o.isSelfRace = true → o.hasCrossThreadRw = true ∧ o.hasUnprotectedWrite = true
  /-- It has a second instance of a thread, which makes its accesses. -/
  instances : o.isSelfRace = true → ∃ root : Tid, root ∈ o.accessingThreadIds.toList ∧
    ∀ a ∈ o.accesses, a.threadId = root → a.sibling root ∈ o.accesses

/-- The object is a list of a global that two to four threads access. -/
def PhaseB.RatedObject.FocusedList (o : RatedObject) : Prop :=
  o.hasListMutation = true ∧ "global:".toList.isPrefixOf o.name.toList = true ∧
    o.accessingThreadIds.toList.length ≤ 4

namespace CollectedObject

variable {O : CollectedObject}

/-- The second instance of a thread that accesses the object brings its id along. -/
theorem ids_materializeSibling (h : O.IdsOfAccesses)
    {rootId : Tid} (hroot : rootId ∈ O.accessingThreadIds.toList) :
    (O.materializeSibling rootId).IdsOfAccesses := by
  intro t
  simp only [CollectedObject.materializeSibling, TidSet.mem_insert, List.mem_append, h t]
  constructor
  · rintro (rfl | ⟨a, ha, rfl⟩)
    · obtain ⟨a, ha, hthread⟩ := (h rootId).mp hroot
      exact ⟨a.sibling rootId, Or.inr (List.mem_map_of_mem (by simp [ha, hthread])), rfl⟩
    · exact ⟨a, Or.inl ha, rfl⟩
  · rintro ⟨a, ha | ha, rfl⟩
    · exact Or.inr ⟨a, ha, rfl⟩
    · obtain ⟨b, -, rfl⟩ := List.mem_map.mp ha
      exact Or.inl rfl

/-- What makes a rated object well formed. -/
theorem wellFormed_rated (hids : O.IdsOfAccesses)
    (hcount : 2 ≤ O.threadCount)
    (hrace : O.isSelfRace = true →
      (∃ a ∈ O.accesses, ∃ b ∈ O.accesses, a.threadId ≠ b.threadId ∧ a.isWrite = true) ∧
      (∃ a ∈ O.accesses, a.isWrite = true ∧ a.isLockProtected = false) ∧
      ∃ root : Tid, root ∈ O.accessingThreadIds.toList ∧
        ∀ a ∈ O.accesses, a.threadId = root → a.sibling root ∈ O.accesses) :
    O.rated.WellFormed := by
  have hexact := riskExact hids
  exact
    { ids := hids
      shared := hcount
      crossThreadRw := hexact.crossThreadRw
      freeOperation := hexact.freeOperation
      unprotectedWrite := hexact.unprotectedWrite
      listMutation := hexact.listMutation
      missingAtomic := hexact.missingAtomic
      inconsistentLocking := hexact.inconsistentLocking
      scalarTorn := hexact.scalarTorn
      loneWriter := hexact.loneWriter
      selfRace := fun h =>
        ⟨hexact.crossThreadRw.mpr (hrace h).1, hexact.unprotectedWrite.mpr (hrace h).2.1⟩
      instances := fun h => (hrace h).2.2 }

end CollectedObject

namespace SurfaceInput

variable (I : SurfaceInput)

/-- The access of an object stems from a raw access. -/
structure StemsFrom (o : RatedObject) (x : AccessSite) (a : RawAccess) : Prop where
  /-- It is at the same node. -/
  node : x.nodeId = a.nodeId
  /-- It is of the same kind. -/
  kind : x.accessType = a.accessType
  /-- Its lock fields are those of the node. -/
  locks : (x.isLockProtected, x.protectingLock) = I.locks.lockFields a.nodeId
  /-- It is of the same thread, or of its second instance. -/
  thread : x.threadId = a.thread ∨ o.isSelfRace = true ∧ x.threadId = siblingId a.thread

/-- The raw accesses of a key look like published state, and the suppression is on. -/
structure PublishedKey (key : SharedFieldKey) : Prop where
  /-- Manual entry mode is enabled. -/
  manual : I.manualEntry.isSome = true
  /-- The suppression is enabled. -/
  enabled : I.suppressInitPublish = true
  /-- Only setup roots mutate. -/
  setup : ∀ c ∈ I.rawAccesses, c.key = key → c.mutates = true → I.setupRoot c.thread = true
  /-- A runtime root reads. -/
  read : ∃ c ∈ I.rawAccesses, c.key = key ∧ c.mutates = false ∧ I.runtimeRoot c.thread = true

/-- What a surface says is true of the raw accesses. -/
structure SoundSurface (S : VulnerabilitySurface) : Prop where
  /-- The objects are well formed. -/
  wellFormed : ∀ o ∈ S.sharedObjects, o.WellFormed
  /-- Their accesses stem from raw ones. -/
  traced : ∀ o ∈ S.sharedObjects, ∀ x ∈ o.accesses, ∃ a ∈ I.rawAccesses, I.StemsFrom o x a
  /-- The lists of globals that few threads access come before all objects whose list is not
  mutated. -/
  focused : ∀ (i j : ℕ) (o o' : RatedObject), S.sharedObjects[i]? = some o →
    S.sharedObjects[j]? = some o' → o.FocusedList → o'.hasListMutation = false → i < j

/-- What conflicts among the raw accesses is on the surface. -/
structure CompleteSurface (S : VulnerabilitySurface) : Prop where
  /-- Two conflicting raw accesses of one key meet in an object, unless their key is published. -/
  conflicts : ∀ a ∈ I.rawAccesses, ∀ b ∈ I.rawAccesses, a.key = b.key → a.thread ≠ b.thread →
    a.mutates = true → ¬I.PublishedKey a.key →
      ∃ o ∈ S.sharedObjects, I.site a ∈ o.accesses ∧ I.site b ∈ o.accesses ∧
        o.hasCrossThreadRw = true ∧ (a.isFree = true → o.hasFreeOperation = true)
  /-- The free of a struct meets an access to a field that its thread does not access, unless a
  setup root frees and the key of the field is published. -/
  frees : ∀ f ∈ I.rawAccesses, ∀ b ∈ I.rawAccesses, f.isFree = true →
    f.key.kind = .structField → f.key.fieldOffset = 0 → b.key.kind = .structField →
      b.key.fieldOffset ≠ 0 → f.key.typeName = b.key.typeName →
        (∀ c ∈ I.rawAccesses, c.key = b.key → c.thread ≠ f.thread) →
          (I.setupRoot f.thread = false ∨ ¬I.PublishedKey b.key) →
            ∃ o ∈ S.sharedObjects, I.site (f.synthetic b.key) ∈ o.accesses ∧
              I.site b ∈ o.accesses ∧ o.hasCrossThreadRw = true ∧ o.hasFreeOperation = true

variable {I} {S : VulnerabilitySurface} {key : SharedFieldKey}
  {accesses : List RawAccess}

/-- The surface that is computed is one that the relation allows. -/
theorem generates_generate : I.Generates I.generate where
  perm := List.perm_insertionSort _ _
  sorted := by
    have : Std.Total fun a b : RatedObject => b.riskScore ≤ a.riskScore :=
      ⟨fun a b => le_total b.riskScore a.riskScore⟩
    have : IsTrans RatedObject fun a b => b.riskScore ≤ a.riskScore :=
      ⟨fun a b c hab hbc => hbc.trans hab⟩
    exact List.pairwise_insertionSort _ _
  threads := rfl
  pairs := rfl

/-! ### The objects -/

/-- The threads of an object are those of its accesses. -/
@[simp]
theorem mem_tidSet {t : Tid} :
    t ∈ (tidSet accesses).toList ↔ ∃ a ∈ accesses, (a.thread : Tid) = t := by
  simp [tidSet]

/-- A site is a write exactly if its access changes the field. -/
theorem site_isWrite {a : RawAccess} : (I.site a).isWrite = a.mutates := by
  have htype : (I.site a).accessType = a.accessType := rfl
  rw [AccessSite.isWrite, htype, RawAccess.accessType, RawAccess.mutates]
  split_ifs with hfree hwrite <;> simp [*]

/-- A site is a free exactly if its access is one. -/
theorem site_free {a : RawAccess} : (I.site a).accessType = .free ↔ a.isFree = true := by
  have htype : (I.site a).accessType = a.accessType := rfl
  rw [htype, RawAccess.accessType]
  split_ifs with hfree hwrite <;> simp [*]

/-- The node of an unprotected access is not protected, or there is none. -/
theorem site_isLockProtected {a : RawAccess} : (I.site a).isLockProtected =
    (I.locks.ccpg.getNodeByID a.nodeId).any I.locks.isNodeLockProtected := by
  simp only [site, LockSurface.lockFields]
  cases hnode : I.locks.ccpg.getNodeByID a.nodeId with
  | none => simp
  | some n =>
    obtain ⟨-, rfl⟩ := (CCPG.getNodeByID_eq_some _).mp hnode
    cases hprot : I.locks.isNodeLockProtected a.nodeId <;> simp [hprot]

/-- The thread ids of a collected object come from its accesses. -/
theorem ids_plainCollected : (I.plainCollected key accesses).IdsOfAccesses := by
  intro t
  simp [plainCollected, site]

/-- A self-race has an unsynchronized mutation, its root accesses the object, and a mutation meets
an access of another instance or thread. -/
theorem selfRaceRoot_spec {root : ThreadId} (h : I.selfRaceRoot key accesses = some root) :
    I.unsyncMutation accesses = true ∧ (∃ a ∈ accesses, a.mutates = true) ∧
      ∃ a ∈ accesses, a.thread = root := by
  rw [ObjectFilter.selfRaceRoot] at h
  dsimp only at h
  split_ifs at h with hguard hone hmode hmanual
  · simp only [Bool.and_eq_true, decide_eq_true_eq] at hguard
    obtain ⟨⟨⟨⟨-, hmut⟩, hunsync⟩, -⟩, -⟩ := hguard
    obtain ⟨hhead, -⟩ := Option.filter_eq_some_iff.mp h
    obtain ⟨a, ha, hthread⟩ := Option.map_eq_some_iff.mp hhead
    exact ⟨hunsync, List.any_eq_true.mp hmut, a, List.mem_of_mem_head? ha, hthread⟩
  · simp only [Bool.and_eq_true, decide_eq_true_eq] at hguard
    obtain ⟨⟨⟨⟨-, hmut⟩, hunsync⟩, -⟩, -⟩ := hguard
    obtain ⟨a, ha, hthread⟩ := Option.map_eq_some_iff.mp h
    exact ⟨hunsync, List.any_eq_true.mp hmut, a,
      (List.mem_filter.mp (List.mem_of_mem_head? ha)).1, hthread⟩

/-- The accesses of an object are those of its group and those of the second instance. -/
theorem mem_accesses_collected {x : AccessSite} : x ∈ (I.collected key accesses).accesses ↔
    (∃ a ∈ accesses, I.site a = x) ∨ ∃ root, I.selfRaceRoot key accesses = some root ∧
      ∃ a ∈ accesses, a.thread = root ∧ (I.site a).sibling root = x := by
  rw [collected]
  cases I.selfRaceRoot key accesses with
  | none => simp [CollectedObject.withInstance, plainCollected]
  | some root =>
    have hthread : ∀ a : RawAccess, (I.site a).threadId = (root : Tid) ↔ a.thread = root := by
      intro a
      exact Nat.cast_inj
    simp only [CollectedObject.withInstance, CollectedObject.materializeSibling, plainCollected,
      List.mem_append, List.mem_map, List.mem_filter, decide_eq_true_eq, Option.some.injEq,
      exists_eq_left']
    refine or_congr_right ⟨?_, ?_⟩
    · rintro ⟨_, ⟨⟨a, ha, rfl⟩, hroot⟩, rfl⟩
      exact ⟨a, ha, (hthread a).mp hroot, rfl⟩
    · rintro ⟨a, ha, hroot, rfl⟩
      exact ⟨_, ⟨⟨a, ha, rfl⟩, (hthread a).mpr hroot⟩, rfl⟩

/-- Every access of a group is shown at the object. -/
theorem site_mem_collected {a : RawAccess} (ha : a ∈ accesses) :
    I.site a ∈ (I.collected key accesses).accesses :=
  mem_accesses_collected.mpr (Or.inl ⟨a, ha, rfl⟩)

/-- An object is a self race exactly if a root for it was found. -/
theorem isSelfRace_collected : (I.collected key accesses).isSelfRace = true ↔
    ∃ root, I.selfRaceRoot key accesses = some root := by
  rw [collected]
  cases I.selfRaceRoot key accesses <;>
    simp [CollectedObject.withInstance, plainCollected, CollectedObject.materializeSibling]

/-- The thread ids of an object come from its accesses, a self race included. -/
theorem idsOfAccesses_collected : (I.collected key accesses).IdsOfAccesses := by
  rw [collected]
  cases hroot : I.selfRaceRoot key accesses with
  | none => exact ids_plainCollected
  | some root =>
    obtain ⟨-, -, a, ha, hthread⟩ := selfRaceRoot_spec hroot
    refine CollectedObject.ids_materializeSibling ids_plainCollected ?_
    simp only [plainCollected, mem_tidSet]
    exact ⟨a, ha, by rw [hthread]⟩

/-- The second instance of a thread is not the thread. -/
theorem siblingId_ne (t : Tid) : siblingId t ≠ t := by
  simp [siblingId]

/-- An object that races with itself is mutated, and accessed by another instance or thread. -/
theorem conflict_of_selfRaceRoot {root : ThreadId} (h : I.selfRaceRoot key accesses = some root) :
    ∃ a ∈ (I.collected key accesses).accesses, ∃ b ∈ (I.collected key accesses).accesses,
      a.threadId ≠ b.threadId ∧ a.isWrite = true := by
  obtain ⟨-, ⟨a, ha, hmut⟩, r, hr, hthread⟩ := selfRaceRoot_spec h
  refine ⟨I.site a, site_mem_collected ha, ?_⟩
  by_cases hroot : a.thread = root
  · -- The root itself mutates; its second instance makes the same access.
    refine ⟨(I.site a).sibling root, ?_, ?_, by rw [site_isWrite, hmut]⟩
    · exact mem_accesses_collected.mpr (Or.inr ⟨root, h, a, ha, hroot, rfl⟩)
    · change (a.thread : Tid) ≠ siblingId root
      rw [hroot]
      exact (siblingId_ne _).symm
  · refine ⟨I.site r, site_mem_collected hr, ?_, by rw [site_isWrite, hmut]⟩
    change (a.thread : Tid) ≠ r.thread
    rw [hthread]
    exact fun heq => hroot (Nat.cast_inj.mp heq)

/-- Two threads, or two instances of one, access an object. -/
theorem two_le_threadCount (h : I.keepsObject key accesses = true) :
    2 ≤ (I.collected key accesses).threadCount := by
  obtain ⟨a, ha, b, hb, hne⟩ : ∃ a ∈ (I.collected key accesses).accesses,
      ∃ b ∈ (I.collected key accesses).accesses, b.threadId ≠ a.threadId := by
    rw [ObjectFilter.keepsObject, Bool.and_eq_true, Bool.or_eq_true, decide_eq_true_eq,
      Option.isSome_iff_exists] at h
    obtain ⟨-, hcount | ⟨root, hroot⟩⟩ := h
    · -- Two threads of the group.
      have hpos : (accesses.map RawAccess.thread).dedup ≠ [] := by
        rintro heq
        rw [ObjectFilter.threadIds, heq] at hcount
        exact absurd hcount (by decide)
      obtain ⟨t, ht⟩ := List.exists_mem_of_ne_nil _ hpos
      obtain ⟨a, ha, rfl⟩ := List.mem_map.mp (List.mem_dedup.mp ht)
      obtain ⟨b, hb, hne⟩ := ObjectFilter.exists_other_thread hcount a.thread
      refine ⟨_, site_mem_collected ha, _, site_mem_collected hb, fun heq => hne ?_⟩
      exact Nat.cast_inj.mp heq
    · obtain ⟨a, ha, b, hb, hne, -⟩ := conflict_of_selfRaceRoot hroot
      exact ⟨a, ha, b, hb, hne.symm⟩
  exact (CollectedObject.two_le_threadCount_iff idsOfAccesses_collected ha).mpr ⟨b, hb, hne⟩

/-- An object that races with itself has an unprotected mutation. -/
theorem unprotected_of_selfRaceRoot {root : ThreadId}
    (h : I.selfRaceRoot key accesses = some root) :
    ∃ a ∈ (I.collected key accesses).accesses, a.isWrite = true ∧ a.isLockProtected = false := by
  obtain ⟨a, ha, hmut⟩ := List.any_eq_true.mp (selfRaceRoot_spec h).1
  simp only [Bool.and_eq_true, Bool.not_eq_true'] at hmut
  refine ⟨I.site a, site_mem_collected ha, ?_, ?_⟩
  · rw [site_isWrite, hmut.1]
  · rw [site_isLockProtected, hmut.2]

/-- The second instance makes the accesses of the root. -/
theorem instances_of_selfRaceRoot {root : ThreadId} (h : I.selfRaceRoot key accesses = some root) :
    (root : Tid) ∈ (I.collected key accesses).accessingThreadIds.toList ∧
      ∀ a ∈ (I.collected key accesses).accesses, a.threadId = root →
        a.sibling root ∈ (I.collected key accesses).accesses := by
  obtain ⟨-, -, r, hr, hthread⟩ := selfRaceRoot_spec h
  refine ⟨(idsOfAccesses_collected root).mpr ⟨I.site r, site_mem_collected hr, ?_⟩, ?_⟩
  · change (r.thread : Tid) = root
    rw [hthread]
  · intro a ha hroota
    rcases mem_accesses_collected.mp ha with ⟨b, hb, rfl⟩ | ⟨root', hroot', b, -, -, rfl⟩
    · exact mem_accesses_collected.mpr (Or.inr ⟨root, h, b, hb, Nat.cast_inj.mp hroota, rfl⟩)
    · -- The second instance is another thread than the root.
      obtain rfl : root = root' := Option.some.inj (h.symm.trans hroot')
      exact absurd hroota (siblingId_ne _)

/-- The rated object of a group that is kept is well formed. -/
theorem wellFormed_rated (h : I.keepsObject key accesses = true) :
    (I.collected key accesses).rated.WellFormed := by
  refine CollectedObject.wellFormed_rated idsOfAccesses_collected (two_le_threadCount h) ?_
  intro hrace
  obtain ⟨root, hroot⟩ := isSelfRace_collected.mp hrace
  exact ⟨conflict_of_selfRaceRoot hroot, unprotected_of_selfRaceRoot hroot, root,
    instances_of_selfRaceRoot hroot⟩

/-! ### The surface -/

/-- The shared objects are the kept groups, collected. -/
theorem mem_sharedObjects_iff {O : CollectedObject} : O ∈ I.sharedObjects ↔
    ∃ g ∈ I.table.groups, I.keepsObject g.key (I.table.accessesOf g) = true ∧
      I.collected g.key (I.table.accessesOf g) = O := by
  simp [sharedObjects, and_assoc]

/-- Every surface that is allowed has the same objects. -/
theorem Generates.mem_iff (hS : I.Generates S) {o : RatedObject} : o ∈ S.sharedObjects ↔
    ∃ g ∈ I.table.groups, I.keepsObject g.key (I.table.accessesOf g) = true ∧
      (I.collected g.key (I.table.accessesOf g)).rated = o := by
  rw [hS.perm.mem_iff, List.mem_map]
  simp only [mem_sharedObjects_iff]
  constructor
  · rintro ⟨_, ⟨g, hg, hkeep, rfl⟩, rfl⟩
    exact ⟨g, hg, hkeep, rfl⟩
  · rintro ⟨g, hg, hkeep, rfl⟩
    exact ⟨_, ⟨g, hg, hkeep, rfl⟩, rfl⟩

/-- The objects of every surface are well formed. -/
theorem Generates.wellFormed (hS : I.Generates S) : ∀ o ∈ S.sharedObjects, o.WellFormed := by
  intro o ho
  obtain ⟨g, -, hkeep, rfl⟩ := hS.mem_iff.mp ho
  exact wellFormed_rated hkeep

/-! ### The raw accesses on the surface -/

/-- The accesses of a group are those with its key. -/
theorem mem_accessesOf_groupAccesses {g : AccessGroup}
    (hg : g ∈ (groupAccesses I.rawAccesses).groups) {a : RawAccess} :
    a ∈ (groupAccesses I.rawAccesses).accessesOf g ↔ a ∈ I.rawAccesses ∧ a.key = g.key := by
  have hall : (groupAccesses I.rawAccesses).allAccesses = I.rawAccesses := rfl
  rw [AccessTable.accessesOf, mem_accessesAt, hall]
  constructor
  · rintro ⟨i, hi, hget⟩
    obtain ⟨a', hget', hkey⟩ := (mem_accessIndices_groupAccesses hg).mp hi
    obtain rfl : a' = a := Option.some.inj (hget'.symm.trans hget)
    exact ⟨List.mem_of_getElem? hget, hkey⟩
  · rintro ⟨ha, hkey⟩
    obtain ⟨i, hget⟩ := List.mem_iff_getElem?.mp ha
    exact ⟨i, (mem_accessIndices_groupAccesses hg).mpr ⟨a, hget, hkey⟩, hget⟩

/-- A group has the raw accesses with its key and the copies of frees. -/
theorem mem_accessesOf_table {g : AccessGroup} (hg : g ∈ I.table.groups) :
    ∃ g₀ ∈ (groupAccesses I.rawAccesses).groups, g₀.key = g.key ∧ ∀ a,
      a ∈ I.table.accessesOf g ↔ a ∈ I.rawAccesses ∧ a.key = g.key ∨
        a ∈ (groupAccesses I.rawAccesses).linked g₀ := by
  obtain ⟨gi, hgi⟩ := List.mem_iff_getElem?.mp hg
  have hext := AccessTable.groups_propagateFrees (T := groupAccesses I.rawAccesses) gi
  rw [table] at hgi
  obtain ⟨g₀, hg₀, heq⟩ := Option.map_eq_some_iff.mp (hext.symm.trans hgi)
  have hkey : g₀.key = g.key := by
    rw [← heq]
    rfl
  obtain ⟨g', hg', hacc⟩ := AccessTable.accessesOf_propagateFrees hg₀
  obtain rfl : g' = g := Option.some.inj (hg'.symm.trans hgi)
  have hmem := List.mem_of_getElem? hg₀
  refine ⟨g₀, hmem, hkey, fun a => ?_⟩
  rw [table, hacc, List.mem_append, mem_accessesOf_groupAccesses hmem, hkey]

/-- Every raw access has a group. -/
theorem exists_group {a : RawAccess} (ha : a ∈ I.rawAccesses) :
    ∃ g ∈ I.table.groups, g.key = a.key := by
  obtain ⟨g₀, hg₀, hkey⟩ := key_mem_groupAccesses ha
  obtain ⟨gi, hgi⟩ := List.mem_iff_getElem?.mp hg₀
  obtain ⟨g', hg', -⟩ := AccessTable.accessesOf_propagateFrees hgi
  have hext := AccessTable.groups_propagateFrees (T := groupAccesses I.rawAccesses) gi
  rw [hg', hgi] at hext
  refine ⟨g', List.mem_of_getElem? hg', ?_⟩
  rw [Option.some.inj hext, ← hkey]
  rfl

/-- What is copied is the free of a raw access. -/
theorem exists_raw_of_mem_linked {g : AccessGroup} {x : RawAccess}
    (h : x ∈ (groupAccesses I.rawAccesses).linked g) :
    ∃ f ∈ I.rawAccesses, f.isFree = true ∧ x = f.synthetic g.key := by
  obtain ⟨p, hp, -, f, hf, hfree, rfl⟩ := AccessTable.exists_free_of_mem_linked h
  exact ⟨f, ((mem_accessesOf_groupAccesses hp).mp hf).1, hfree, rfl⟩

/-- Every access on a surface stems from a raw access. -/
theorem Generates.traced (hS : I.Generates S) : ∀ o ∈ S.sharedObjects, ∀ x ∈ o.accesses,
    ∃ a ∈ I.rawAccesses, I.StemsFrom o x a := by
  intro o ho x hx
  obtain ⟨g, hg, -, rfl⟩ := hS.mem_iff.mp ho
  obtain ⟨g₀, -, -, hmem⟩ := mem_accessesOf_table hg
  -- A copy has the node, the kind and the thread of its free.
  have hraw : ∀ a ∈ I.table.accessesOf g, ∃ r ∈ I.rawAccesses,
      r.nodeId = a.nodeId ∧ r.accessType = a.accessType ∧ r.thread = a.thread := by
    intro a ha
    rcases (hmem a).mp ha with ⟨hraw, -⟩ | hlinked
    · exact ⟨a, hraw, rfl, rfl, rfl⟩
    · obtain ⟨f, hf, -, rfl⟩ := exists_raw_of_mem_linked hlinked
      exact ⟨f, hf, rfl, rfl, rfl⟩
  rcases mem_accesses_collected.mp hx with ⟨a, ha, rfl⟩ | ⟨root, hroot, a, ha, rfl, rfl⟩
  · obtain ⟨r, hr, hnode, hkind, hthread⟩ := hraw a ha
    refine ⟨r, hr, hnode.symm, hkind.symm, ?_, Or.inl ?_⟩
    · rw [hnode]
      rfl
    · rw [hthread]
      rfl
  · obtain ⟨r, hr, hnode, hkind, hthread⟩ := hraw a ha
    refine ⟨r, hr, hnode.symm, hkind.symm, ?_, Or.inr ⟨?_, ?_⟩⟩
    · rw [hnode]
      rfl
    · exact isSelfRace_collected.mpr ⟨_, hroot⟩
    · rw [hthread]
      rfl

/-- A group that the suppression drops has a published key, and also the frees that are copied into
it are made by setup roots. -/
theorem publishedKey_of_initPublish {g : AccessGroup} (hg : g ∈ I.table.groups)
    (h : I.initPublish g.key (I.table.accessesOf g) = true) : I.PublishedKey g.key ∧
      ∀ c ∈ I.table.accessesOf g, c.mutates = true → I.setupRoot c.thread = true := by
  obtain ⟨hasked, hlooks⟩ := ObjectFilter.initPublish_iff.mp h
  obtain ⟨g₀, -, -, hmem⟩ := mem_accessesOf_table hg
  simp only [ObjectFilter.initPublishAsked, Bool.and_eq_true] at hasked
  refine ⟨⟨hasked.1.2, hasked.2, ?_, ?_⟩, hlooks.setup⟩
  · exact fun c hc hkey hmut => hlooks.setup c ((hmem c).mpr (Or.inl ⟨hc, hkey⟩)) hmut
  · obtain ⟨c, hc, hread, hrun⟩ := hlooks.read
    rcases (hmem c).mp hc with ⟨hraw, hkey⟩ | hlinked
    · exact ⟨c, hraw, hkey, hread, hrun⟩
    · -- A copy is a free.
      obtain ⟨f, -, hfree, rfl⟩ := exists_raw_of_mem_linked hlinked
      have hmut : (f.synthetic g₀.key).mutates = true := by
        simp [RawAccess.mutates, RawAccess.synthetic, hfree]
      rw [hmut] at hread
      cases hread

/-- Accesses of different threads give two thread ids. -/
theorem two_le_threadIds {a b : RawAccess} (ha : a ∈ accesses) (hb : b ∈ accesses)
    (hne : a.thread ≠ b.thread) : 2 ≤ (ObjectFilter.threadIds accesses).length := by
  have hsub : [a.thread, b.thread] ⊆ ObjectFilter.threadIds accesses := by
    intro t ht
    rw [ObjectFilter.threadIds, List.mem_dedup]
    rcases List.mem_pair.mp ht with rfl | rfl
    · exact List.mem_map_of_mem ha
    · exact List.mem_map_of_mem hb
  exact ((List.nodup_cons.mpr ⟨by simpa using hne, by simp⟩).subperm hsub).length_le

/-- Two accesses of a group, of different threads and one of them a mutation, meet in an object,
unless the suppression drops the group. -/
theorem Generates.object_of_conflict (hS : I.Generates S) {g : AccessGroup}
    (hg : g ∈ I.table.groups) {a b : RawAccess} (ha : a ∈ I.table.accessesOf g)
    (hb : b ∈ I.table.accessesOf g) (hne : a.thread ≠ b.thread) (hmut : a.mutates = true)
    (hpublish : I.initPublish g.key (I.table.accessesOf g) = false) :
    ∃ o ∈ S.sharedObjects, I.site a ∈ o.accesses ∧ I.site b ∈ o.accesses ∧
      o.hasCrossThreadRw = true ∧ (a.isFree = true → o.hasFreeOperation = true) := by
  have hkeep : I.keepsObject g.key (I.table.accessesOf g) = true := by
    simp [ObjectFilter.keepsObject, hpublish, two_le_threadIds ha hb hne]
  have hsa : I.site a ∈ (I.collected g.key (I.table.accessesOf g)).accesses :=
    site_mem_collected ha
  have hsb : I.site b ∈ (I.collected g.key (I.table.accessesOf g)).accesses :=
    site_mem_collected hb
  have hthreads : (I.site a).threadId ≠ (I.site b).threadId := fun heq => hne (Nat.cast_inj.mp heq)
  have hwell := wellFormed_rated hkeep
  refine ⟨_, hS.mem_iff.mpr ⟨g, hg, hkeep, rfl⟩, hsa, hsb, ?_, fun hfree => ?_⟩
  · exact hwell.crossThreadRw.mpr ⟨_, hsa, _, hsb, hthreads, by rw [site_isWrite, hmut]⟩
  · exact hwell.freeOperation.mpr ⟨_, hsa, _, hsb, hthreads, site_free.mpr hfree⟩

/-- Two conflicting raw accesses of one key meet in an object, unless their key is published. -/
theorem Generates.object_of_raw_conflict (hS : I.Generates S) {a b : RawAccess}
    (ha : a ∈ I.rawAccesses) (hb : b ∈ I.rawAccesses) (hkey : a.key = b.key)
    (hne : a.thread ≠ b.thread) (hmut : a.mutates = true) (hlive : ¬I.PublishedKey a.key) :
    ∃ o ∈ S.sharedObjects, I.site a ∈ o.accesses ∧ I.site b ∈ o.accesses ∧
      o.hasCrossThreadRw = true ∧ (a.isFree = true → o.hasFreeOperation = true) := by
  obtain ⟨g, hg, hgkey⟩ := exists_group ha
  obtain ⟨g₀, -, -, hmem⟩ := mem_accessesOf_table hg
  refine hS.object_of_conflict hg ((hmem a).mpr (Or.inl ⟨ha, hgkey.symm⟩))
    ((hmem b).mpr (Or.inl ⟨hb, by rw [hgkey, hkey]⟩)) hne hmut ?_
  rw [Bool.eq_false_iff]
  intro hpublish
  exact hlive (hgkey ▸ (publishedKey_of_initPublish hg hpublish).1)

/-- The free of a struct meets the accesses to a field that its thread does not access, unless a
setup root frees and the key of the field is published. -/
theorem Generates.object_of_raw_free (hS : I.Generates S) {f b : RawAccess}
    (hf : f ∈ I.rawAccesses) (hfree : f.isFree = true) (hstruct : f.key.kind = .structField)
    (hoffset : f.key.fieldOffset = 0) (hb : b ∈ I.rawAccesses) (hkind : b.key.kind = .structField)
    (hfield : b.key.fieldOffset ≠ 0) (htype : f.key.typeName = b.key.typeName)
    (hapart : ∀ c ∈ I.rawAccesses, c.key = b.key → c.thread ≠ f.thread)
    (hlive : I.setupRoot f.thread = false ∨ ¬I.PublishedKey b.key) :
    ∃ o ∈ S.sharedObjects, I.site (f.synthetic b.key) ∈ o.accesses ∧ I.site b ∈ o.accesses ∧
      o.hasCrossThreadRw = true ∧ o.hasFreeOperation = true := by
  obtain ⟨g, hg, hgkey⟩ := exists_group hb
  obtain ⟨g₀, hg₀, hg₀key, hmem⟩ := mem_accessesOf_table hg
  obtain ⟨p, hp, hpkey⟩ := key_mem_groupAccesses hf
  -- The free is copied, since its thread is not among those of the field.
  have hlinked : f.synthetic b.key ∈ (groupAccesses I.rawAccesses).linked g₀ := by
    have hkeys : g₀.key = b.key := hg₀key.trans hgkey
    have hcopy := (AccessTable.synthetic_mem_linked_iff (T := groupAccesses I.rawAccesses) (g := g₀)
      ⟨by rw [hkeys, hkind], by rwa [hkeys]⟩ hp
      ⟨by rw [hpkey, hstruct], by rw [hpkey, hoffset], by rw [hpkey, hkeys, htype]⟩
      ((mem_accessesOf_groupAccesses hp).mpr ⟨hf, hpkey.symm⟩) hfree).mpr ?_
    · rwa [hkeys] at hcopy
    · intro hthread
      obtain ⟨c, hc, heq⟩ := List.mem_map.mp hthread
      obtain ⟨hraw, hckey⟩ := (mem_accessesOf_groupAccesses hg₀).mp hc
      exact hapart c hraw (hckey.trans hkeys) heq
  have hcopied := (hmem _).mpr (Or.inr hlinked)
  have hmut : (f.synthetic b.key).mutates = true := by
    simp [RawAccess.mutates, RawAccess.synthetic, hfree]
  have hne : (f.synthetic b.key).thread ≠ b.thread := (hapart b hb rfl).symm
  have hpublish : I.initPublish g.key (I.table.accessesOf g) = false := by
    rw [Bool.eq_false_iff]
    intro hpublish
    obtain ⟨hkey, hsetup⟩ := publishedKey_of_initPublish hg hpublish
    rcases hlive with hnot | hnot
    · exact absurd (hsetup _ hcopied hmut) (Bool.eq_false_iff.mp hnot)
    · exact hnot (hgkey ▸ hkey)
  obtain ⟨o, ho, hsf, hsb, hcross, hfreed⟩ := hS.object_of_conflict hg hcopied
    ((hmem b).mpr (Or.inl ⟨hb, hgkey.symm⟩)) hne hmut hpublish
  exact ⟨o, ho, hsf, hsb, hcross, hfreed hfree⟩

/-- The lists of globals that few threads access stand before all objects without a mutated list. -/
theorem Generates.focused_first (hS : I.Generates S) {i j : ℕ} {o o' : RatedObject}
    (hi : S.sharedObjects[i]? = some o) (hj : S.sharedObjects[j]? = some o')
    (hfocused : o.FocusedList) (hother : o'.hasListMutation = false) : i < j := by
  obtain ⟨g, -, -, rfl⟩ := hS.mem_iff.mp (List.mem_of_getElem? hi)
  obtain ⟨g', -, -, rfl⟩ := hS.mem_iff.mp (List.mem_of_getElem? hj)
  have hlt := CollectedObject.riskScore_lt_of_focused idsOfAccesses_collected hfocused.1
    hfocused.2.1 hfocused.2.2 hother
  by_contra hle
  rcases (not_lt.mp hle).lt_or_eq with hji | rfl
  · obtain ⟨hjlen, hj'⟩ := List.getElem?_eq_some_iff.mp hj
    obtain ⟨hilen, hi'⟩ := List.getElem?_eq_some_iff.mp hi
    have hsorted := List.pairwise_iff_getElem.mp hS.sorted j i hjlen hilen hji
    rw [hi', hj'] at hsorted
    exact absurd hsorted (not_le.mpr hlt)
  · rw [hj] at hi
    rw [Option.some.inj hi] at hother
    exact absurd (hfocused.1.symm.trans hother) (by decide)

/-- What every surface says is true. -/
theorem Generates.soundSurface (hS : I.Generates S) : I.SoundSurface S where
  wellFormed := hS.wellFormed
  traced := hS.traced
  focused _ _ _ _ hi hj hfocused hother := hS.focused_first hi hj hfocused hother

/-- Every conflict among the raw accesses is on the surface, but for published state. -/
theorem Generates.completeSurface (hS : I.Generates S) : I.CompleteSurface S where
  conflicts _ ha _ hb hkey hne hmut hlive := hS.object_of_raw_conflict ha hb hkey hne hmut hlive
  frees _ hf _ hb hfree hstruct hoffset hkind hfield htype hapart hlive :=
    hS.object_of_raw_free hf hfree hstruct hoffset hb hkind hfield htype hapart hlive

/-! ### A device that is freed -/

/-- The key of a struct of the device, at an offset. -/
def deviceKey (offset : ℤ) : SharedFieldKey := ⟨.structField, "struct.dev", offset⟩

/-- The list of all devices. -/
def deviceList : SharedFieldKey := ⟨.global, "dev_list", 0⟩

/-- The probe function frees the device and puts it on the list; the handler reads its status and
takes it off the list. -/
def freedDevice : SurfaceInput :=
  { ObjectFilter.probeWithWorker with
    manualEntry := none
    rawAccesses :=
      [ { ptr := 1, isWrite := false, isFree := true, thread := 0, location := "dev.c:10",
          code := "kfree(dev)", nodeId := 1, key := deviceKey 0,
          containingFunction := "dev_probe" },
        { ptr := 2, isWrite := false, isFree := false, thread := 2, location := "dev.c:30",
          code := "dev->status", nodeId := 3, key := deviceKey 16,
          containingFunction := "dev_ioctl" },
        { ptr := 3, isWrite := true, isFree := false, thread := 0, location := "dev.c:11",
          code := "[list-helper] list_add", nodeId := 1, key := deviceList,
          containingFunction := "dev_probe" },
        { ptr := 3, isWrite := true, isFree := false, thread := 2, location := "dev.c:31",
          code := "[list-helper] list_del", nodeId := 3, key := deviceList,
          containingFunction := "dev_ioctl" } ]
    lookup := fun _ _ => []
    entryPoints := ["dev_probe", "dev_ioctl"]
    haveSharedData := fun _ _ => true }

/-- The list comes first; the status gets the free of its struct. -/
theorem freedDevice_sound :
    freedDevice.generate.sharedObjects.map (fun o => (o.name, o.hasFreeOperation)) =
        [("global:dev_list", false), ("field:struct.dev+16", true)] ∧
      freedDevice.SoundSurface freedDevice.generate :=
  ⟨by decide +kernel, generates_generate.soundSurface⟩

/-- The free of the device meets the access to its status. -/
theorem freedDevice_complete :
    ∃ o ∈ freedDevice.generate.sharedObjects,
      freedDevice.site (freedDevice.rawAccesses[0].synthetic (deviceKey 16)) ∈ o.accesses ∧
        freedDevice.site freedDevice.rawAccesses[1] ∈ o.accesses ∧
          o.hasCrossThreadRw = true ∧ o.hasFreeOperation = true :=
  generates_generate.completeSurface.frees freedDevice.rawAccesses[0] (by decide)
    freedDevice.rawAccesses[1] (by decide) rfl rfl rfl rfl (by decide) rfl (by decide)
    (Or.inr fun h => absurd h.manual (by decide))

end SurfaceInput

end Lace
