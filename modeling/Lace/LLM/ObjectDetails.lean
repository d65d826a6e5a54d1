import Mathlib.Data.List.Sigma
import Lace.PhaseB.Clause
import Lace.Library.StagedFill

/-!
# The details of an object

What the tool `get_object_details` of the detector shows of a shared object: pairs of accesses that
may race, and a selection of its accesses.

## Main definitions

* `ObjectAccess`, `ObjectDetails`: an object with its accesses;
* `ObjectDetails.cands`: the racy pairs before they are ranked;
* `selectedRep`: the accesses that are shown;
* `SelectsWell`: what is promised for them.

## Main results

* `ObjectDetails.mem_cands_iff`: which pairs are candidates;
* `ObjectDetails.lists_iff`: pairs with an unlocked access are, and other pairs are not;
* `selectsWell_iff`: when no access is shown twice.
-/

namespace Lace.LLM

open Library

/-- `query::ThreadAccess`, with its type as text. -/
structure ObjectAccess where
  /-- `thread_id`. -/
  threadId : Tid
  /-- `function_name`. -/
  functionName : String
  /-- `containing_function`, empty if it is not known. -/
  containingFunction : String
  /-- `access_type`. -/
  accessType : String
  /-- `node_id`, negative for a synthetic access. -/
  nodeId : NodeId
  /-- `code_snippet`. -/
  codeSnippet : String
  /-- `location`. -/
  location : String
  /-- `is_lock_protected`. -/
  isLockProtected : Bool
  /-- `protecting_lock`. -/
  protectingLock : String
  deriving DecidableEq, Repr

namespace ObjectAccess

variable (a : ObjectAccess)

/-- `isWriteLike`. -/
def isWriteLike : Bool :=
  a.accessType = "Write" || a.accessType = "WRITE" || a.accessType = "Free" ||
    a.accessType = "FREE" || a.accessType = "RMW"

/-- `w_fn` and `r_fn`: the function that contains the access, or else that of its thread. -/
def leafFunction : String :=
  if a.containingFunction.isEmpty then a.functionName else a.containingFunction

end ObjectAccess

/-! ### Racy pairs -/

/-- `query::SharedObject`: the fields that the gate of the racy pairs reads, and the accesses. -/
structure ObjectDetails where
  /-- `accesses`. -/
  accesses : List ObjectAccess
  /-- `has_list_mutation`. -/
  hasListMutation : Bool
  /-- `has_unprotected_write`. -/
  hasUnprotectedWrite : Bool
  /-- `has_inconsistent_locking`: different locks, or no lock in some threads. -/
  hasInconsistentLocking : Bool
  /-- `has_scalar_torn_access`. -/
  hasScalarTornAccess : Bool
  /-- `has_read_dominated_lone_writer`. -/
  hasReadDominatedLoneWriter : Bool
  /-- `has_cross_thread_rw`. -/
  hasCrossThreadRw : Bool
  deriving DecidableEq, Repr

/-- `Cand`: a pair of accesses that may race. -/
structure Cand where
  /-- `writer_node`. -/
  writerNode : NodeId
  /-- `reader_node`. -/
  readerNode : NodeId
  /-- `writer_thread`. -/
  writerThread : Tid
  /-- `reader_thread`. -/
  readerThread : Tid
  /-- `writer_fn`. -/
  writerFn : String
  /-- `reader_fn`. -/
  readerFn : String
  /-- `writer_code`. -/
  writerCode : String
  /-- `reader_code`. -/
  readerCode : String
  /-- `writer_loc`. -/
  writerLoc : String
  /-- `reader_loc`. -/
  readerLoc : String
  /-- `writer_unprot`. -/
  writerUnprot : Bool
  /-- `reader_unprot`. -/
  readerUnprot : Bool
  /-- `score`. -/
  score : ℕ
  deriving DecidableEq, Repr

/-- `receiverName`: the identifier in front of the first arrow. -/
def receiverName (code : String) : String :=
  match findStr code "->" with
  | none => ""
  | some arrow =>
    String.ofList ((code.toList.take arrow).reverse.takeWhile fun ch =>
      ch.isAlphanum || ch = '_').reverse

/-- `wOnce` and `rOnce`. -/
def mentionsOnce (code : String) : Bool :=
  PhaseB.has (PhaseB.lower code) "write_once" || PhaseB.has (PhaseB.lower code) "read_once"

/-- The score that the locks give: two for an unlocked writer and one for an unlocked reader. -/
def lockScore (w r : ObjectAccess) : ℕ :=
  (if w.isLockProtected then 0 else 2) + if r.isLockProtected then 0 else 1

/-- `score`: how much a write and another access look like a race. -/
def raceScore (w r : ObjectAccess) : ℕ :=
  lockScore w r +
    (if mentionsOnce w.codeSnippet ≠ mentionsOnce r.codeSnippet then 4 else 0) +
    (if receiverName w.codeSnippet ≠ "" ∧
      receiverName w.codeSnippet = receiverName r.codeSnippet then 3 else 0) +
    if mentionsOnce r.codeSnippet then 0 else 1

/-- The candidate that is appended for a pair. -/
def Cand.ofPair (w r : ObjectAccess) : Cand where
  writerNode := w.nodeId
  readerNode := r.nodeId
  writerThread := w.threadId
  readerThread := r.threadId
  writerFn := w.leafFunction
  readerFn := r.leafFunction
  writerCode := w.codeSnippet
  readerCode := r.codeSnippet
  writerLoc := w.location
  readerLoc := r.location
  writerUnprot := !w.isLockProtected
  readerUnprot := !r.isLockProtected
  score := raceScore w r

namespace ObjectDetails

variable (obj : ObjectDetails)

/-- The gate of the racy pairs. -/
def passesGate : Bool :=
  !obj.hasListMutation &&
    (obj.hasUnprotectedWrite || obj.hasInconsistentLocking || obj.hasScalarTornAccess ||
      obj.hasReadDominatedLoneWriter) &&
    obj.hasCrossThreadRw

/-- The body of the inner loop. An access is not paired with itself, since it has its own thread. -/
def candOf (w r : ObjectAccess) : Option Cand :=
  if r.nodeId < 0 then none
  else if r.threadId = w.threadId then none
  else if r.isWriteLike && r.nodeId ≤ w.nodeId then none
  else if lockScore w r = 0 then none
  else some (Cand.ofPair w r)

/-- `cands`: the candidates before they are ranked. -/
def cands : List Cand :=
  if obj.passesGate then
    obj.accesses.flatMap fun w =>
      if !w.isWriteLike then []
      else if w.nodeId < 0 then []
      else obj.accesses.filterMap (candOf w)
  else []

variable {obj} {w r : ObjectAccess} {c : Cand}

theorem lockScore_eq_zero_iff :
    lockScore w r = 0 ↔ w.isLockProtected = true ∧ r.isLockProtected = true := by
  rw [lockScore]
  cases w.isLockProtected <;> cases r.isLockProtected <;> simp

/-- Which pair the inner loop appends. -/
theorem candOf_eq_some_iff : candOf w r = some c ↔
    0 ≤ r.nodeId ∧ r.threadId ≠ w.threadId ∧ (r.isWriteLike = true → w.nodeId < r.nodeId) ∧
      ¬(w.isLockProtected = true ∧ r.isLockProtected = true) ∧ Cand.ofPair w r = c := by
  simp only [candOf, Option.ite_none_left_eq_some, Option.some.injEq, lockScore_eq_zero_iff,
    Bool.and_eq_true, decide_eq_true_eq, not_and, not_lt, not_le, ne_eq]

/-- The candidates are the pairs in which a write and an access of another thread, which is a read
or at a node with a larger number, are not both locked. -/
theorem mem_cands_iff : c ∈ obj.cands ↔ obj.passesGate = true ∧
    ∃ w ∈ obj.accesses, ∃ r ∈ obj.accesses, w.isWriteLike = true ∧ 0 ≤ w.nodeId ∧ 0 ≤ r.nodeId ∧
      r.threadId ≠ w.threadId ∧ (r.isWriteLike = true → w.nodeId < r.nodeId) ∧
        ¬(w.isLockProtected = true ∧ r.isLockProtected = true) ∧ Cand.ofPair w r = c := by
  rw [cands]
  split_ifs with hgate
  · rw [List.mem_flatMap, and_iff_right hgate]
    refine exists_congr fun w => and_congr_right fun hw => ?_
    -- The outer loop passes over accesses that are no writes, and over synthetic ones.
    split_ifs with hwrite hnode
    · refine iff_of_false List.not_mem_nil ?_
      rintro ⟨r, -, hwrite', -⟩
      rw [hwrite'] at hwrite
      exact Bool.noConfusion hwrite
    · refine iff_of_false List.not_mem_nil ?_
      rintro ⟨r, -, -, hnode', -⟩
      exact absurd hnode' (not_le.mpr hnode)
    · simp only [List.mem_filterMap, candOf_eq_some_iff]
      have hwrite' : w.isWriteLike = true := by simpa using hwrite
      simp only [hwrite', not_lt.mp hnode, true_and]
  · simp [hgate]

variable (obj w r)

/-- A write of the object and an access of another thread, at two valid nodes. -/
structure RacePair : Prop where
  /-- The object has the write. -/
  mem_left : w ∈ obj.accesses
  /-- It has the other access. -/
  mem_right : r ∈ obj.accesses
  /-- The one is a write, or like one. -/
  isWriteLike : w.isWriteLike = true
  /-- It has a node. -/
  node_left : 0 ≤ w.nodeId
  /-- So has the other one. -/
  node_right : 0 ≤ r.nodeId
  /-- The nodes are two. -/
  node_ne : w.nodeId ≠ r.nodeId
  /-- The threads are two. -/
  thread_ne : w.threadId ≠ r.threadId

/-- The candidates contain the pair in one of its orientations. -/
def Lists : Prop := Cand.ofPair w r ∈ obj.cands ∨ Cand.ofPair r w ∈ obj.cands

/-- One lock protects both accesses. -/
def SameLock : Prop :=
  w.isLockProtected = true ∧ r.isLockProtected = true ∧ w.protectingLock = r.protectingLock

instance : Decidable (obj.Lists w r) := inferInstanceAs (Decidable (_ ∨ _))

instance : Decidable (SameLock w r) := inferInstanceAs (Decidable (_ ∧ _))

variable {obj w r}

/-- A candidate is made of a pair that is not locked on both sides. -/
theorem not_locked_of_mem_cands (h : Cand.ofPair w r ∈ obj.cands) :
    ¬(w.isLockProtected = true ∧ r.isLockProtected = true) := by
  obtain ⟨-, w', -, r', -, -, -, -, -, -, hlock, heq⟩ := mem_cands_iff.mp h
  -- The candidate records of both accesses whether they are locked.
  have hw : (!w'.isLockProtected) = !w.isLockProtected := congrArg Cand.writerUnprot heq
  have hr : (!r'.isLockProtected) = !r.isLockProtected := congrArg Cand.readerUnprot heq
  rwa [Bool.not_inj_iff.mp hw, Bool.not_inj_iff.mp hr] at hlock

/-- For every object that passes the gate, a write and an access of another thread at two valid
nodes are a candidate, in one of the two orders, exactly if they are not locked on both sides. -/
theorem lists_iff (obj : ObjectDetails) (hgate : obj.passesGate = true) (w r : ObjectAccess)
    (h : obj.RacePair w r) :
    obj.Lists w r ↔ ¬(w.isLockProtected = true ∧ r.isLockProtected = true) := by
  constructor
  · rintro (hmem | hmem)
    · exact not_locked_of_mem_cands hmem
    · exact fun hlock => not_locked_of_mem_cands hmem hlock.symm
  · intro hlock
    -- Of two writes, the one at the smaller node is the writer of the candidate.
    by_cases horder : r.isWriteLike = true → w.nodeId < r.nodeId
    · exact Or.inl (mem_cands_iff.mpr ⟨hgate, w, h.mem_left, r, h.mem_right, h.isWriteLike,
        h.node_left, h.node_right, h.thread_ne.symm, horder, hlock, rfl⟩)
    · obtain ⟨hrwrite, hle⟩ := Classical.not_imp.mp horder
      have hlt : r.nodeId < w.nodeId := lt_of_le_of_ne (not_lt.mp hle) h.node_ne.symm
      exact Or.inr (mem_cands_iff.mpr ⟨hgate, r, h.mem_right, w, h.mem_left, hrwrite,
        h.node_right, h.node_left, h.thread_ne, fun _ => hlt, fun hl => hlock hl.symm, rfl⟩)

/-- A flag that one thread writes under lock `a` and another reads under lock `b`; a third one reads
it without a lock. -/
def inconsistentFlag : ObjectDetails where
  accesses :=
    [⟨1, "drv_ioctl", "set_flag", "Write", 10, "dev->flag = 1", "drv.c:10", true, "a"⟩,
      ⟨2, "drv_irq", "get_flag", "Read", 20, "x = dev->flag", "drv.c:20", true, "b"⟩,
      ⟨3, "drv_poll", "", "Read", 30, "x = READ_ONCE(dev->flag)", "drv.c:30", false, ""⟩]
  hasListMutation := false
  hasUnprotectedWrite := false
  hasInconsistentLocking := true
  hasScalarTornAccess := false
  hasReadDominatedLoneWriter := false
  hasCrossThreadRw := true

/-- The read without a lock is a candidate with the write. -/
theorem inconsistentFlag_lists :
    inconsistentFlag.Lists
      ⟨1, "drv_ioctl", "set_flag", "Write", 10, "dev->flag = 1", "drv.c:10", true, "a"⟩
      ⟨3, "drv_poll", "", "Read", 30, "x = READ_ONCE(dev->flag)", "drv.c:30", false, ""⟩ :=
  (lists_iff inconsistentFlag (by decide) _ _
    { mem_left := by decide
      mem_right := by decide
      isWriteLike := by decide
      node_left := by decide
      node_right := by decide
      node_ne := by decide
      thread_ne := by decide }).mpr (by decide)

/-- The read under the other lock is not. -/
theorem inconsistentFlag_not_lists : ∃ w r, inconsistentFlag.passesGate = true ∧
    inconsistentFlag.RacePair w r ∧ ¬SameLock w r ∧ ¬inconsistentFlag.Lists w r := by
  refine ⟨⟨1, "drv_ioctl", "set_flag", "Write", 10, "dev->flag = 1", "drv.c:10", true, "a"⟩,
    ⟨2, "drv_irq", "get_flag", "Read", 20, "x = dev->flag", "drv.c:20", true, "b"⟩, by decide,
    { mem_left := by decide
      mem_right := by decide
      isWriteLike := by decide
      node_left := by decide
      node_right := by decide
      node_ne := by decide
      thread_ne := by decide }, by decide, by decide +kernel⟩

end ObjectDetails

/-! ### The accesses that are shown -/

/-- `kMaxAccessesPerObject`. -/
def kMaxAccessesPerObject : ℕ := 40

/-- The key under which accesses have one representative. -/
def repKey (a : ObjectAccess) : String × String × String :=
  (a.functionName, a.leafFunction, a.accessType)

/-- `reps`: the first access with each key. -/
def reps (accesses : List ObjectAccess) : List ObjectAccess :=
  leaders (fun a b => repKey a = repKey b) accesses

/-- A representative with its index in `reps`. -/
abbrev NumberedRep := ObjectAccess × ℕ

/-- `k`: the thread and the type of a representative. -/
def bucket (x : NumberedRep) : Tid × String := (x.1.threadId, x.1.accessType)

/-- The first representative of each thread and type. -/
def firstOfBuckets (accesses : List ObjectAccess) : List NumberedRep :=
  leaders (fun x y => bucket x = bucket y) (reps accesses).zipIdx

/-- `already`: what the first loop chooses. -/
def already (accesses : List ObjectAccess) : List NumberedRep :=
  (firstOfBuckets accesses).take kMaxAccessesPerObject

/-- What the last two loops do not skip. -/
def notAlready (accesses : List ObjectAccess) : List NumberedRep :=
  (reps accesses).zipIdx.filter fun x => x ∉ already accesses

/-- `selectedRep`: the first representatives of the threads and types, then those at real nodes, and
then any. The last two loops both skip what the first one has chosen. -/
def selectedRep (accesses : List ObjectAccess) : List NumberedRep :=
  if (reps accesses).length ≤ kMaxAccessesPerObject then (reps accesses).zipIdx
  else
    let real := (notAlready accesses).filter fun x => 0 ≤ x.1.nodeId
    -- What the second loop adds is not put into `already`.
    fill kMaxAccessesPerObject (fill kMaxAccessesPerObject (already accesses) real)
      (notAlready accesses)

/-- What is promised for the accesses that are shown. -/
structure SelectsWell (accesses : List ObjectAccess) : Prop where
  /-- As many are shown as the cap allows. -/
  length : (selectedRep accesses).length = min kMaxAccessesPerObject (reps accesses).length
  /-- They are representatives. -/
  mem : ∀ x ∈ selectedRep accesses, x ∈ (reps accesses).zipIdx
  /-- None is shown twice. -/
  nodup : (selectedRep accesses).Nodup
  /-- Every thread and type is shown, if the cap allows it. -/
  buckets : ((reps accesses).zipIdx.map bucket).toFinset.card ≤ kMaxAccessesPerObject →
    ∀ x ∈ (reps accesses).zipIdx, ∃ y ∈ selectedRep accesses, bucket y = bucket x

/-- The representatives that are not the first of their thread and type. -/
def laterOfBuckets (accesses : List ObjectAccess) : List NumberedRep :=
  (reps accesses).zipIdx.filter fun x => x ∉ firstOfBuckets accesses

/-- Those of them at real nodes. -/
def realLater (accesses : List ObjectAccess) : List NumberedRep :=
  (laterOfBuckets accesses).filter fun x => 0 ≤ x.1.nodeId

theorem nodup_zipIdx {α : Type*} (l : List α) : l.zipIdx.Nodup :=
  List.Nodup.of_map Prod.snd (List.nodup_zipIdx_map_snd l)

variable {accesses : List ObjectAccess}

theorem length_already_le (accesses : List ObjectAccess) :
    (already accesses).length ≤ kMaxAccessesPerObject := by
  rw [already, List.length_take]
  exact min_le_left _ _

theorem nodup_already (accesses : List ObjectAccess) : (already accesses).Nodup :=
  (nodup_leaders (nodup_zipIdx (reps accesses))).sublist (List.take_sublist _ _)

theorem mem_of_mem_already {x : NumberedRep} (h : x ∈ already accesses) :
    x ∈ (reps accesses).zipIdx := mem_of_mem_leaders (List.mem_of_mem_take h)

theorem mem_notAlready_iff {x : NumberedRep} :
    x ∈ notAlready accesses ↔ x ∈ (reps accesses).zipIdx ∧ x ∉ already accesses := by
  rw [notAlready, List.mem_filter, decide_eq_true_eq]

theorem length_notAlready (accesses : List ObjectAccess) :
    (already accesses).length + (notAlready accesses).length = (reps accesses).length := by
  rw [← List.length_zipIdx (l := reps accesses) (i := 0)]
  exact length_add_length_filter (nodup_zipIdx _) (nodup_already accesses)
    (fun x hx => mem_of_mem_already hx) fun x => decide_eq_true_iff

/-- With more representatives than the cap, the cap is reached. -/
theorem length_selectedRep (accesses : List ObjectAccess) :
    (selectedRep accesses).length = min kMaxAccessesPerObject (reps accesses).length := by
  rw [selectedRep]
  split_ifs with hfew
  · rw [List.length_zipIdx, min_eq_right hfew]
  · have hchosen := length_already_le accesses
    have hsplit := length_notAlready accesses
    rw [length_fill, length_fill hchosen]
    · omega
    · rw [length_fill hchosen]
      exact min_le_left _ _

theorem mem_of_mem_selectedRep {x : NumberedRep} (h : x ∈ selectedRep accesses) :
    x ∈ (reps accesses).zipIdx := by
  rw [selectedRep] at h
  split_ifs at h
  · exact h
  · rcases mem_or_mem_of_mem_fill h with h | h
    · rcases mem_or_mem_of_mem_fill h with h | h
      · exact mem_of_mem_already h
      · exact (mem_notAlready_iff.mp (List.mem_of_mem_filter h)).1
    · exact (mem_notAlready_iff.mp h).1

/-- Every thread and type is shown, if the cap allows it. -/
theorem exists_mem_selectedRep
    (hcard : ((reps accesses).zipIdx.map bucket).toFinset.card ≤ kMaxAccessesPerObject)
    {x : NumberedRep} (hx : x ∈ (reps accesses).zipIdx) :
    ∃ y ∈ selectedRep accesses, bucket y = bucket x := by
  rw [selectedRep]
  split_ifs with hfew
  · exact ⟨x, hx, rfl⟩
  · -- The first loop is not cut off, so it chooses the first of every thread and type.
    obtain ⟨y, hy, hkey⟩ := exists_leader_key_eq bucket (reps accesses).zipIdx hx
    have hall : already accesses = firstOfBuckets accesses :=
      List.take_of_length_le ((length_leaders_le_card bucket _).trans hcard)
    refine ⟨y, mem_fill_of_mem (mem_fill_of_mem ?_), hkey⟩
    rw [hall]
    exact hy

/-- When no representative is shown twice. -/
theorem nodup_selectedRep_iff (hmany : kMaxAccessesPerObject < (reps accesses).length) :
    (selectedRep accesses).Nodup ↔
      kMaxAccessesPerObject ≤ (firstOfBuckets accesses).length + (realLater accesses).length ∨
        ∀ x ∈ (laterOfBuckets accesses).take (kMaxAccessesPerObject -
          ((firstOfBuckets accesses).length + (realLater accesses).length)), x.1.nodeId < 0 := by
  rw [selectedRep, if_neg (not_le.mpr hmany)]
  have hiff := nodup_fill_fill_iff (p := fun x : NumberedRep => decide (0 ≤ x.1.nodeId))
    (length_already_le accesses) (nodup_already accesses)
    ((nodup_zipIdx (reps accesses)).filter fun x => x ∉ already accesses)
    fun x hx => (mem_notAlready_iff.mp hx).2
  refine hiff.trans ?_
  by_cases hle : (firstOfBuckets accesses).length ≤ kMaxAccessesPerObject
  · have hall : already accesses = firstOfBuckets accesses := List.take_of_length_le hle
    rw [hall]
    simp only [decide_eq_false_iff_not, not_le]
    rfl
  · -- The first ones alone fill the list.
    rw [already, List.length_take, min_eq_left (le_of_not_ge hle)]
    exact iff_of_true (Or.inl (Nat.le_add_right _ _)) (Or.inl (by omega))

/-- The selection keeps its promise exactly if there are no more representatives than the cap, or
the first ones of the threads and types together with the later ones at real nodes fill the list, or
the later ones that are added last are all synthetic. -/
theorem selectsWell_iff (accesses : List ObjectAccess) :
    SelectsWell accesses ↔ (reps accesses).length ≤ kMaxAccessesPerObject ∨
      kMaxAccessesPerObject ≤ (firstOfBuckets accesses).length + (realLater accesses).length ∨
        ∀ x ∈ (laterOfBuckets accesses).take (kMaxAccessesPerObject -
          ((firstOfBuckets accesses).length + (realLater accesses).length)), x.1.nodeId < 0 := by
  have hwell : SelectsWell accesses ↔ (selectedRep accesses).Nodup :=
    ⟨fun h => h.nodup, fun h => ⟨length_selectedRep accesses, fun x hx => mem_of_mem_selectedRep hx,
      h, fun hcard x hx => exists_mem_selectedRep hcard hx⟩⟩
  rw [hwell]
  by_cases hfew : (reps accesses).length ≤ kMaxAccessesPerObject
  · rw [selectedRep, if_pos hfew]
    exact iff_of_true (nodup_zipIdx _) (Or.inl hfew)
  · rw [nodup_selectedRep_iff (not_le.mp hfew), or_iff_right hfew]

/-- Forty-one functions of one thread read the object, the first two at real nodes. -/
def manyReaders : List ObjectAccess :=
  (List.range 41).map fun i =>
    ⟨1, "f" ++ toString i, "", "Read", if i < 2 then i else -1, "", "", false, ""⟩

/-- The second one is shown twice, and the last two are not shown. -/
theorem manyReaders_not_selectsWell :
    (selectedRep manyReaders).count (⟨1, "f1", "", "Read", 1, "", "", false, ""⟩, 1) = 2 ∧
      ¬SelectsWell manyReaders := by
  have hcount : (selectedRep manyReaders).count
      (⟨1, "f1", "", "Read", 1, "", "", false, ""⟩, 1) = 2 := by decide +kernel
  refine ⟨hcount, fun h => ?_⟩
  have hle := List.nodup_iff_count_le_one.mp h.nodup
    (⟨1, "f1", "", "Read", 1, "", "", false, ""⟩, 1)
  omega

end Lace.LLM
