import Mathlib.Data.List.Basic
import Mathlib.Algebra.Order.Ring.Int
import Lace.CCPG.Basic

/-!
# The vulnerability surface

The shared objects of the surface and their accesses. An object that races with itself gets a
second instance of its root thread: the root's accesses are duplicated under a synthetic thread id.

## Main definitions

* `TidSet`: a set of thread ids, in the order of its iteration;
* `ThreadAccess`, `SharedObject`: accesses and objects;
* `SharedObject.materializeSibling`: the second instance of a self-racing thread.

## Main results

* `mem_accesses_materializeSibling`: the accesses of the second instance are those of the root.
-/

namespace Lace

/-- A thread id as the surface and the contracts use it. -/
abbrev Tid := ℤ

/-- `std::set<int>`: its elements in the order of iteration. -/
structure TidSet where
  /-- The elements. -/
  toList : List Tid
  /-- Each element occurs once, the smallest first. -/
  sorted : toList.Pairwise (· < ·)
  deriving DecidableEq, Repr

theorem TidSet.sorted_nil : ([] : List Tid).Pairwise (· < ·) := List.Pairwise.nil

theorem TidSet.sorted_one_two : ([1, 2] : List Tid).Pairwise (· < ·) := by simp

theorem TidSet.toList_injective : Function.Injective TidSet.toList := by
  rintro ⟨l, _⟩ ⟨l', _⟩ rfl
  rfl

/-- `std::set::insert`. -/
def TidSet.insert (s : TidSet) (x : Tid) : TidSet where
  toList := s.toList.filter (· < x) ++ x :: s.toList.filter (x < ·)
  sorted := by
    refine List.pairwise_append.mpr ⟨s.sorted.filter _, ?_, fun y hy z hz => ?_⟩
    · refine List.pairwise_cons.mpr ⟨fun y hy => ?_, s.sorted.filter _⟩
      simpa using (List.mem_filter.mp hy).2
    · have hyx : y < x := by simpa using (List.mem_filter.mp hy).2
      rcases List.mem_cons.mp hz with rfl | hz
      · exact hyx
      · exact hyx.trans (by simpa using (List.mem_filter.mp hz).2)

@[simp]
theorem TidSet.mem_insert {s : TidSet} {x y : Tid} :
    y ∈ (s.insert x).toList ↔ y = x ∨ y ∈ s.toList := by
  simp only [TidSet.insert, List.mem_append, List.mem_cons, List.mem_filter, decide_eq_true_eq]
  constructor
  · rintro (h | h | h)
    · exact Or.inr h.1
    · exact Or.inl h
    · exact Or.inr h.1
  · rintro (h | h)
    · exact Or.inr (Or.inl h)
    · rcases lt_trichotomy y x with hlt | heq | hgt
      · exact Or.inl ⟨h, hlt⟩
      · exact Or.inr (Or.inl heq)
      · exact Or.inr (Or.inr ⟨h, hgt⟩)

/-- The set of some ids, inserted one after the other. -/
def TidSet.ofList (l : List Tid) : TidSet := l.foldl TidSet.insert ⟨[], TidSet.sorted_nil⟩

@[simp]
theorem TidSet.mem_ofList {l : List Tid} {t : Tid} : t ∈ (TidSet.ofList l).toList ↔ t ∈ l := by
  have hfold : ∀ s : TidSet, t ∈ (l.foldl TidSet.insert s).toList ↔ t ∈ s.toList ∨ t ∈ l := by
    induction l with
    | nil => simp
    | cons x l ih =>
      intro s
      rw [List.foldl_cons, ih, TidSet.mem_insert, List.mem_cons, or_comm (a := t = x), or_assoc]
  rw [TidSet.ofList, hfold]
  simp

theorem TidSet.nodup (s : TidSet) : s.toList.Nodup := s.sorted.imp fun h => h.ne

/-- `access_type`: what an access does. -/
inductive AccessType
  | read | write | free
  deriving DecidableEq, Repr

/-- `ThreadAccess`: the fields that are read here. -/
structure ThreadAccess where
  /-- `thread_id`. -/
  threadId : Tid
  /-- `access_type`. -/
  accessType : AccessType
  /-- `node_id`, -1 if there is none. -/
  nodeId : NodeId
  /-- `code_snippet`. -/
  codeSnippet : String
  /-- `is_lock_protected`. -/
  isLockProtected : Bool
  /-- `protecting_lock`. -/
  protectingLock : String
  deriving DecidableEq, Repr

/-- `SharedObject`: the fields that are read here. -/
structure SharedObject where
  /-- `accesses`. -/
  accesses : List ThreadAccess
  /-- `is_self_race`. -/
  isSelfRace : Bool
  /-- `accessing_thread_ids`. -/
  accessingThreadIds : TidSet
  deriving DecidableEq, Repr

/-- A `const SharedObject*`, as the position of the object on the surface. -/
abbrev ObjectRef := ℕ

/-- The synthetic id of the second instance of a thread. -/
def siblingId (rootId : Tid) : Tid := rootId + 1000000

/-- The same access by the second instance. -/
def ThreadAccess.sibling (rootId : Tid) (a : ThreadAccess) : ThreadAccess :=
  { a with
    threadId := siblingId rootId
    codeSnippet := "[self-race: concurrent instance] " ++ a.codeSnippet }

namespace SharedObject

/-- The thread whose accesses are duplicated. -/
def selfRaceRoot (O : SharedObject) (selfRaceRootTid : Tid) : Tid :=
  if 0 ≤ selfRaceRootTid then selfRaceRootTid
  else ((O.accesses.head?).map ThreadAccess.threadId).getD 0

/-- The second instance of the root thread of a self-race, as `collectSharedObjects` adds it. -/
def materializeSibling (O : SharedObject) (selfRaceRootTid : Tid) : SharedObject :=
  let rootId := O.selfRaceRoot selfRaceRootTid
  { accesses := O.accesses ++
      (O.accesses.filter fun a => a.threadId = rootId).map (ThreadAccess.sibling rootId)
    isSelfRace := true
    accessingThreadIds := O.accessingThreadIds.insert (siblingId rootId) }

variable {O : SharedObject} {selfRaceRootTid : Tid}

/-- The second instance makes the accesses of the root. -/
theorem mem_accesses_materializeSibling {a : ThreadAccess} :
    a ∈ (O.materializeSibling selfRaceRootTid).accesses ↔ a ∈ O.accesses ∨
      ∃ b ∈ O.accesses, b.threadId = O.selfRaceRoot selfRaceRootTid ∧
        b.sibling (O.selfRaceRoot selfRaceRootTid) = a := by
  simp [materializeSibling, and_assoc]

end SharedObject

end Lace
