import Mathlib.Data.List.Dedup
import Lace.CCPG.Basic
import Lace.Library.Forest
import Lace.Library.Search

/-!
# The thread creation tree

`ThreadCreationTree` and its answer to the question whether two threads may run at the same
time. A thread is named by the number of threads that were created before it, so that a parent
has a smaller name than its children; the climb to the ancestors is bounded by this name.

The source caches the answers of `mayHappenInParallel` and `mayThreadsRunConcurrently` under an
unordered pair. The functions here compute the answer anew each time.

## Main definitions

* `ThreadCreationTree`: the threads, their parents, fork sites and join sites;
* `isReachable`: the search that decides whether a join comes before a fork;
* `mayHappenInParallel`, `mayThreadsRunConcurrently`: the two parallelism tests.

## Main results

* `isDescendant_iff`, `isReachable_iff`: what the two loops compute;
* `mayThreadsRunConcurrently_eq`: the recursion of the source.
-/

namespace Lace

open Library Library.Forest

/-- A `Thread`, named by the number of threads created before it. -/
abbrev ThreadId := ℕ

/-- `Thread`: the fields that the parallelism tests read. -/
structure Thread where
  /-- `getParent`; entry threads have none. -/
  parent : Option ThreadId
  /-- `getForkNode`; for an entry thread the node of its entry function. -/
  forkNode : NodeId
  /-- `getJoinNode`, where `handleJoins` found one. -/
  joinNode : Option NodeId
  /-- `getNodes`: the nodes of all functions the thread runs. -/
  nodes : List NodeId
  /-- `isKernelEntry`. -/
  isKernelEntry : Bool
  /-- `isReentrant`. -/
  isReentrant : Bool
  /-- The name of the thread's main function, empty if it has none. -/
  entryName : String

/-- `ThreadCreationTree` as `build` leaves it. -/
structure ThreadCreationTree where
  /-- The graph the fork and join nodes belong to. -/
  ccpg : CCPG
  /-- `getThreads`, in iteration order. -/
  threads : List ThreadId
  /-- The threads themselves. -/
  thread : ThreadId → Thread
  /-- A child thread is created after its parent. -/
  parent_lt : ∀ t p, (thread t).parent = some p → p < t
  /-- `createThread` makes no second thread for a fork node. -/
  forkNode_inj : ∀ t u, (thread t).parent ≠ none → (thread u).parent ≠ none →
    (thread t).forkNode = (thread u).forkNode → t = u
  /-- `build` marks the entry threads as kernel entries as soon as there are two of them. -/
  isKernelEntry_of_ne : ∀ t u, (thread t).parent = none → (thread u).parent = none → t ≠ u →
    (thread t).isKernelEntry = true

/-! ### Name filters -/

/-- The answers of `entryLifecyclePhase`; `unknown` is its empty string. -/
inductive LifecyclePhase
  | unknown | init | exit
  deriving DecidableEq, Repr

/-- `std::string::find`: where the pattern occurs first. -/
def findStr (name pat : String) : Option ℕ :=
  name.toList.tails.findIdx? pat.toList.isPrefixOf

/-- `name.find(pat) == name.size() - strlen(pat)`: the first occurrence is at the very end. -/
def foundAtEnd (name pat : String) : Bool :=
  findStr name pat = some (name.length - pat.length) && pat.length ≤ name.length

/-- `entryLifecyclePhase`: when the entry with a name runs, in the life of its module. -/
def entryLifecyclePhase (name : String) : LifecyclePhase :=
  let found := fun pat => (findStr name pat).isSome
  let atEnd := foundAtEnd name
  if name.isEmpty then .unknown
  else if (found "_init" || name == "init_module" || found "_probe" || found "_open" ||
      found "_attach" || found "_bind" || found "_alloc") &&
      (found "_init" && atEnd "_init" || name == "init_module" || atEnd "_probe" ||
        atEnd "_open" || atEnd "_attach" || atEnd "_bind") then .init
  else if found "_exit" && atEnd "_exit" then .exit
  else if name == "cleanup_module" then .exit
  else if found "_remove" && atEnd "_remove" then .exit
  else if found "_release" && atEnd "_release" then .exit
  else if found "_close" && atEnd "_close" then .exit
  else if found "_detach" && atEnd "_detach" then .exit
  else if found "_destroy" && atEnd "_destroy" then .exit
  else .unknown

/-- What the tests for two entry threads read from outside the tree. -/
structure EntryFilters where
  /-- `manualentry::matches` when manual entry mode is enabled. -/
  manualEntry : Option (String → Bool)
  /-- `doEntriesHaveSharedData` of the pointer analysis, when there is one. -/
  haveSharedData : Option (String → String → Bool)

/-- The pointer analysis gives the same answer for a pair of names in either order. -/
def EntryFilters.Symmetric (F : EntryFilters) : Prop :=
  ∀ shared, F.haveSharedData = some shared → ∀ n1 n2, shared n1 n2 = shared n2 n1

namespace ThreadCreationTree

variable (T : ThreadCreationTree)

/-- `Thread::getParent`: the thread that forks this one, if one does. -/
def parent (t : ThreadId) : Option ThreadId := (T.thread t).parent

/-- `isEntryLifecycleIncompatible`: two entries whose phases do not overlap. -/
def isEntryLifecycleIncompatible (t1 t2 : ThreadId) : Bool :=
  let p1 := entryLifecyclePhase (T.thread t1).entryName
  let p2 := entryLifecyclePhase (T.thread t2).entryName
  if p1 = .unknown || p2 = .unknown then false
  else p1 = .init && p2 = .exit || p1 = .exit && p2 = .init

/-! ### The tests -/

/-- The search of `isReachable` for the node `goal` through the nodes of a thread. -/
def reachProblem (goal : NodeId) (t : ThreadId) : SearchProblem NodeId where
  next n := (T.ccpg.getOutEdges n).map CCPGEdge.dst
  goal n := n = goal
  keep n := n ∈ (T.thread t).nodes
  cap := none

/-- `isReachable`: a walk along the edges of the graph whose inner nodes belong to the thread. -/
def isReachable (start goal : NodeId) (t : ThreadId) : Bool :=
  if start = goal then true
  else (T.reachProblem goal t).searchFrom (T.ccpg.edges.length + 2) start

/-- One test of `mayHappenInParallel`: is the join of `t1` before the fork of `t2`? -/
def joinedBeforeFork (t1 t2 : ThreadId) (parent : ThreadId) : Bool :=
  match (T.thread t1).joinNode with
  | none => false
  | some join => T.isReachable join (T.thread t2).forkNode parent

/-- `mayHappenInParallel`, for two threads with the same parent. -/
def mayHappenInParallel (F : EntryFilters) (t1 t2 : ThreadId) : Bool :=
  match T.parent t1 with
  | none =>
      let n1 := (T.thread t1).entryName
      let n2 := (T.thread t2).entryName
      if !((T.thread t1).isKernelEntry && (T.thread t2).isKernelEntry) then false
      else if F.manualEntry.any fun manual => manual n1 && manual n2 then true
      else if T.isEntryLifecycleIncompatible t1 t2 then false
      else if F.haveSharedData.any fun shared =>
          !n1.isEmpty && !n2.isEmpty && !shared n1 n2 then false
      else true
  | some p => !T.joinedBeforeFork t1 t2 p && !T.joinedBeforeFork t2 t1 p

/-- The loop of `isDescendant` from a parent pointer on. -/
def isDescendantFrom : ℕ → Option ThreadId → ThreadId → Bool
  | _, none, _ => false
  | 0, some _, _ => false
  | fuel + 1, some p, t => p = t || isDescendantFrom fuel (T.parent p) t

/-- `isDescendant`: whether `t1` is a proper descendant of `t2`. -/
def isDescendant (t1 t2 : ThreadId) : Bool := T.isDescendantFrom t1 (T.parent t1) t2

/-- The recursion of `mayThreadsRunConcurrently`. -/
def mayThreadsRunConcurrentlyAux (F : EntryFilters) : ℕ → ThreadId → ThreadId → Bool
  | 0, _, _ => false
  | fuel + 1, t1, t2 =>
      if t1 = t2 then (T.thread t1).isReentrant
      else if T.isDescendant t1 t2 || T.isDescendant t2 t1 then true
      else if T.parent t1 = T.parent t2 then T.mayHappenInParallel F t1 t2
      else
        match T.parent t1, T.parent t2 with
        | some p1, some p2 => mayThreadsRunConcurrentlyAux F fuel p1 p2
        | _, _ => false

/-- `mayThreadsRunConcurrently`. The names of the ancestors decrease, which bounds the climb. -/
def mayThreadsRunConcurrently (F : EntryFilters) (t1 t2 : ThreadId) : Bool :=
  T.mayThreadsRunConcurrentlyAux F (t1 + 1) t1 t2

/-! ### What the loops compute -/

/-- Climbing to the parent lowers the name. -/
theorem parent_lt_self {t p : ThreadId} (h : T.parent t = some p) : p < t := T.parent_lt t p h

/-- The edges that `isReachable` walks along, inside a thread. -/
def ThreadStep (t : ThreadId) (m n : NodeId) : Prop :=
  (∃ e ∈ T.ccpg.edges, e.src = m ∧ e.dst = n) ∧ n ∈ (T.thread t).nodes

/-- `isReachable` finds exactly the walks whose inner nodes belong to the thread. -/
theorem isReachable_iff {start goal : NodeId} {t : ThreadId} :
    T.isReachable start goal t = true ↔ start = goal ∨ ∃ m,
      Relation.ReflTransGen (T.ThreadStep t) start m ∧ ∃ e ∈ T.ccpg.edges, e.src = m ∧
        e.dst = goal := by
  unfold isReachable
  by_cases heq : start = goal
  · simp [heq]
  rw [if_neg heq]
  have hstep : (T.reachProblem goal t).Entered = T.ThreadStep t := by
    ext m n
    simp [SearchProblem.Entered, reachProblem, ThreadStep, and_assoc]
  have hU : ∀ m, ∀ n ∈ (T.reachProblem goal t).next m, (T.reachProblem goal t).keep n = true →
      n ∈ (T.ccpg.edges.map CCPGEdge.dst).toFinset := by
    intro m n hn _
    obtain ⟨e, he, rfl⟩ := List.mem_map.mp hn
    exact List.mem_toFinset.mpr (List.mem_map_of_mem ((T.ccpg.mem_getOutEdges).mp he).1)
  have hcard : (T.ccpg.edges.map CCPGEdge.dst).toFinset.card ≤ T.ccpg.edges.length :=
    card_toFinset_map_le _ _
  -- The goal is recognised when an edge to it is scanned, so it need not belong to the thread.
  rw [SearchProblem.search_uncapped_iff rfl _ hU (by omega), hstep]
  simp only [heq, false_or]
  constructor
  · rintro ⟨m, n, hm, hn, hgoal⟩
    obtain ⟨e, he, rfl⟩ := List.mem_map.mp hn
    rw [CCPG.mem_getOutEdges] at he
    exact ⟨m, hm, e, he.1, he.2, by simpa [reachProblem] using hgoal⟩
  · rintro ⟨m, hm, e, he, hsrc, hdst⟩
    refine ⟨m, goal, hm, List.mem_map.mpr ⟨e, ?_, hdst⟩, by simp [reachProblem]⟩
    exact T.ccpg.mem_getOutEdges.mpr ⟨he, hsrc⟩

theorem isDescendantFrom_iff {fuel : ℕ} {p : Option ThreadId} {t : ThreadId}
    (hfuel : ∀ q, p = some q → q < fuel) :
    T.isDescendantFrom fuel p t = true ↔ ∃ q, p = some q ∧ Under T.parent q t := by
  induction fuel generalizing p with
  | zero =>
      cases p with
      | none => simp [isDescendantFrom]
      | some q => exact absurd (hfuel q rfl) (Nat.not_lt_zero _)
  | succ fuel ih =>
      cases p with
      | none => simp [isDescendantFrom]
      | some q =>
          -- Parents have smaller names, so the fuel lasts for the climb.
          have hq : ∀ r, T.parent q = some r → r < fuel := fun r hr =>
            lt_of_lt_of_le (T.parent_lt_self hr) (Nat.le_of_lt_succ (hfuel q rfl))
          simp only [isDescendantFrom, Bool.or_eq_true, decide_eq_true_eq, ih hq,
            Option.some.injEq, exists_eq_left']
          rw [under_iff, below_iff]

/-- `isDescendant` decides the proper descendants. -/
theorem isDescendant_iff {t1 t2 : ThreadId} :
    T.isDescendant t1 t2 = true ↔ Below T.parent t1 t2 := by
  rw [isDescendant, T.isDescendantFrom_iff fun q => T.parent_lt_self, below_iff]

theorem mayThreadsRunConcurrentlyAux_fuel (F : EntryFilters) {fuel fuel' : ℕ} {t1 t2 : ThreadId}
    (hfuel : t1 < fuel) (hfuel' : t1 < fuel') :
    T.mayThreadsRunConcurrentlyAux F fuel t1 t2 =
      T.mayThreadsRunConcurrentlyAux F fuel' t1 t2 := by
  induction fuel generalizing fuel' t1 t2 with
  | zero => exact absurd hfuel (Nat.not_lt_zero _)
  | succ fuel ih =>
      obtain ⟨fuel', rfl⟩ := Nat.exists_eq_succ_of_ne_zero (Nat.ne_zero_of_lt hfuel')
      simp only [mayThreadsRunConcurrentlyAux]
      cases hp1 : T.parent t1 with
      | none => rfl
      | some p1 =>
          cases hp2 : T.parent t2 with
          | none => rfl
          | some p2 =>
              -- The climb goes on from smaller names.
              have hlt : p1 < t1 := T.parent_lt_self hp1
              simp only [ih (lt_of_lt_of_le hlt (Nat.le_of_lt_succ hfuel))
                (lt_of_lt_of_le hlt (Nat.le_of_lt_succ hfuel'))]

/-- The recursion of the source, without the bound on the climb. -/
theorem mayThreadsRunConcurrently_eq (F : EntryFilters) (t1 t2 : ThreadId) :
    T.mayThreadsRunConcurrently F t1 t2 =
      if t1 = t2 then (T.thread t1).isReentrant
      else if T.isDescendant t1 t2 || T.isDescendant t2 t1 then true
      else if T.parent t1 = T.parent t2 then T.mayHappenInParallel F t1 t2
      else
        match T.parent t1, T.parent t2 with
        | some p1, some p2 => T.mayThreadsRunConcurrently F p1 p2
        | _, _ => false := by
  rw [mayThreadsRunConcurrently, mayThreadsRunConcurrentlyAux]
  cases hp1 : T.parent t1 with
  | none => rfl
  | some p1 =>
      cases hp2 : T.parent t2 with
      | none => rfl
      | some p2 =>
          -- The fuel that is left is more than the climb from the parent needs.
          have hlt : p1 < t1 := T.parent_lt_self hp1
          simp only [mayThreadsRunConcurrently,
            T.mayThreadsRunConcurrentlyAux_fuel F hlt (Nat.lt_succ_self p1)]

/-! ### Symmetry

The source stores an answer under the unordered pair and hands it out for both orders. -/

theorem isEntryLifecycleIncompatible_comm (t1 t2 : ThreadId) :
    T.isEntryLifecycleIncompatible t1 t2 = T.isEntryLifecycleIncompatible t2 t1 := by
  unfold isEntryLifecycleIncompatible
  cases entryLifecyclePhase (T.thread t1).entryName <;>
    cases entryLifecyclePhase (T.thread t2).entryName <;> rfl

/-- The order of two siblings does not matter to `mayHappenInParallel`. -/
theorem mayHappenInParallel_comm {F : EntryFilters} (hF : F.Symmetric) {t1 t2 : ThreadId}
    (hp : T.parent t1 = T.parent t2) :
    T.mayHappenInParallel F t1 t2 = T.mayHappenInParallel F t2 t1 := by
  unfold mayHappenInParallel
  rw [← hp]
  cases T.parent t1 with
  | some p => exact Bool.and_comm _ _
  | none =>
      -- For entries, every filter reads the two names alike.
      have hmanual : (F.manualEntry.any fun manual =>
            manual (T.thread t1).entryName && manual (T.thread t2).entryName) =
          F.manualEntry.any fun manual =>
            manual (T.thread t2).entryName && manual (T.thread t1).entryName := by
        simp only [Bool.and_comm]
      have hshared : (F.haveSharedData.any fun shared => !(T.thread t1).entryName.isEmpty &&
            !(T.thread t2).entryName.isEmpty &&
            !shared (T.thread t1).entryName (T.thread t2).entryName) =
          F.haveSharedData.any fun shared => !(T.thread t2).entryName.isEmpty &&
            !(T.thread t1).entryName.isEmpty &&
            !shared (T.thread t2).entryName (T.thread t1).entryName := by
        cases hs : F.haveSharedData with
        | none => rfl
        | some shared =>
            simp only [Option.any_some, hF shared hs (T.thread t1).entryName,
              Bool.and_comm (!(T.thread t1).entryName.isEmpty)]
      simp only [hmanual, hshared, Bool.and_comm (T.thread t1).isKernelEntry,
        T.isEntryLifecycleIncompatible_comm t1 t2]

/-- The answer of `mayThreadsRunConcurrently` belongs to the unordered pair. -/
theorem mayThreadsRunConcurrently_comm {F : EntryFilters} (hF : F.Symmetric) (t1 t2 : ThreadId) :
    T.mayThreadsRunConcurrently F t1 t2 = T.mayThreadsRunConcurrently F t2 t1 := by
  induction t1 using Nat.strong_induction_on generalizing t2 with
  | h t1 ih =>
      rw [T.mayThreadsRunConcurrently_eq F t1 t2, T.mayThreadsRunConcurrently_eq F t2 t1]
      by_cases heq : t1 = t2
      · subst heq
        rfl
      rw [if_neg heq, if_neg (Ne.symm heq), Bool.or_comm]
      -- Siblings are asked for in either order; otherwise the parents are.
      by_cases hp : T.parent t1 = T.parent t2
      · rw [if_pos hp, if_pos hp.symm, T.mayHappenInParallel_comm hF hp]
      rw [if_neg hp, if_neg (Ne.symm hp)]
      cases hp1 : T.parent t1 with
      | none => cases T.parent t2 <;> rfl
      | some p1 =>
          cases hp2 : T.parent t2 with
          | none => rfl
          | some p2 => simp only [ih p1 (T.parent_lt_self hp1) p2]

end ThreadCreationTree

end Lace
