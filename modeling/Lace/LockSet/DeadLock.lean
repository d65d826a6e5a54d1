import Lace.CCPG.Contexts
import Lace.CCPG.NodeLoc
import Lace.CCPG.AliasChecker
import Lace.Library.Precedence

/-!
# Lock orders

`LSAnalysis::isDeadLock`: the locks of two locations are listed in the order of their acquisition,
those of the outer call sites first. Every ordered pair of one list is looked for in the other.

## Main definitions

* `LockContexts`: what the check reads;
* `LockContexts.hasLockOrderConflict`, `LockContexts.isDeadLock`: the functions of the source;
* `LockContexts.Inverted`, `LockContexts.NestedAlike`: two locks in opposite orders, and in one;
* `LockContexts.DetectsInversion`: the check is about opposite orders.

## Main results

* `LockContexts.isDeadLock_iff`: the check finds two locks that are nested alike;
* `LockContexts.isDeadLock_exact_iff`: when that is the answer for an inversion.
-/

namespace Lace

open Library
open scoped List

/-- What `isDeadLock` reads. -/
structure LockContexts where
  /-- The module behind the nodes. -/
  ir : IRModule
  /-- `nodeLockSets`. -/
  nodeLockSets : NodeId → List ℕ
  /-- `Lock::getAcquire`. -/
  lockAcquire : ℕ → NodeId
  /-- `*(getNodesByLoc(loc).begin())`. -/
  firstNodeByLoc : NodeLoc → NodeId

namespace LockContexts

variable (C : LockContexts)

/-- `isLockAlias` of the acquire nodes of two locks. -/
def isLockAlias (l1 l2 : ℕ) : Bool := C.ir.isLockAlias (C.lockAcquire l1) (C.lockAcquire l2)

/-- `ctxlockSet1` and `ctxlockSet2`: the locks of the call sites are put in front of those of the
node, the innermost site first. -/
def ctxlockSet (loc : NodeLoc) (ctx : Context) : List ℕ :=
  ctx.flatMap C.nodeLockSets ++ C.nodeLockSets (C.firstNodeByLoc loc)

/-- `hasLockOrderConflict`: `foundFirst` is set at an alias of the second lock, and then an alias of
the first one is looked for. -/
def hasLockOrderConflict (expectedFirst expectedSecond : ℕ) (lockset : List ℕ) : Bool :=
  scanPair (fun lock => C.isLockAlias lock expectedSecond)
    (fun lock => C.isLockAlias lock expectedFirst) false lockset

/-- One phase of `isDeadLock`: the order of the first list is looked for in the second one. -/
def phase (ctxlockSet1 ctxlockSet2 : List ℕ) : Bool :=
  (orderedPairs ctxlockSet1).any fun (earlier, later) =>
    !C.isLockAlias earlier later && C.hasLockOrderConflict later earlier ctxlockSet2

/-- `isDeadLock`: asks whether two contexts take two locks in opposite orders. -/
def isDeadLock (loc1 : NodeLoc) (ctx1 : Context) (loc2 : NodeLoc) (ctx2 : Context) : Bool :=
  let ctxlockSet1 := C.ctxlockSet loc1 ctx1
  let ctxlockSet2 := C.ctxlockSet loc2 ctx2
  C.phase ctxlockSet1 ctxlockSet2 || C.phase ctxlockSet2 ctxlockSet1

/-! ### Two nested locks -/

/-- The locks that alias `x`. -/
def Aliases (x y : ℕ) : Prop := C.isLockAlias x y = true

instance (x : ℕ) : DecidablePred (C.Aliases x) := fun y =>
  inferInstanceAs (Decidable (C.isLockAlias x y = true))

/-- Two locks that do not alias, acquired in one order in the first list and in the other order in
the second one. -/
def Inverted (l1 l2 : List ℕ) : Prop :=
  ∃ x y, ¬C.Aliases x y ∧ [x, y] <+ l1 ∧ Precedes (C.Aliases y) (C.Aliases x) l2

/-- Two locks that do not alias, acquired in the same order in both lists. -/
def NestedAlike (l1 l2 : List ℕ) : Prop :=
  ∃ x y, ¬C.Aliases x y ∧ [x, y] <+ l1 ∧ Precedes (C.Aliases x) (C.Aliases y) l2

/-- Two locks that do not alias are acquired in both lists. -/
def ShareTwo (l1 l2 : List ℕ) : Prop :=
  ∃ x ∈ l1, ∃ y ∈ l1, ¬C.Aliases x y ∧ (∃ x' ∈ l2, C.Aliases x x') ∧ ∃ y' ∈ l2, C.Aliases y y'

/-- The answer of `isDeadLock` is whether two locks are acquired in opposite orders. -/
def DetectsInversion (loc1 : NodeLoc) (ctx1 : Context) (loc2 : NodeLoc) (ctx2 : Context) : Prop :=
  C.isDeadLock loc1 ctx1 loc2 ctx2 = true ↔
    C.Inverted (C.ctxlockSet loc1 ctx1) (C.ctxlockSet loc2 ctx2) ∨
      C.Inverted (C.ctxlockSet loc2 ctx2) (C.ctxlockSet loc1 ctx1)

instance (l1 l2 : List ℕ) : Decidable (C.Inverted l1 l2) :=
  decidable_of_iff (∃ xy ∈ orderedPairs l1, ¬C.Aliases xy.1 xy.2 ∧
      Precedes (C.Aliases xy.2) (C.Aliases xy.1) l2) <| by
    rw [Prod.exists]
    simp only [mem_orderedPairs, Inverted, and_left_comm]

instance (l1 l2 : List ℕ) : Decidable (C.ShareTwo l1 l2) :=
  inferInstanceAs (Decidable (∃ x ∈ l1, ∃ y ∈ l1, _))

instance (loc1 loc2 : NodeLoc) (ctx1 ctx2 : Context) :
    Decidable (C.DetectsInversion loc1 ctx1 loc2 ctx2) :=
  inferInstanceAs (Decidable (_ ↔ _))

variable {C} {l1 l2 : List ℕ} {x y : ℕ}

section Equivalence

variable (hC : Equivalence C.Aliases)
include hC

/-- The helper finds the second lock before the first one. -/
theorem hasLockOrderConflict_iff (hxy : ¬C.Aliases x y) :
    C.hasLockOrderConflict y x l2 = true ↔ Precedes (C.Aliases x) (C.Aliases y) l2 := by
  have hx : (fun lock => C.isLockAlias lock x = true) = C.Aliases x := by
    funext lock
    exact propext ⟨fun h => hC.symm h, fun h => hC.symm h⟩
  have hy : (fun lock => C.isLockAlias lock y = true) = C.Aliases y := by
    funext lock
    exact propext ⟨fun h => hC.symm h, fun h => hC.symm h⟩
  rw [hasLockOrderConflict, scanPair_iff, hx, hy]
  intro lock hlock
  rw [Bool.eq_false_iff]
  intro hlock'
  exact hxy (hC.trans (hC.symm hlock) hlock')

/-- A phase finds two locks that are nested alike. -/
theorem phase_iff : C.phase l1 l2 = true ↔ C.NestedAlike l1 l2 := by
  rw [phase, List.any_eq_true]
  constructor
  · rintro ⟨⟨x, y⟩, hmem, hpair⟩
    obtain ⟨hxy, hconflict⟩ := (Bool.and_eq_true _ _).mp hpair
    have hne : ¬C.Aliases x y := by simpa [Aliases] using hxy
    exact ⟨x, y, hne, mem_orderedPairs.mp hmem, (hasLockOrderConflict_iff hC hne).mp hconflict⟩
  · rintro ⟨x, y, hne, hsub, hprec⟩
    refine ⟨(x, y), mem_orderedPairs.mpr hsub, ?_⟩
    show (!C.isLockAlias x y && C.hasLockOrderConflict y x l2) = true
    rw [(hasLockOrderConflict_iff hC hne).mpr hprec, Bool.and_true]
    simpa [Aliases] using hne

/-- Both relations can be read from either list. -/
theorem NestedAlike.symm (h : C.NestedAlike l1 l2) : C.NestedAlike l2 l1 := by
  obtain ⟨x, y, hne, hsub, x', y', hsub', hx, hy⟩ := h
  refine ⟨x', y', fun hxy => hne (hC.trans hx (hC.trans hxy (hC.symm hy))), hsub', ?_⟩
  exact ⟨x, y, hsub, hC.symm hx, hC.symm hy⟩

theorem Inverted.symm (h : C.Inverted l1 l2) : C.Inverted l2 l1 := by
  obtain ⟨x, y, hne, hsub, y', x', hsub', hy, hx⟩ := h
  refine ⟨y', x', fun hxy => hne (hC.trans hx (hC.symm (hC.trans hy hxy))), hsub', ?_⟩
  exact ⟨x, y, hsub, hC.symm hx, hC.symm hy⟩

/-- The check finds two locks that are nested in the same order. -/
theorem isDeadLock_iff {loc1 loc2 : NodeLoc} {ctx1 ctx2 : Context} :
    C.isDeadLock loc1 ctx1 loc2 ctx2 = true ↔
      C.NestedAlike (C.ctxlockSet loc1 ctx1) (C.ctxlockSet loc2 ctx2) := by
  rw [isDeadLock, Bool.or_eq_true, phase_iff hC, phase_iff hC, or_iff_left_of_imp]
  exact NestedAlike.symm hC

/-- Two locks of both lists are nested in the same order or in opposite orders. -/
theorem shareTwo_iff : C.ShareTwo l1 l2 ↔ C.NestedAlike l1 l2 ∨ C.Inverted l1 l2 := by
  have hdisj : ∀ {x y}, ¬C.Aliases x y → ∀ a, C.Aliases x a → ¬C.Aliases y a :=
    fun hne a hxa hya => hne (hC.trans hxa (hC.symm hya))
  constructor
  · rintro ⟨x, hx, y, hy, hne, hx', hy'⟩
    -- Either order of the first list can meet either order of the second one.
    have hne' : ¬C.Aliases y x := fun h => hne (hC.symm h)
    have h1 := Precedes.or_swap (p := (· = x)) (q := (· = y)) ⟨x, hx, rfl⟩ ⟨y, hy, rfl⟩
      (by rintro a rfl rfl; exact hne (hC.refl a))
    have h2 := Precedes.or_swap hx' hy' (hdisj hne)
    rcases h1 with ⟨_, _, hsub, rfl, rfl⟩ | ⟨_, _, hsub, rfl, rfl⟩
    · rcases h2 with h2 | h2
      · exact Or.inl ⟨_, _, hne, hsub, h2⟩
      · exact Or.inr ⟨_, _, hne, hsub, h2⟩
    · rcases h2 with h2 | h2
      · exact Or.inr ⟨_, _, hne', hsub, h2⟩
      · exact Or.inl ⟨_, _, hne', hsub, h2⟩
  · rintro (⟨x, y, hne, hsub, hprec⟩ | ⟨x, y, hne, hsub, hprec⟩)
    · exact ⟨x, hsub.subset (by simp), y, hsub.subset (by simp), hne, hprec.left, hprec.right⟩
    · exact ⟨x, hsub.subset (by simp), y, hsub.subset (by simp), hne, hprec.right, hprec.left⟩

end Equivalence

/-- The check answers whether two locks are acquired in opposite orders exactly if the two lists
share at most one lock, or there are both two locks in opposite orders and two in the same order. -/
theorem isDeadLock_exact_iff (C : LockContexts) (hC : Equivalence C.Aliases) (loc1 : NodeLoc)
    (ctx1 : Context) (loc2 : NodeLoc) (ctx2 : Context) :
    C.DetectsInversion loc1 ctx1 loc2 ctx2 ↔
      ¬C.ShareTwo (C.ctxlockSet loc1 ctx1) (C.ctxlockSet loc2 ctx2) ∨
        C.NestedAlike (C.ctxlockSet loc1 ctx1) (C.ctxlockSet loc2 ctx2) ∧
          C.Inverted (C.ctxlockSet loc1 ctx1) (C.ctxlockSet loc2 ctx2) := by
  rw [DetectsInversion, isDeadLock_iff hC, or_iff_left_of_imp (Inverted.symm hC),
    shareTwo_iff hC]
  tauto

/-! ### Two locks, nested alike and inverted -/

/-- Node 10 holds the locks 0 and 1 in this order, as node 30 does, and node 20 in the other one;
node 40 holds none. -/
def twoLocks : LockContexts where
  ir :=
    { callInst := fun n => some ⟨some "mutex_lock", [n.toNat]⟩
      cpgNodeName := fun _ => none
      areAliases := fun v w => v = w
      stripPointerCasts := id
      kind := fun _ => .other }
  nodeLockSets n := if n = 20 then [1, 0] else if n = 40 then [] else [0, 1]
  lockAcquire l := l
  firstNodeByLoc loc := loc.lineNumber

theorem equivalence_twoLocks : Equivalence twoLocks.Aliases := by
  have heq : ∀ x y, twoLocks.Aliases x y ↔ x = y := fun x y => by
    simp [Aliases, isLockAlias, IRModule.isLockAlias, IRModule.firstArg, twoLocks]
  constructor
  · intro x
    exact (heq x x).mpr rfl
  · intro x y hxy
    exact (heq y x).mpr ((heq x y).mp hxy).symm
  · intro x y z hxy hyz
    exact (heq x z).mpr (((heq x y).mp hxy).trans ((heq y z).mp hyz))

/-- Two functions that nest the locks in the same order are called a deadlock; two that nest them in
opposite orders are not. -/
theorem twoLocks_not_exact :
    (twoLocks.isDeadLock ⟨"a.c", 10⟩ [] ⟨"a.c", 30⟩ [] = true ∧
        ¬twoLocks.DetectsInversion ⟨"a.c", 10⟩ [] ⟨"a.c", 30⟩ []) ∧
      twoLocks.isDeadLock ⟨"a.c", 10⟩ [] ⟨"a.c", 20⟩ [] = false ∧
        ¬twoLocks.DetectsInversion ⟨"a.c", 10⟩ [] ⟨"a.c", 20⟩ [] := by
  decide +kernel

/-- Nothing is inverted where one of the two holds no lock, and the check says so. -/
theorem twoLocks_exact_of_noLock :
    twoLocks.DetectsInversion ⟨"a.c", 10⟩ [] ⟨"a.c", 40⟩ [] :=
  (isDeadLock_exact_iff twoLocks equivalence_twoLocks ⟨"a.c", 10⟩ [] ⟨"a.c", 40⟩ []).mpr
    (Or.inl (by decide +kernel))

end LockContexts

end Lace
