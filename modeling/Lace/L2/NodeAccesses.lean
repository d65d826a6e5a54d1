import Lace.L2.Check
import Lace.Library.Reorder

/-!
# The accesses at a node

The checker reads an object's accesses by node: `accTypeOfNode` takes the first access recorded at
a node, `sameLockCovers` the last one. Several accesses may be recorded at one node, by different
threads and of different types, so what the two answer can depend on the order of the list.

## Main definitions

* `SharedObject.reorder`: the object with its accesses in another order;
* `SharedObject.CommonLock`: all accesses at two nodes are protected by one lock;
* `SharedObject.LocksAgree`, `SharedObject.FreesAgree`: the accesses at a node agree;
* `SharedObject.LocksByNode`: the lock fields depend on the node only, as the surface writes them.

## Main results

* `nodeAccesses_iff`: when the two are sound and independent of the order;
* `locksAgree_of_locksByNode`: on the lists the surface writes, `sameLockCovers` always is.
-/

namespace Lace

open Library

/-- The access is counted as locked: it is protected and its lock has a name. -/
def ThreadAccess.locked (a : ThreadAccess) : Bool :=
  a.isLockProtected && !a.protectingLock.isEmpty

namespace SharedObject

variable (o : SharedObject)

/-- The object with its accesses in another order. -/
def reorder (l : List ThreadAccess) : SharedObject :=
  { o with accesses := l }

/-- All accesses at the two nodes are protected by one lock. -/
def CommonLock (a b : NodeId) : Prop :=
  ∃ lock, ∀ z ∈ o.accesses, z.nodeId = a ∨ z.nodeId = b →
    z.isLockProtected = true ∧ z.protectingLock = lock

/-- A lock that an access at `a` shares with one at `b` protects every access at the two nodes. -/
def LocksAgree (a b : NodeId) : Prop :=
  ∀ x ∈ o.accesses, x.nodeId = a → ∀ y ∈ o.accesses, y.nodeId = b →
    x.locked = true → y.locked = true → x.protectingLock = y.protectingLock →
      ∀ z ∈ o.accesses, z.nodeId = a ∨ z.nodeId = b →
        z.isLockProtected = true ∧ z.protectingLock = x.protectingLock

/-- All accesses at the node are frees, or none is. -/
def FreesAgree (n : NodeId) : Prop :=
  ∀ x ∈ o.accesses, x.nodeId = n → x.accessType = .free →
    ∀ z ∈ o.accesses, z.nodeId = n → z.accessType = .free

/-- The lock fields depend on the node only, as `collectSharedObjects` computes them. -/
def LocksByNode : Prop :=
  ∀ x ∈ o.accesses, ∀ y ∈ o.accesses, x.nodeId = y.nodeId →
    x.isLockProtected = y.isLockProtected ∧ x.protectingLock = y.protectingLock

variable {o} {l : List ThreadAccess} {a b n : NodeId} {x y : ThreadAccess}

/-- What holds of the accesses at a node holds of them in every order. -/
theorem lastAccess_eq_some_imp (hl : l.Perm o.accesses) (h : (o.reorder l).lastAccess n = some x) :
    x ∈ o.accesses ∧ x.nodeId = n := by
  have hmem := List.mem_of_find?_eq_some h
  exact ⟨hl.mem_iff.mp (List.mem_reverse.mp hmem), by simpa using List.find?_some h⟩

/-- A node with an access has a last one, in every order. -/
theorem exists_lastAccess (hl : l.Perm o.accesses) (hx : x ∈ o.accesses) (hn : x.nodeId = n) :
    ∃ y, (o.reorder l).lastAccess n = some y := by
  apply Option.isSome_iff_exists.mp
  rw [lastAccess, List.find?_isSome]
  exact ⟨x, List.mem_reverse.mpr (hl.mem_iff.mpr hx), by simpa using hn⟩

/-- `sameLockCovers` compares the last accesses of the two nodes. -/
theorem sameLockCovers_iff : sameLockCovers (some o) a b = true ↔
    ∃ x y, o.lastAccess a = some x ∧ o.lastAccess b = some y ∧ x.locked = true ∧
      y.locked = true ∧ x.protectingLock = y.protectingLock := by
  unfold sameLockCovers
  cases ha : o.lastAccess a with
  | none => simp [ha]
  | some x =>
    cases hb : o.lastAccess b with
    | none => simp [ha, hb]
    | some y =>
      simp only [ThreadAccess.locked, Bool.and_eq_true, Bool.not_eq_true', decide_eq_true_eq, ha,
        hb, Option.some.injEq]
      constructor
      · rintro ⟨⟨⟨hx, hy⟩, hne⟩, heq⟩
        exact ⟨x, y, rfl, rfl, ⟨hx, hne⟩, ⟨hy, heq ▸ hne⟩, heq⟩
      · rintro ⟨_, _, rfl, rfl, ⟨hx, hne⟩, ⟨hy, -⟩, heq⟩
        exact ⟨⟨⟨hx, hy⟩, hne⟩, heq⟩

/-- Any two locked accesses that share their lock are the ones `sameLockCovers` compares, in some
order of the list. -/
theorem exists_sameLockCovers (hx : x ∈ o.accesses) (hxa : x.nodeId = a) (hy : y ∈ o.accesses)
    (hyb : y.nodeId = b) (hxl : x.locked = true) (hyl : y.locked = true)
    (hlock : x.protectingLock = y.protectingLock) :
    ∃ l, l.Perm o.accesses ∧ sameLockCovers (some (o.reorder l)) a b = true := by
  by_cases hab : a = b
  · -- At one node the same access is compared with itself.
    subst hab
    obtain ⟨l, hl, hfind⟩ :=
      exists_perm_find?_eq (p := fun z : ThreadAccess => z.nodeId = a) hx (by simpa using hxa)
    have hlast : (o.reorder l.reverse).lastAccess a = some x := by
      rw [lastAccess, reorder, List.reverse_reverse]
      exact hfind
    exact ⟨l.reverse, (List.reverse_perm l).trans hl,
      sameLockCovers_iff.mpr ⟨x, x, hlast, hlast, hxl, hxl, rfl⟩⟩
  · have hya : y.nodeId ≠ a := fun h => hab (h.symm.trans hyb)
    obtain ⟨l, hl, hfinda, hfindb⟩ := exists_perm_find?_eq_find?_eq
      (p := fun z : ThreadAccess => z.nodeId = a) (q := fun z : ThreadAccess => z.nodeId = b)
      hx (by simpa using hxa) hy (by simpa using hyb) (by simpa using hya)
    refine ⟨l.reverse, (List.reverse_perm l).trans hl,
      sameLockCovers_iff.mpr ⟨x, y, ?_, ?_, hxl, hyl, hlock⟩⟩
    · rw [lastAccess, reorder, List.reverse_reverse]
      exact hfinda
    · rw [lastAccess, reorder, List.reverse_reverse]
      exact hfindb

/-- If the locks agree, `sameLockCovers` answers in every order what it answers in one. -/
theorem sameLockCovers_reorder_of_locksAgree (h : o.LocksAgree a b) {l l' : List ThreadAccess}
    (hl : l.Perm o.accesses) (hl' : l'.Perm o.accesses)
    (hcov : sameLockCovers (some (o.reorder l)) a b = true) :
    sameLockCovers (some (o.reorder l')) a b = true := by
  obtain ⟨x, y, hx, hy, hxl, hyl, hlock⟩ := sameLockCovers_iff.mp hcov
  obtain ⟨hxmem, hxa⟩ := lastAccess_eq_some_imp hl hx
  obtain ⟨hymem, hyb⟩ := lastAccess_eq_some_imp hl hy
  have hall := h x hxmem hxa y hymem hyb hxl hyl hlock
  have hne : x.protectingLock.isEmpty = false := by
    simpa using (Bool.and_eq_true_iff.mp hxl).2
  obtain ⟨x', hx'⟩ := exists_lastAccess hl' hxmem hxa
  obtain ⟨y', hy'⟩ := exists_lastAccess hl' hymem hyb
  obtain ⟨hx'mem, hx'a⟩ := lastAccess_eq_some_imp hl' hx'
  obtain ⟨hy'mem, hy'b⟩ := lastAccess_eq_some_imp hl' hy'
  obtain ⟨hx'p, hx'l⟩ := hall x' hx'mem (Or.inl hx'a)
  obtain ⟨hy'p, hy'l⟩ := hall y' hy'mem (Or.inr hy'b)
  exact sameLockCovers_iff.mpr ⟨x', y', hx', hy', by simp [ThreadAccess.locked, hx'p, hx'l, hne],
    by simp [ThreadAccess.locked, hy'p, hy'l, hne], hx'l.trans hy'l.symm⟩

/-- `sameLockCovers` is independent of the order and only takes a common lock for one, exactly if
the locks at the two nodes agree. -/
theorem sameLockCovers_reorder_iff :
    (∀ l, l.Perm o.accesses →
      sameLockCovers (some (o.reorder l)) a b = sameLockCovers (some o) a b ∧
        (sameLockCovers (some (o.reorder l)) a b = true → o.CommonLock a b)) ↔
      o.LocksAgree a b := by
  constructor
  · intro h x hx hxa y hy hyb hxl hyl hlock z hz hzab
    obtain ⟨l, hl, hcov⟩ := exists_sameLockCovers hx hxa hy hyb hxl hyl hlock
    obtain ⟨lock, hcommon⟩ := (h l hl).2 hcov
    obtain ⟨hzp, hzl⟩ := hcommon z hz hzab
    exact ⟨hzp, hzl.trans (hcommon x hx (Or.inl hxa)).2.symm⟩
  · intro h l hl
    refine ⟨Bool.eq_iff_iff.mpr ⟨fun hcov => ?_, fun hcov => ?_⟩, fun hcov => ?_⟩
    · exact sameLockCovers_reorder_of_locksAgree h hl (List.Perm.refl _) hcov
    · exact sameLockCovers_reorder_of_locksAgree h (List.Perm.refl _) hl hcov
    · obtain ⟨x, y, hx, hy, hxl, hyl, hlock⟩ := sameLockCovers_iff.mp hcov
      obtain ⟨hxmem, hxa⟩ := lastAccess_eq_some_imp hl hx
      obtain ⟨hymem, hyb⟩ := lastAccess_eq_some_imp hl hy
      exact ⟨x.protectingLock, h x hxmem hxa y hymem hyb hxl hyl hlock⟩

/-- `accTypeOfNode` answers with the type of an access at the node, and any of them in some
order. -/
theorem accTypeOfNode_reorder (hl : l.Perm o.accesses) {t : AccessType}
    (h : accTypeOfNode (some (o.reorder l)) n = some t) :
    ∃ x ∈ o.accesses, x.nodeId = n ∧ x.accessType = t := by
  obtain ⟨x, hx, ht⟩ := Option.map_eq_some_iff.mp h
  exact ⟨x, hl.mem_iff.mp (List.mem_of_find?_eq_some hx), by simpa using List.find?_some hx, ht⟩

/-- `accTypeOfNode` reports a free at a node with one in every order, exactly if the accesses at
the node are all frees or none is. -/
theorem accTypeOfNode_reorder_iff :
    (∀ l, l.Perm o.accesses → (∃ x ∈ o.accesses, x.nodeId = n ∧ x.accessType = .free) →
      accTypeOfNode (some (o.reorder l)) n = some .free) ↔ o.FreesAgree n := by
  constructor
  · intro h x hx hxn hfree z hz hzn
    -- Any access at the node can be put in front of the others there.
    obtain ⟨l, hl, hfind⟩ :=
      exists_perm_find?_eq (p := fun w : ThreadAccess => w.nodeId = n) hz (by simpa using hzn)
    have htype : accTypeOfNode (some (o.reorder l)) n = some z.accessType := by
      show ((l.find? fun w => w.nodeId = n).map ThreadAccess.accessType) = _
      rw [hfind]
      rfl
    exact Option.some.inj (htype.symm.trans (h l hl ⟨x, hx, hxn, hfree⟩))
  · rintro h l hl ⟨x, hx, hxn, hfree⟩
    have hsome : (l.find? fun w => w.nodeId = n).isSome = true :=
      List.find?_isSome.mpr ⟨x, hl.mem_iff.mpr hx, by simpa using hxn⟩
    obtain ⟨z, hz⟩ := Option.isSome_iff_exists.mp hsome
    have htype : accTypeOfNode (some (o.reorder l)) n = some z.accessType := by
      show ((l.find? fun w => w.nodeId = n).map ThreadAccess.accessType) = _
      rw [hz]
      rfl
    obtain ⟨w, hw, hwn, hwt⟩ := accTypeOfNode_reorder hl htype
    rw [htype, ← hwt, h x hx hxn hfree w hw hwn]

/-- When the readers of the accesses at a node are sound and independent of the order: exactly if a
lock shared between the two nodes protects every access there, and the accesses at a node are all
frees or none is. -/
theorem nodeAccesses_iff (o : SharedObject) (a b n : NodeId) :
    ((∀ l, l.Perm o.accesses →
        sameLockCovers (some (o.reorder l)) a b = sameLockCovers (some o) a b ∧
          (sameLockCovers (some (o.reorder l)) a b = true → o.CommonLock a b)) ∧
      (∀ l, l.Perm o.accesses → (∃ x ∈ o.accesses, x.nodeId = n ∧ x.accessType = .free) →
        accTypeOfNode (some (o.reorder l)) n = some .free)) ↔
      o.LocksAgree a b ∧ o.FreesAgree n :=
  and_congr sameLockCovers_reorder_iff accTypeOfNode_reorder_iff

/-! ### The lists of the surface -/

/-- Lock fields that depend on the node only agree. -/
theorem locksAgree_of_locksByNode (h : o.LocksByNode) : o.LocksAgree a b := by
  intro x hx hxa y hy hyb hxl hyl hlock z hz hzab
  have hxp := (Bool.and_eq_true_iff.mp hxl).1
  have hyp := (Bool.and_eq_true_iff.mp hyl).1
  rcases hzab with hza | hzb
  · obtain ⟨hp, hl⟩ := h z hz x hx (hza.trans hxa.symm)
    exact ⟨hp.trans hxp, hl⟩
  · obtain ⟨hp, hl⟩ := h z hz y hy (hzb.trans hyb.symm)
    exact ⟨hp.trans hyp, hl.trans hlock.symm⟩

/-- The second instance of a thread keeps the lock fields. -/
theorem LocksByNode.materializeSibling (h : o.LocksByNode) (root : Tid) :
    (o.materializeSibling root).LocksByNode := by
  -- An access of the second instance has the fields of the access it duplicates.
  have hsource : ∀ x ∈ (o.materializeSibling root).accesses, ∃ x' ∈ o.accesses,
      x'.nodeId = x.nodeId ∧ x'.isLockProtected = x.isLockProtected ∧
        x'.protectingLock = x.protectingLock := by
    intro x hx
    rcases mem_accesses_materializeSibling.mp hx with hx | ⟨x', hx', -, rfl⟩
    · exact ⟨x, hx, rfl, rfl, rfl⟩
    · exact ⟨x', hx', rfl, rfl, rfl⟩
  intro x hx y hy hxy
  obtain ⟨x', hx', hxn, hxp, hxl⟩ := hsource x hx
  obtain ⟨y', hy', hyn, hyp, hyl⟩ := hsource y hy
  obtain ⟨hp, hl⟩ := h x' hx' y' hy' ((hxn.trans hxy).trans hyn.symm)
  exact ⟨(hxp.symm.trans hp).trans hyp, (hxl.symm.trans hl).trans hyl⟩

/-! ### Accesses that disagree -/

/-- A statement that reads the object's field and frees it, recorded as two accesses of one thread,
and another node with an access under a lock and one without. -/
def mixedAccesses : SharedObject where
  accesses :=
    [⟨1, .read, 10, "kfree(dev->buf)", false, ""⟩,
      ⟨1, .free, 10, "kfree(dev->buf)", false, ""⟩,
      ⟨1, .write, 20, "dev->n = 0", false, ""⟩,
      ⟨2, .write, 20, "dev->n = 0", true, "mutex_lock(&dev->m)"⟩]
  isSelfRace := false
  accessingThreadIds := ⟨[1, 2], TidSet.sorted_one_two⟩

/-- The free at node 10 is reported as a read; and node 20 counts as covered by a lock that one of
its accesses does not hold, in this order of the list but not in the reverse one. -/
theorem mixedAccesses_disagree :
    accTypeOfNode (some mixedAccesses) 10 = some .read ∧
      (∃ x ∈ mixedAccesses.accesses, x.nodeId = 10 ∧ x.accessType = .free) ∧
      sameLockCovers (some mixedAccesses) 20 20 = true ∧
      sameLockCovers (some (mixedAccesses.reorder mixedAccesses.accesses.reverse)) 20 20 = false ∧
      (∃ x ∈ mixedAccesses.accesses, x.nodeId = 20 ∧ x.isLockProtected = false) := by
  decide

end SharedObject

end Lace
