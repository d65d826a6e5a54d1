import Lace.LockSet.Semantics

/-!
# One turn of the lockset analysis

How the lock objects and locksets of the analysis follow the reference semantics: the operation
of a node on its lockset, and what the successors of the node receive.

## Main results

* `LocksAt.applyOps`: the operation of a node follows the reference semantics, unless it gives
  back a lock that was given back before;
* `foldl_passTo_unvisited`, `mem_foldl_passTo`: what successors receive.
-/

namespace Lace.LockProgram

open Library.Traversal (before)

variable {P : LockProgram} {A : HeapLayout} {n m x r : NodeId} {vis : List NodeId}

/-! ### Lists -/

section Lists

variable {α β : Type*} {l : List α} {p q : α → Bool} {a : α}

theorem find?_eq_some_of_imp (h : l.find? p = some a) (ha : q a = true)
    (hqp : ∀ x ∈ l, q x = true → p x = true) : l.find? q = some a := by
  rw [List.find?_eq_some_iff_append] at h ⊢
  obtain ⟨-, as, bs, hl, has⟩ := h
  refine ⟨ha, as, bs, hl, fun x hx => ?_⟩
  have hxl : x ∈ l := by simp [hl, hx]
  have hpx := has x hx
  cases hqx : q x with
  | false => rfl
  | true =>
      rw [hqp x hxl hqx] at hpx
      exact hpx

theorem find?_eq_none_of_imp (h : l.find? p = none) (hqp : ∀ x ∈ l, q x = true → p x = true) :
    l.find? q = none := by
  rw [List.find?_eq_none] at h ⊢
  exact fun x hx hqx => h x hx (hqp x hx hqx)

variable [DecidableEq α] [DecidableEq β]

/-- Without duplicates the last occurrence is the first one. -/
theorem reverse_erase_reverse (hl : l.Nodup) : (l.reverse.erase a).reverse = l.erase a := by
  rw [(List.nodup_reverse.mpr hl).erase_eq_filter, hl.erase_eq_filter, List.filter_reverse,
    List.reverse_reverse]

/-- Renaming goes through taking an element away. -/
theorem map_erase_of_inj {g : α → β} (hinj : ∀ x ∈ l, g x = g a → x = a) :
    (l.erase a).map g = (l.map g).erase (g a) := by
  induction l with
  | nil => rfl
  | cons x l ih =>
      have ih := ih fun y hy => hinj y (List.mem_cons_of_mem _ hy)
      by_cases hx : x = a
      · simp [hx]
      · have hgx : g x ≠ g a := fun h => hx (hinj x (by simp) h)
        rw [List.erase_cons_tail (by simpa using hx), List.map_cons, ih, List.map_cons,
          List.erase_cons_tail (by simpa using hgx)]

end Lists

/-! ### Lock objects -/

/-- The lock objects after the nodes `vis` were processed: one for every acquisition, which has
recorded a release exactly when the lock was given back. -/
structure LocksAt (P : LockProgram) (A : HeapLayout) (vis : List NodeId) (locks : List Lock) :
    Prop where
  length_eq : locks.length = (P.acquired vis).length
  lock : ∀ x ∈ P.acquired vis, ∃ l, locks[P.lockNo vis x]? = some l ∧
    P.acquireAt x = some l.acquire ∧
      (l.release.isSome = true ↔ ∃ q ∈ vis, P.givenAt A vis q = some x)

/-- Acquires have different numbers. -/
theorem lockNo_inj {y : NodeId} (hx : x ∈ P.acquired vis) (h : P.lockNo vis x = P.lockNo vis y) :
    x = y :=
  (List.idxOf_inj hx).mp h

/-- The numbers of the acquires are below their count. -/
theorem lockNo_lt (hx : x ∈ P.acquired vis) : P.lockNo vis x < (P.acquired vis).length :=
  List.idxOf_lt_length_iff.mpr hx

/-- The next lock gets the next number. -/
theorem lockNo_cons_self (hm : m ∉ vis) (hacq : (P.acquireAt m).isSome = true) :
    P.lockNo (m :: vis) m = (P.acquired vis).length := by
  have hnot : m ∉ P.acquired vis := fun h => hm (mem_acquired.mp h).1
  rw [lockNo, acquired_cons, List.idxOf_append_of_notMem hnot]
  simp [hacq]

/-- Processed nodes keep the numbers of the locks they hold. -/
theorem map_lockNo_cons {h : List NodeId} (hh : ∀ x ∈ h, x ∈ P.acquired vis) :
    h.map (P.lockNo (m :: vis)) = h.map (P.lockNo vis) :=
  List.map_congr_left fun x hx => lockNo_cons (hh x hx)

/-- A lock object never changes its acquire node. -/
theorem acquire_foldl_applyOp {ops : List LockOp} {c : List Lock × List ℕ} {i : ℕ} {a : NodeId}
    (hi : c.1[i]?.map Lock.acquire = some a) :
    (ops.foldl P.applyOp c).1[i]?.map Lock.acquire = some a := by
  induction ops generalizing c with
  | nil => exact hi
  | cons op ops ih =>
      apply ih
      have hlt : i < c.1.length := by
        by_contra hge
        rw [List.getElem?_eq_none (not_lt.mp hge)] at hi
        cases hi
      cases op with
      | acquire b => simpa [applyOp, List.getElem?_append_left hlt] using hi
      | release r =>
          rw [applyOp]
          cases hfind : c.2.reverse.find? (P.releasable c.1 r) with
          | none => exact hi
          | some j =>
              -- Only the release node of a lock is set.
              simp only [List.getElem?_modify]
              obtain ⟨l, hl, rfl⟩ := Option.map_eq_some_iff.mp hi
              rw [hl]
              by_cases hij : j = i <;> simp [hij]

/-- The processed nodes that give back a lock, when `m` was processed last. -/
theorem exists_givenAt_cons (hm : m ∉ vis) :
    (∃ q ∈ m :: vis, P.givenAt A (m :: vis) q = some x) ↔
      P.given m (P.arrival A vis m) = some x ∨ ∃ q ∈ vis, P.givenAt A vis q = some x := by
  have hne : ∀ q ∈ vis, q ≠ m := fun q hq heq => hm (heq ▸ hq)
  rw [List.exists_mem_cons_iff, givenAt_cons_self]
  refine or_congr_right (exists_congr fun q => and_congr_right fun hq => ?_)
  rw [givenAt_cons (hne q hq)]

namespace LocksAt

variable {locks : List Lock} {h : List NodeId}

/-- Whether a release finds a held lock, depends on what the lock has recorded. -/
theorem releasable_iff (hlocks : P.LocksAt A vis locks) (hx : x ∈ P.acquired vis) :
    P.releasable locks r (P.lockNo vis x) = true ↔
      P.GivesBack r x = true ∧ ∀ q ∈ vis, P.givenAt A vis q ≠ some x := by
  obtain ⟨l, hl, hacq, hrel⟩ := hlocks.lock x hx
  rw [releasable, hl, GivesBack, hacq]
  simp only [Bool.and_eq_true, Option.isNone_iff_eq_none, Option.any_some]
  rw [and_comm]
  refine and_congr_right fun _ => ?_
  rw [← Option.not_isSome_iff_eq_none, hrel]
  simp only [not_exists, not_and, ne_eq]

/-- A node without an operation that has an effect. -/
theorem cons_of_given_eq_none (hlocks : P.LocksAt A vis locks) (hm : m ∉ vis)
    (hacq : P.acquireAt m = none) (hgiven : P.given m (P.arrival A vis m) = none) :
    P.LocksAt A (m :: vis) locks := by
  have hsame : P.acquired (m :: vis) = P.acquired vis := by
    rw [acquired_cons, hacq]
    simp
  refine ⟨by rw [hsame]; exact hlocks.length_eq, fun y hy => ?_⟩
  rw [hsame] at hy
  obtain ⟨l, hl, hlacq, hrel⟩ := hlocks.lock y hy
  refine ⟨l, by rwa [lockNo_cons hy], hlacq, hrel.trans ?_⟩
  rw [exists_givenAt_cons hm, hgiven]
  simp

/-- An acquisition creates a lock object that has recorded no release. -/
theorem cons_of_acquire {a : NodeId} (hlocks : P.LocksAt A vis locks) (hm : m ∉ vis)
    (hacq : P.acquireAt m = some a) :
    P.LocksAt A (m :: vis) (locks ++ [⟨locks.length + 1, a, none⟩]) := by
  have hop : P.op m = some (.acquire a) := acquireAt_eq_some.mp hacq
  have hgiven : ∀ h, P.given m h = none := fun h => by rw [given, hop]
  have hsome : (P.acquireAt m).isSome = true := by simp [hacq]
  have hcons : P.acquired (m :: vis) = P.acquired vis ++ [m] := by
    rw [acquired_cons, if_pos hsome]
  refine ⟨by simp [hcons, hlocks.length_eq], fun y hy => ?_⟩
  rw [exists_givenAt_cons hm, hgiven]
  simp only [reduceCtorEq, false_or]
  -- The older acquisitions keep their lock objects; `m` gets a new one at the end.
  by_cases hy' : y ∈ P.acquired vis
  · obtain ⟨l, hl, hlacq, hrel⟩ := hlocks.lock y hy'
    refine ⟨l, ?_, hlacq, hrel⟩
    rw [lockNo_cons hy', List.getElem?_append_left, hl]
    rw [hlocks.length_eq]
    exact lockNo_lt hy'
  · obtain rfl : y = m := by
      rw [hcons] at hy
      exact List.mem_singleton.mp ((List.mem_append.mp hy).resolve_left hy')
    refine ⟨⟨locks.length + 1, a, none⟩, ?_, hacq, ?_⟩
    · rw [lockNo_cons_self hm hsome, ← hlocks.length_eq]
      exact List.getElem?_concat_length
    · -- a lock that is acquired now was not held by any processed node
      simp only [Option.isSome_none, Bool.false_eq_true, false_iff, not_exists, not_and]
      intro q _ hgiven
      have hmem := mem_acquired.mp (mem_acquired_of_mem_arrival (mem_of_given hgiven))
      exact hm (Library.Traversal.before_subset hmem.1)

/-- A release is recorded by the lock that is given back. -/
theorem cons_of_given {a : NodeId} (hlocks : P.LocksAt A vis locks) (hm : m ∉ vis)
    (hacq : P.acquireAt m = none) (hgiven : P.given m (P.arrival A vis m) = some x) :
    P.LocksAt A (m :: vis)
      (locks.modify (P.lockNo vis x) fun l => { l with release := some a }) := by
  have hsame : P.acquired (m :: vis) = P.acquired vis := by
    rw [acquired_cons, hacq]
    simp
  refine ⟨by rw [hsame, List.length_modify]; exact hlocks.length_eq, fun y hy => ?_⟩
  rw [hsame] at hy
  obtain ⟨l, hl, hlacq, hrel⟩ := hlocks.lock y hy
  rw [exists_givenAt_cons hm, hgiven, lockNo_cons hy, List.getElem?_modify, hl]
  -- The lock that is given back gets its release, the others stay as they are.
  by_cases hxy : x = y
  · subst hxy
    exact ⟨{ l with release := some a }, by simp, hlacq, by simp⟩
  · have hno : P.lockNo vis x ≠ P.lockNo vis y := fun h => hxy (lockNo_inj hy h.symm).symm
    exact ⟨l, by simp [hno], hlacq, by simpa [hxy] using hrel⟩

/-- A release follows the reference semantics: the analysis releases the lock that is given back,
unless that was given back before. -/
theorem applyOp_release (hlocks : P.LocksAt A vis locks) (hm : m ∉ vis) (hvis : vis.Nodup)
    {r : NodeId} (hop : P.op m = some (.release r))
    (hfresh : ∀ x, P.given m (P.arrival A vis m) = some x → ∀ q ∈ vis, P.givenAt A vis q ≠ some x) :
    P.LocksAt A (m :: vis)
      (P.applyOp (locks, (P.arrival A vis m).map (P.lockNo vis)) (.release r)).1 ∧
    (P.applyOp (locks, (P.arrival A vis m).map (P.lockNo vis)) (.release r)).2 =
      (P.post m (P.arrival A vis m)).map (P.lockNo (m :: vis)) := by
  have hh : ∀ x ∈ P.arrival A vis m, x ∈ P.acquired vis := fun x => mem_acquired_of_mem_arrival
  have hnodup : (P.arrival A vis m).Nodup := nodup_arrival hvis
  generalize harr : P.arrival A vis m = h at hfresh hh hnodup
  have hacq : P.acquireAt m = none := by rw [acquireAt, hop]
  -- What the analysis can release, the release may give back.
  have himp : ∀ x ∈ h.reverse, (P.releasable locks r ∘ P.lockNo vis) x = true →
      P.GivesBack r x = true := fun x hx hrel =>
    (hlocks.releasable_iff (hh x (List.mem_reverse.mp hx))).mp hrel |>.1
  have hgiven : P.given m h = h.reverse.find? (P.GivesBack r) := by rw [given, hop]
  rw [post_of_not_acquire hacq]
  simp only [applyOp]
  rw [← List.map_reverse, List.find?_map]
  cases hfind : h.reverse.find? (P.GivesBack r) with
  | none =>
      rw [hfind] at hgiven
      rw [find?_eq_none_of_imp hfind himp, hgiven]
      exact ⟨hlocks.cons_of_given_eq_none hm hacq (harr ▸ hgiven), (map_lockNo_cons hh).symm⟩
  | some x =>
      rw [hfind] at hgiven
      have hx : x ∈ h := mem_of_given hgiven
      -- The lock was not given back before, so the analysis can release it.
      have hrel : (P.releasable locks r ∘ P.lockNo vis) x = true :=
        (hlocks.releasable_iff (hh x hx)).mpr ⟨List.find?_some hfind, hfresh x hgiven⟩
      rw [find?_eq_some_of_imp hfind hrel himp, hgiven]
      refine ⟨hlocks.cons_of_given hm hacq (harr ▸ hgiven), ?_⟩
      have hinj : ∀ y ∈ h, P.lockNo vis y = P.lockNo vis x → y = x := fun y hy =>
        lockNo_inj (hh y hy)
      have hmap : (h.map (P.lockNo vis)).Nodup :=
        hnodup.map_on fun y hy z hz => lockNo_inj (hh y hy)
      show ((h.reverse.map (P.lockNo vis)).erase (P.lockNo vis x)).reverse = _
      rw [List.map_reverse, reverse_erase_reverse hmap, ← map_erase_of_inj hinj]
      exact (map_lockNo_cons fun y hy => hh y (List.mem_of_mem_erase hy)).symm

/-- The operation of a node on its lockset follows the reference semantics, provided it does not
give back a lock that was given back before. -/
theorem applyOps (hlocks : P.LocksAt A vis locks) (hvis : (m :: vis).Nodup)
    (hfresh : ∀ x, P.given m (P.arrival A vis m) = some x → ∀ q ∈ vis, P.givenAt A vis q ≠ some x) :
    P.LocksAt A (m :: vis)
      ((P.ops m).foldl P.applyOp (locks, (P.arrival A vis m).map (P.lockNo vis))).1 ∧
    ((P.ops m).foldl P.applyOp (locks, (P.arrival A vis m).map (P.lockNo vis))).2 =
      (P.heldAfter A (m :: vis) m).map (P.lockNo (m :: vis)) := by
  obtain ⟨hm, hvis⟩ := List.nodup_cons.mp hvis
  rw [heldAfter_cons_self, ops_eq]
  have hh : ∀ x ∈ P.arrival A vis m, x ∈ P.acquired vis := fun x => mem_acquired_of_mem_arrival
  cases hop : P.op m with
  | none =>
      have hacq : P.acquireAt m = none := by rw [acquireAt, hop]
      have hgiven : P.given m (P.arrival A vis m) = none := by rw [given, hop]
      rw [post_of_not_acquire hacq, hgiven]
      exact ⟨hlocks.cons_of_given_eq_none hm hacq hgiven, (map_lockNo_cons hh).symm⟩
  | some o =>
    simp only [Option.toList_some, List.foldl_cons, List.foldl_nil]
    cases o with
    | acquire a =>
        -- A lock is created, and its number is the number of locks before it.
        have hacq : P.acquireAt m = some a := acquireAt_eq_some.mpr hop
        refine ⟨hlocks.cons_of_acquire hm hacq, ?_⟩
        rw [post_of_acquire hop, List.map_append, map_lockNo_cons hh, List.map_singleton,
          lockNo_cons_self hm (by simp [hacq]), ← hlocks.length_eq]
        rfl
    | release r => exact hlocks.applyOp_release hm hvis hop hfresh

/-- A release does not find a lock that was given back before, and leaves it in the lockset. -/
theorem mem_applyOps (hlocks : P.LocksAt A vis locks) (hx : x ∈ P.acquired vis)
    {q : NodeId} (hq : q ∈ vis) (hgiven : P.givenAt A vis q = some x) {set : List ℕ}
    (hset : P.lockNo vis x ∈ set) (hop : P.op m = some (.release r)) :
    P.lockNo vis x ∈ ((P.ops m).foldl P.applyOp (locks, set)).2 := by
  rw [ops_eq, hop]
  simp only [Option.toList_some, List.foldl_cons, List.foldl_nil, applyOp]
  cases hfind : set.reverse.find? (P.releasable locks r) with
  | none => exact hset
  | some j =>
      have hj : P.lockNo vis x ≠ j := by
        rintro rfl
        exact ((hlocks.releasable_iff hx).mp (List.find?_some hfind)).2 q hq hgiven
      rw [List.mem_reverse, List.mem_erase_of_ne hj]
      exact List.mem_reverse.mpr hset

end LocksAt

/-! ### Handing on a lockset -/

section PassTo

variable {s : WorkState} {dsts : List NodeId} {i : ℕ}

/-- The locks of a set, sorted by address. -/
def sortLocks (A : HeapLayout) (set : List ℕ) : List ℕ :=
  set.insertionSort fun i j => A.lockAddr i ≤ A.lockAddr j

/-- Merging keeps all locks of both sides. -/
theorem mem_mergeLocks {dst cur : List ℕ} : i ∈ mergeLocks A dst cur ↔ i ∈ dst ∨ i ∈ cur := by
  rw [mergeLocks, (List.perm_insertionSort _ _).mem_iff, List.mem_dedup, List.mem_append]

/-- Merging doubles no lock. -/
theorem nodup_mergeLocks {dst cur : List ℕ} : (mergeLocks A dst cur).Nodup :=
  (List.perm_insertionSort _ _).nodup_iff.mpr (List.nodup_dedup _)

/-- Merging a lockset with itself sorts it. -/
theorem mergeLocks_self {set : List ℕ} (hset : set.Nodup) :
    mergeLocks A set set = sortLocks A set := by
  rw [mergeLocks, List.Subset.dedup_append_right (List.Subset.refl set), hset.dedup, sortLocks]

/-- Sorting twice is sorting once. -/
theorem sortLocks_sortLocks {set : List ℕ} : sortLocks A (sortLocks A set) = sortLocks A set :=
  (List.pairwise_insertionSort _ _).insertionSort_eq

/-- Sorting keeps a list without doubles. -/
theorem nodup_sortLocks {set : List ℕ} : (sortLocks A set).Nodup ↔ set.Nodup :=
  (List.perm_insertionSort _ _).nodup_iff

/-- Passing locks on visits nothing. -/
@[simp]
theorem passTo_visited : (passTo A m s n).visited = s.visited := by
  unfold passTo
  split_ifs <;> rfl

/-- Passing locks on makes no lock. -/
@[simp]
theorem passTo_locks : (passTo A m s n).locks = s.locks := by
  unfold passTo
  split_ifs <;> rfl

/-- Passing locks on changes the set of the target only. -/
theorem passTo_sets_of_ne (hx : x ≠ n) : (passTo A m s n).nodeLockSets x = s.nodeLockSets x := by
  unfold passTo
  split_ifs <;> exact Function.update_of_ne hx _ _

/-- What the successor holds after it received the lockset. -/
theorem passTo_sets_self : (passTo A m s n).nodeLockSets n =
    if n ∈ s.visited then mergeLocks A (s.nodeLockSets n) (s.nodeLockSets m)
    else s.nodeLockSets m := by
  unfold passTo
  split_ifs <;> exact Function.update_self _ _ _

/-- Passing locks on to all successors visits nothing. -/
@[simp]
theorem foldl_passTo_visited : (dsts.foldl (passTo A m) s).visited = s.visited := by
  induction dsts generalizing s with
  | nil => rfl
  | cons n dsts ih => rw [List.foldl_cons, ih, passTo_visited]

/-- Nor does it make a lock. -/
@[simp]
theorem foldl_passTo_locks : (dsts.foldl (passTo A m) s).locks = s.locks := by
  induction dsts generalizing s with
  | nil => rfl
  | cons n dsts ih => rw [List.foldl_cons, ih, passTo_locks]

/-- It changes the sets of the successors only. -/
theorem foldl_passTo_of_notMem (hn : n ∉ dsts) :
    (dsts.foldl (passTo A m) s).nodeLockSets n = s.nodeLockSets n := by
  induction dsts generalizing s with
  | nil => rfl
  | cons d dsts ih =>
      obtain ⟨hne, hn⟩ := not_or.mp (mt List.mem_cons.mpr hn)
      rw [List.foldl_cons, ih hn, passTo_sets_of_ne hne]

/-- An `ORDER` self-loop sorts the lockset that is handed on. -/
theorem foldl_passTo_self (hm : m ∈ s.visited) (hnodup : (s.nodeLockSets m).Nodup) :
    (dsts.foldl (passTo A m) s).nodeLockSets m =
      if m ∈ dsts then sortLocks A (s.nodeLockSets m) else s.nodeLockSets m := by
  induction dsts using List.reverseRecOn with
  | nil => simp
  | append_singleton dsts d ih =>
      rw [List.foldl_append, List.foldl_cons, List.foldl_nil]
      by_cases hd : m = d
      · subst hd
        -- Merging a lockset with itself sorts it, once and for all.
        rw [passTo_sets_self, foldl_passTo_visited, if_pos hm, ih,
          if_pos (List.mem_append_right dsts (List.mem_singleton_self m))]
        split_ifs
        · rw [mergeLocks_self (nodup_sortLocks.mpr hnodup), sortLocks_sortLocks]
        · rw [mergeLocks_self hnodup]
      · rw [passTo_sets_of_ne hd, ih]
        simp [hd]

/-- A successor that was not processed yet receives the lockset as the last edge to it finds it. -/
theorem foldl_passTo_unvisited (hm : m ∈ s.visited) (hnodup : (s.nodeLockSets m).Nodup)
    (hn : n ∉ s.visited) (hmem : n ∈ dsts) :
    (dsts.foldl (passTo A m) s).nodeLockSets n =
      if m ∈ dsts.reverse.dropWhile (· ≠ n) then sortLocks A (s.nodeLockSets m)
      else s.nodeLockSets m := by
  induction dsts using List.reverseRecOn with
  | nil => cases hmem
  | append_singleton dsts d ih =>
      rw [List.foldl_append, List.foldl_cons, List.foldl_nil, List.reverse_append,
        List.reverse_singleton, List.singleton_append]
      by_cases hd : n = d
      · subst hd
        -- The last edge to `n` replaces what earlier ones have given it.
        have hmn : m ≠ n := fun h => hn (h ▸ hm)
        rw [passTo_sets_self, foldl_passTo_visited, if_neg hn, foldl_passTo_self hm hnodup,
          List.dropWhile_cons_of_neg (by simp)]
        simp [hmn]
      · rw [passTo_sets_of_ne hd, List.dropWhile_cons_of_pos (by simpa using Ne.symm hd)]
        exact ih ((List.mem_append.mp hmem).resolve_right fun h => hd (List.mem_singleton.mp h))

/-- A processed successor receives the locks in addition to its own. -/
theorem mem_foldl_passTo (hm : m ∈ s.visited) (hn : n ∈ s.visited) :
    i ∈ (dsts.foldl (passTo A m) s).nodeLockSets n ↔
      i ∈ s.nodeLockSets n ∨ n ∈ dsts ∧ i ∈ s.nodeLockSets m := by
  induction dsts using List.reverseRecOn generalizing n with
  | nil => simp
  | append_singleton dsts d ih =>
      rw [List.foldl_append, List.foldl_cons, List.foldl_nil]
      by_cases hd : n = d
      · subst hd
        rw [passTo_sets_self, foldl_passTo_visited, if_pos hn, mem_mergeLocks, ih hn, ih hm]
        simp only [List.mem_append, List.mem_singleton, or_true, true_and]
        tauto
      · rw [passTo_sets_of_ne hd, ih hn]
        simp [hd]

/-- The set of a visited node stays without doubles. -/
theorem nodup_foldl_passTo (hn : n ∈ s.visited) (hnodup : (s.nodeLockSets n).Nodup) :
    ((dsts.foldl (passTo A m) s).nodeLockSets n).Nodup := by
  induction dsts using List.reverseRecOn with
  | nil => exact hnodup
  | append_singleton dsts d ih =>
      rw [List.foldl_append, List.foldl_cons, List.foldl_nil]
      by_cases hd : n = d
      · subst hd
        rw [passTo_sets_self, foldl_passTo_visited, if_pos hn]
        exact nodup_mergeLocks
      · rwa [passTo_sets_of_ne hd]

end PassTo

end Lace.LockProgram
