import Mathlib.Data.List.Nodup
import Mathlib.Data.List.Pairwise

/-!
# Batches

A list is cut into chunks of a fixed size. A loop takes the elements that are wanted, one after the
other, until so many are taken; it stops at the next element then.

## Main definitions

* `chunks`: the chunks of a list;
* `cappedLoop`: the loop, with the elements taken and whether it stopped.

## Main results

* `flatten_chunks`: the chunks make up the list;
* `eq_of_mem_chunks`: an element that occurs once is in one chunk;
* `cappedLoop_of_not_stopped`: what is taken if the loop does not stop;
* `cappedLoop_stopped_iff`: when it stops.
-/

namespace Lace.Library

variable {α : Type*}

/-! ### Chunks -/

section Chunks

variable (n : ℕ) (l : List α)

/-- The chunks of `n` elements, in order. The last one may be shorter. -/
def chunks : List (List α) :=
  (List.range ((l.length + n - 1) / n)).map fun i => (l.drop (i * n)).take n

variable {n l} {x : α} {a b : List α}

/-- The first chunks make up the beginning of the list. -/
theorem flatten_firstChunks (k : ℕ) :
    ((List.range k).map fun i => (l.drop (i * n)).take n).flatten = l.take (k * n) := by
  induction k with
  | zero => simp
  | succ k ih =>
    -- The next chunk goes on where the first ones end.
    rw [List.range_succ, List.map_append, List.flatten_append, ih, Nat.succ_mul, List.take_add]
    simp

theorem flatten_chunks (hn : 0 < n) : (chunks n l).flatten = l := by
  rw [chunks, flatten_firstChunks]
  apply List.take_of_length_le
  -- The number of chunks is the quotient, rounded up.
  have hdiv : l.length + n - 1 < ((l.length + n - 1) / n + 1) * n :=
    Nat.lt_mul_of_div_lt (Nat.lt_succ_self _) hn
  rw [Nat.succ_mul] at hdiv
  omega

theorem exists_mem_chunks_iff (hn : 0 < n) : (∃ a ∈ chunks n l, x ∈ a) ↔ x ∈ l := by
  rw [← List.mem_flatten, flatten_chunks hn]

theorem chunks_ne_nil (hn : 0 < n) (hl : l ≠ []) : chunks n l ≠ [] := by
  intro hnil
  apply hl
  rw [← flatten_chunks (l := l) hn, hnil, List.flatten_nil]

theorem ne_nil_of_mem_chunks (hn : 0 < n) (ha : a ∈ chunks n l) : a ≠ [] := by
  obtain ⟨i, hi, rfl⟩ := List.mem_map.mp ha
  -- The chunk starts inside the list.
  have hlt : i * n < l.length := by
    have hle : (i + 1) * n ≤ l.length + n - 1 :=
      (Nat.le_div_iff_mul_le hn).mp (List.mem_range.mp hi)
    rw [Nat.succ_mul] at hle
    omega
  rw [← List.length_pos_iff, List.length_take, List.length_drop]
  omega

theorem length_le_of_mem_chunks (ha : a ∈ chunks n l) : a.length ≤ n := by
  obtain ⟨i, -, rfl⟩ := List.mem_map.mp ha
  exact List.length_take_le _ _

/-- An element that occurs once is in one chunk. -/
theorem eq_of_mem_chunks (hn : 0 < n) (hl : l.Nodup) (ha : a ∈ chunks n l) (hb : b ∈ chunks n l)
    (hxa : x ∈ a) (hxb : x ∈ b) : a = b := by
  -- Two chunks of a list without repetition have no element in common.
  rw [← flatten_chunks (l := l) hn, List.nodup_flatten] at hl
  by_contra hab
  have : Std.Symm (List.Disjoint (α := α)) := ⟨fun _ _ h _ hx hx' => h hx' hx⟩
  exact hl.2.forall ha hb hab hxa hxb

end Chunks

/-! ### The loop with a cap -/

section Capped

variable (wanted : α → Bool) (cap : ℕ)

/-- The loop, with the elements that are taken so far. Before each element it looks whether there
are enough; the result tells whether there were. -/
def cappedLoop : List α → List α → List α × Bool
  | [], taken => (taken, false)
  | x :: l, taken =>
    if cap ≤ taken.length then (taken, true)
    else cappedLoop l (if wanted x then taken ++ [x] else taken)

variable {wanted cap} {l l' taken : List α}

/-- The loop takes what is wanted if it does not stop. -/
theorem cappedLoop_of_not_stopped (h : (cappedLoop wanted cap l taken).2 = false) :
    (cappedLoop wanted cap l taken).1 = taken ++ l.filter wanted := by
  fun_induction cappedLoop wanted cap l taken with
  | case1 => simp
  | case2 => cases h
  | case3 x l taken _ ih =>
    rw [ih h]
    by_cases hx : wanted x = true
    · simp [hx]
    · simp [hx]

/-- It stops at an element with enough wanted ones before it. -/
theorem cappedLoop_stopped_iff : (cappedLoop wanted cap l taken).2 = true ↔
    ∃ before x after, l = before ++ x :: after ∧ cap ≤ taken.length + before.countP wanted := by
  fun_induction cappedLoop wanted cap l taken with
  | case1 => simp
  | case2 x l taken hcap => exact ⟨fun _ => ⟨[], x, l, rfl, by simpa using hcap⟩, fun _ => rfl⟩
  | case3 x l taken hcap ih =>
    rw [ih]
    -- The first element counts if it is taken.
    have hcount : ∀ before : List α, (if wanted x then taken ++ [x] else taken).length +
        before.countP wanted = taken.length + (x :: before).countP wanted := by
      intro before
      by_cases hx : wanted x = true
      · simp [hx, Nat.add_assoc, Nat.add_comm 1]
      · simp [hx]
    constructor
    · rintro ⟨before, y, after, rfl, hle⟩
      exact ⟨x :: before, y, after, rfl, hcount before ▸ hle⟩
    · rintro ⟨before, y, after, heq, hle⟩
      rcases before with - | ⟨z, before⟩
      · -- There is not enough before the first element.
        exact absurd (by simpa using hle) hcap
      · obtain ⟨rfl, rfl⟩ := List.cons.inj heq
        exact ⟨before, y, after, rfl, (hcount before).symm ▸ hle⟩

/-- If it stops, enough is taken. -/
theorem cap_le_of_stopped (h : (cappedLoop wanted cap l taken).2 = true) :
    cap ≤ (cappedLoop wanted cap l taken).1.length := by
  fun_induction cappedLoop wanted cap l taken with
  | case1 => cases h
  | case2 _ _ _ hcap => exact hcap
  | case3 _ _ _ _ ih => exact ih h

/-- A second list is looked at if the loop did not stop in the first one. -/
theorem cappedLoop_append : cappedLoop wanted cap (l ++ l') taken =
    if (cappedLoop wanted cap l taken).2 then cappedLoop wanted cap l taken
    else cappedLoop wanted cap l' (cappedLoop wanted cap l taken).1 := by
  fun_induction cappedLoop wanted cap l taken with
  | case1 => rfl
  | case2 x l taken hcap => rw [List.cons_append, cappedLoop, if_pos hcap, if_pos rfl]
  | case3 x l taken hcap ih => rw [List.cons_append, cappedLoop, if_neg hcap, ih]

end Capped

end Lace.Library
