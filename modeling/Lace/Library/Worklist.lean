import Mathlib.Data.Finset.Card
import Mathlib.Logic.Relation

/-!
# Closure of a set of states with a worklist

A worklist loop takes a state off the list, tests it, and enters its unvisited successors. It
visits everything that is reachable from the initial states, so it answers whether a state that
passes the test is reachable. Which end of the list is taken does not matter for the answer; the
loop here is a stack, the entered states on top.

## Main results

* `card_unvisited_append_le`: what fresh states cost;
* `WorklistProblem.run_returns`: the loop ends by itself, and with enough fuel its answer is the
  same;
* `WorklistProblem.run_eq_true_iff`: with enough fuel the loop answers `true` exactly when a
  state that passes the test is reachable from an initial one.
-/

namespace Lace.Library

/-- A lexicographic measure decreases if its first part does not increase and its second part
decreases. -/
theorem lex_of_le_of_lt {a b c d : ℕ} (hab : a ≤ b) (hcd : c < d) :
    Prod.Lex (· < ·) (· < ·) (a, c) (b, d) := by
  rcases hab.lt_or_eq with hlt | rfl
  · exact Prod.Lex.left _ _ hlt
  · exact Prod.Lex.right _ hcd

/-- The targets of the entries of a table are not more than the entries. -/
theorem card_toFinset_map_le {σ τ : Type*} [DecidableEq τ] (f : σ → τ) (l : List σ) :
    (l.map f).toFinset.card ≤ l.length := by
  have hle := List.toFinset_card_le (l.map f)
  rwa [List.length_map] at hle

/-- Visiting fresh states out of a finite universe pays for their place on the list. -/
theorem card_unvisited_append_le {σ : Type*} [DecidableEq σ] (U : Finset σ) {new vis : List σ}
    (hnodup : new.Nodup) (hU : ∀ t ∈ new, t ∈ U) (hnew : ∀ t ∈ new, t ∉ vis) :
    (U.filter (· ∉ new ++ vis)).card + new.length ≤ (U.filter (· ∉ vis)).card := by
  have hdisj : Disjoint (U.filter (· ∉ new ++ vis)) new.toFinset := by
    rw [Finset.disjoint_left]
    intro t ht htnew
    simp only [Finset.mem_filter, List.mem_append] at ht
    exact ht.2 (Or.inl (List.mem_toFinset.mp htnew))
  rw [← List.toFinset_card_of_nodup hnodup, ← Finset.card_union_of_disjoint hdisj]
  apply Finset.card_le_card
  intro t ht
  rcases Finset.mem_union.mp ht with ht | ht
  · simp only [Finset.mem_filter, List.mem_append, not_or] at ht ⊢
    exact ⟨ht.1, ht.2.2⟩
  · have htnew := List.mem_toFinset.mp ht
    exact Finset.mem_filter.mpr ⟨hU t htnew, hnew t htnew⟩

/-- A worklist closure over the states `σ`. -/
structure WorklistProblem (σ : Type*) where
  /-- The states entered first. -/
  initial : List σ
  /-- The states entered after a state has failed the test. -/
  next : σ → List σ
  /-- The test of a state taken off the list. -/
  goal : σ → Bool

namespace WorklistProblem

variable {σ : Type*} (P : WorklistProblem σ)

/-- `t` is one of the states entered after `s`. -/
def Succ (s t : σ) : Prop := t ∈ P.next s

variable [DecidableEq σ]

/-- Enter the states that are not visited yet: mark them and put them on the stack. -/
def enter : List σ → List σ → List σ → List σ × List σ
  | [], work, vis => (work, vis)
  | t :: ts, work, vis =>
      if t ∈ vis then enter ts work vis else enter ts (t :: work) (t :: vis)

/-- The worklist loop. `fuel` bounds the number of states taken off the list. -/
def loop : ℕ → List σ → List σ → Bool
  | 0, _, _ => false
  | _ + 1, [], _ => false
  | fuel + 1, s :: work, vis =>
      if P.goal s then true
      else loop fuel (enter (P.next s) work vis).1 (enter (P.next s) work vis).2

/-- The whole computation: enter the initial states, then loop. -/
def run (fuel : ℕ) : Bool := P.loop fuel (enter P.initial [] []).1 (enter P.initial [] []).2

/-- What `enter` does: the fresh states, each once, are put on the stack and marked, and all
given states are visited afterwards. -/
theorem enter_spec (ts work vis : List σ) :
    ∃ new : List σ, enter ts work vis = (new ++ work, new ++ vis) ∧ new.Nodup ∧
      (∀ t ∈ new, t ∈ ts ∧ t ∉ vis) ∧ ∀ t ∈ ts, t ∈ new ++ vis := by
  induction ts generalizing work vis with
  | nil => exact ⟨[], by simp [enter]⟩
  | cons t ts ih =>
      unfold enter
      split_ifs with hvis
      · -- The state is visited, and so left out.
        obtain ⟨new, heq, hnodup, hnew, hall⟩ := ih work vis
        refine ⟨new, heq, hnodup, fun u hu => ?_, fun u hu => ?_⟩
        · exact ⟨List.mem_cons_of_mem _ (hnew u hu).1, (hnew u hu).2⟩
        · rcases List.mem_cons.mp hu with rfl | hu
          · exact List.mem_append_right _ hvis
          · exact hall u hu
      · -- The state is fresh: it goes below the fresh ones behind it.
        obtain ⟨new, heq, hnodup, hnew, hall⟩ := ih (t :: work) (t :: vis)
        refine ⟨new ++ [t], by simp [heq], ?_, fun u hu => ?_, fun u hu => ?_⟩
        · refine List.nodup_append.mpr ⟨hnodup, by simp, fun u hu v hv huv => ?_⟩
          rw [List.mem_singleton] at hv
          exact (hnew u hu).2 (by simp [huv, hv])
        · rcases List.mem_append.mp hu with hu | hu
          · have hu' := hnew u hu
            exact ⟨List.mem_cons_of_mem _ hu'.1, fun h => hu'.2 (List.mem_cons_of_mem _ h)⟩
          · rw [List.mem_singleton.mp hu]
            exact ⟨by simp, hvis⟩
        · rcases List.mem_cons.mp hu with rfl | hu
          · simp
          · simpa using hall u hu

variable {P} {work vis : List σ}

/-- The loop invariant: everything visited is reachable from an initial state, the initial
states are visited, and a visited state that is off the list has failed the test and has all
its successors visited. -/
structure LoopInv (P : WorklistProblem σ) (work vis : List σ) : Prop where
  initial_visited : ∀ s ∈ P.initial, s ∈ vis
  work_visited : ∀ s ∈ work, s ∈ vis
  reached : ∀ s ∈ vis, ∃ s₀ ∈ P.initial, Relation.ReflTransGen P.Succ s₀ s
  closed : ∀ s ∈ vis, s ∉ work → P.goal s = false ∧ ∀ t ∈ P.next s, t ∈ vis

theorem loopInv_initial : P.LoopInv (enter P.initial [] []).1 (enter P.initial [] []).2 := by
  obtain ⟨new, heq, -, hnew, hall⟩ := enter_spec P.initial [] []
  rw [heq]
  simp only [List.append_nil] at hall ⊢
  exact ⟨hall, fun s hs => hs, fun s hs => ⟨s, (hnew s hs).1, .refl⟩, fun s hs hnot =>
    absurd hs hnot⟩

/-- Taking a state off the list keeps the invariant. -/
theorem LoopInv.step {s : σ} (hinv : P.LoopInv (s :: work) vis) (hgoal : P.goal s = false) :
    P.LoopInv (enter (P.next s) work vis).1 (enter (P.next s) work vis).2 := by
  obtain ⟨new, heq, -, hnew, hall⟩ := enter_spec (P.next s) work vis
  rw [heq]
  have hs : s ∈ vis := hinv.work_visited s (by simp)
  refine ⟨fun u hu => ?_, fun u hu => ?_, fun u hu => ?_, fun u hu hnot => ?_⟩
  · exact List.mem_append_right _ (hinv.initial_visited u hu)
  · rcases List.mem_append.mp hu with hu | hu
    · exact List.mem_append_left _ hu
    · exact List.mem_append_right _ (hinv.work_visited u (List.mem_cons_of_mem _ hu))
  · rcases List.mem_append.mp hu with hu | hu
    · obtain ⟨s₀, hs₀, hreach⟩ := hinv.reached s hs
      exact ⟨s₀, hs₀, hreach.tail (hnew u hu).1⟩
    · exact hinv.reached u hu
  · rw [List.mem_append, not_or] at hnot
    rcases List.mem_append.mp hu with hu | hu
    · exact absurd hu hnot.1
    · -- A state off the stack is `s`, whose successors are visited now, or was so before.
      by_cases hus : u = s
      · subst hus
        exact ⟨hgoal, hall⟩
      · obtain ⟨h1, h2⟩ := hinv.closed u hu (by simp [hus, hnot.2])
        exact ⟨h1, fun t ht => List.mem_append_right _ (h2 t ht)⟩

omit [DecidableEq σ] in
/-- When the list is empty nothing reachable passes the test. -/
theorem LoopInv.no_goal (hinv : P.LoopInv [] vis) {s₀ s : σ} (hs₀ : s₀ ∈ P.initial)
    (hreach : Relation.ReflTransGen P.Succ s₀ s) : P.goal s = false := by
  have hvis : s ∈ vis := by
    induction hreach with
    | refl => exact hinv.initial_visited _ hs₀
    | tail _ hstep ih => exact (hinv.closed _ ih (by simp)).2 _ hstep
  exact (hinv.closed s hvis (by simp)).1

/-- The loop decides reachability of a state that passes the test, given fuel for every state
that can still be entered. -/
theorem loop_eq_true_iff (U : Finset σ) (hU : ∀ s, ∀ t ∈ P.next s, t ∈ U) (fuel : ℕ)
    (hinv : P.LoopInv work vis) (hfuel : (U.filter (· ∉ vis)).card + work.length < fuel) :
    P.loop fuel work vis = true ↔
      ∃ s₀ ∈ P.initial, ∃ s, Relation.ReflTransGen P.Succ s₀ s ∧ P.goal s = true := by
  induction fuel generalizing work vis with
  | zero => omega
  | succ fuel ih =>
      match work with
      | [] =>
          simp only [loop, Bool.false_eq_true, false_iff, not_exists, not_and]
          intro s₀ hs₀ s hreach
          simp [hinv.no_goal hs₀ hreach]
      | s :: work =>
          unfold loop
          split_ifs with hgoal
          · obtain ⟨s₀, hs₀, hreach⟩ := hinv.reached s (hinv.work_visited s (by simp))
            exact iff_of_true rfl ⟨s₀, hs₀, s, hreach, hgoal⟩
          · refine ih (hinv.step (by simpa using hgoal)) ?_
            obtain ⟨new, heq, hnodup, hnew, -⟩ := enter_spec (P.next s) work vis
            rw [heq]
            simp only [List.length_append, List.length_cons] at hfuel ⊢
            -- the fresh states leave the unvisited part of the universe
            have hcard := card_unvisited_append_le U hnodup (fun t ht => hU s t (hnew t ht).1)
              fun t ht => (hnew t ht).2
            omega

/-- The whole computation decides reachability of a state that passes the test. -/
theorem run_eq_true_iff (U : Finset σ) (hinit : ∀ t ∈ P.initial, t ∈ U)
    (hU : ∀ s, ∀ t ∈ P.next s, t ∈ U) {fuel : ℕ} (hfuel : U.card < fuel) :
    P.run fuel = true ↔
      ∃ s₀ ∈ P.initial, ∃ s, Relation.ReflTransGen P.Succ s₀ s ∧ P.goal s = true := by
  refine loop_eq_true_iff U hU fuel loopInv_initial ?_
  obtain ⟨new, heq, hnodup, hnew, -⟩ := enter_spec P.initial [] []
  rw [heq]
  have hcard := card_unvisited_append_le U hnodup (fun t ht => hinit t (hnew t ht).1)
    fun t ht => (hnew t ht).2
  have hle : (U.filter (· ∉ ([] : List σ))).card ≤ U.card := Finset.card_filter_le _ _
  simp only [List.append_nil] at hcard ⊢
  omega

/-! ### The loop without fuel -/

variable (P) in
/-- The loop, started on a list and a set of visited states, ends with an answer after it has taken
`n` states off the list. -/
inductive Returns : ℕ → List σ → List σ → Bool → Prop
  | empty {vis : List σ} : Returns 0 [] vis false
  | found {s : σ} {work vis : List σ} (hgoal : P.goal s = true) : Returns 1 (s :: work) vis true
  | turn {n : ℕ} {s : σ} {work vis : List σ} {r : Bool} (hgoal : P.goal s = false)
      (hrest : Returns n (enter (P.next s) work vis).1 (enter (P.next s) work vis).2 r) :
      Returns (n + 1) (s :: work) vis r

/-- With more fuel than turns the loop gives its answer. -/
theorem Returns.loop_eq {n fuel : ℕ} {r : Bool} (h : P.Returns n work vis r) (hfuel : n < fuel) :
    P.loop fuel work vis = r := by
  induction h generalizing fuel with
  | empty =>
    obtain ⟨fuel, rfl⟩ := Nat.exists_eq_succ_of_ne_zero (Nat.ne_zero_of_lt hfuel)
    rfl
  | found hgoal =>
    obtain ⟨fuel, rfl⟩ := Nat.exists_eq_succ_of_ne_zero (Nat.ne_zero_of_lt hfuel)
    rw [loop, if_pos hgoal]
  | turn hgoal _ ih =>
    obtain ⟨fuel, rfl⟩ := Nat.exists_eq_succ_of_ne_zero (Nat.ne_zero_of_lt hfuel)
    rw [loop, if_neg (by simp [hgoal])]
    exact ih (Nat.lt_of_succ_lt_succ hfuel)

/-- The loop ends: each turn takes a state off the list, and only unvisited ones come on it. -/
theorem exists_returns (U : Finset σ) (hU : ∀ s, ∀ t ∈ P.next s, t ∈ U) (work vis : List σ) :
    ∃ n ≤ (U.filter (· ∉ vis)).card + work.length, ∃ r, P.Returns n work vis r := by
  -- The induction is on a bound, since a turn can lower the measure by more than one.
  suffices hbound : ∀ m (work vis : List σ), (U.filter (· ∉ vis)).card + work.length ≤ m →
      ∃ n ≤ (U.filter (· ∉ vis)).card + work.length, ∃ r, P.Returns n work vis r from
    hbound _ work vis le_rfl
  intro m
  induction m with
  | zero =>
    intro work vis hm
    obtain rfl : work = [] := List.length_eq_zero_iff.mp (by omega)
    exact ⟨0, Nat.zero_le _, false, .empty⟩
  | succ m ih =>
    intro work vis hm
    match work with
    | [] => exact ⟨0, Nat.zero_le _, false, .empty⟩
    | s :: work =>
      rw [List.length_cons] at hm ⊢
      cases hgoal : P.goal s with
      | true => exact ⟨1, by omega, true, .found hgoal⟩
      | false =>
        obtain ⟨new, heq, hnodup, hnew, -⟩ := enter_spec (P.next s) work vis
        have hcard := card_unvisited_append_le U hnodup (fun t ht => hU s t (hnew t ht).1)
          fun t ht => (hnew t ht).2
        have hless : (U.filter (· ∉ new ++ vis)).card + (new ++ work).length ≤
            (U.filter (· ∉ vis)).card + work.length := by
          rw [List.length_append]
          omega
        obtain ⟨n, hn, r, hr⟩ := ih (new ++ work) (new ++ vis) (by omega)
        exact ⟨n + 1, by omega, r, .turn hgoal (by rw [heq]; exact hr)⟩

/-- The whole computation ends with the answer of the run, after at most as many turns as there are
states to enter. -/
theorem run_returns (U : Finset σ) (hinit : ∀ t ∈ P.initial, t ∈ U)
    (hU : ∀ s, ∀ t ∈ P.next s, t ∈ U) {fuel : ℕ} (hfuel : U.card < fuel) :
    ∃ n ≤ U.card, P.Returns n (enter P.initial [] []).1 (enter P.initial [] []).2 (P.run fuel) := by
  obtain ⟨new, heq, hnodup, hnew, -⟩ := enter_spec P.initial [] []
  obtain ⟨n, hn, r, hr⟩ := exists_returns (P := P) U hU new new
  have hbound : n ≤ U.card := by
    have hcard := card_unvisited_append_le U hnodup (fun t ht => hinit t (hnew t ht).1)
      fun t ht => (hnew t ht).2
    have hle : (U.filter (· ∉ ([] : List σ))).card ≤ U.card := Finset.card_filter_le _ _
    rw [List.append_nil] at hcard
    omega
  rw [List.append_nil] at heq
  refine ⟨n, hbound, ?_⟩
  rw [run, heq, hr.loop_eq (hbound.trans_lt hfuel)]
  exact hr

end WorklistProblem

end Lace.Library
