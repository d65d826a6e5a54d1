import Mathlib.Data.List.Basic
import Mathlib.Data.List.Induction
import Mathlib.Data.Nat.Notation
import Mathlib.Data.Set.Finite.Lattice
import Mathlib.Order.WellFoundedSet

/-!
# Depth-first search with a budget and a visited set

The search marks a state, and as long as its budget lasts goes on to the successors in their order;
a marked state is never entered again. The marks are shared between all branches, so a state that is
first met with a small budget cuts its successors off, though another way to it would have left
enough: within the budget the search is sound but not complete.

A walk from the start is the list of the positions of its steps, so that the lexicographic order on
lists of numbers is the order in which the search comes to the walks. The search enters a state by
the walks of a set that is determined by this order alone.

## Main definitions

* `depthSearch`: the search;
* `walk`: where a walk leads;
* `FirstEntries`: the walks by which states are entered.

## Main results

* `mem_depthSearch_iff`: the marked states are the ends of the first entries;
* `exists_firstEntries`: there is a set of first entries;
* `FirstEntries.of_shortest`: they reach every state within the budget whenever the first walk to
  each of them is a shortest one.
-/

namespace Lace.Library

variable {α : Type*} {next : α → List α}

/-- Search from a state with a budget: the states that are marked afterwards. -/
def depthSearch [DecidableEq α] (next : α → List α) : ℕ → α → List α → List α
  | 0, x, seen => if x ∈ seen then seen else x :: seen
  | budget + 1, x, seen =>
    if x ∈ seen then seen
    else (next x).foldl (fun seen y => depthSearch next budget y seen) (x :: seen)

/-- The end of the walk that takes the successors at the given positions. -/
def walk (next : α → List α) : α → List ℕ → Option α
  | x, [] => some x
  | x, i :: p => (next x)[i]?.bind fun y => walk next y p

/-- A state that a walk of at most `budget` steps leads to. -/
def Within (next : α → List α) (budget : ℕ) (x y : α) : Prop :=
  ∃ p : List ℕ, p.length ≤ budget ∧ walk next x p = some y

/-- The walks by which the states are entered, in terms of the order of walks: a walk is one of them
if it is within the budget, if it is so without its last step, and if no earlier one ends at the
same state. -/
def FirstEntries (next : α → List α) (budget : ℕ) (x : α) (S : Set (List ℕ)) : Prop :=
  ∀ p, p ∈ S ↔ p.length ≤ budget ∧ (p ≠ [] → p.dropLast ∈ S) ∧
    ∃ y, walk next x p = some y ∧ ∀ q ∈ S, q < p → walk next x q ≠ some y

/-! ### Walks and their order -/

theorem walk_append (x : α) (p q : List ℕ) :
    walk next x (p ++ q) = (walk next x p).bind fun y => walk next y q := by
  induction p generalizing x with
  | nil => rfl
  | cons i p ih =>
    rw [List.cons_append, walk, walk]
    cases (next x)[i]? with
    | none => rfl
    | some y => exact ih y

theorem walk_concat (x : α) (p : List ℕ) (i : ℕ) :
    walk next x (p ++ [i]) = (walk next x p).bind fun y => (next y)[i]? := by
  rw [walk_append]
  cases walk next x p with
  | none => rfl
  | some y =>
    show ((next y)[i]?.bind fun z => some z) = (next y)[i]?
    exact Option.bind_fun_some _

/-- What comes before a walk with one more step. -/
theorem lt_concat_iff (p q : List ℕ) (i : ℕ) :
    q < p ++ [i] ↔ q < p ∨ q = p ∨ ∃ j < i, p ++ [j] <+: q := by
  induction p generalizing q with
  | nil =>
    cases q with
    | nil => simp
    | cons a q => simp [List.cons_lt_cons_iff, List.cons_prefix_cons]
  | cons b p ih =>
    cases q with
    | nil => simp
    | cons a q =>
      -- With the same first step, what is left is compared.
      simp only [List.cons_append, List.cons_lt_cons_iff, ih, List.cons.injEq,
        List.cons_prefix_cons]
      constructor
      · rintro (hlt | ⟨rfl, hlt | rfl | ⟨j, hj, hpre⟩⟩)
        · exact .inl (.inl hlt)
        · exact .inl (.inr ⟨rfl, hlt⟩)
        · exact .inr (.inl ⟨rfl, rfl⟩)
        · exact .inr (.inr ⟨j, hj, rfl, hpre⟩)
      · rintro ((hlt | ⟨rfl, hlt⟩) | ⟨rfl, rfl⟩ | ⟨j, hj, rfl, hpre⟩)
        · exact .inl hlt
        · exact .inr ⟨rfl, .inl hlt⟩
        · exact .inr ⟨rfl, .inr (.inl rfl)⟩
        · exact .inr ⟨rfl, .inr (.inr ⟨j, hj, hpre⟩)⟩

/-- Between two neighbouring steps lie exactly the walks that take the first of them. -/
theorem lt_concat_succ_iff (p q : List ℕ) (i : ℕ) :
    q < p ++ [i + 1] ↔ q < p ++ [i] ∨ p ++ [i] <+: q := by
  rw [lt_concat_iff, lt_concat_iff]
  constructor
  · rintro (hlt | heq | ⟨j, hj, hpre⟩)
    · exact .inl (.inl hlt)
    · exact .inl (.inr (.inl heq))
    · rcases Nat.lt_succ_iff_lt_or_eq.mp hj with hj | rfl
      · exact .inl (.inr (.inr ⟨j, hj, hpre⟩))
      · exact .inr hpre
  · rintro ((hlt | heq | ⟨j, hj, hpre⟩) | hpre)
    · exact .inl hlt
    · exact .inr (.inl heq)
    · exact .inr (.inr ⟨j, by omega, hpre⟩)
    · exact .inr (.inr ⟨i, by omega, hpre⟩)

/-! ### First entries -/

namespace FirstEntries

variable {budget : ℕ} {x : α} {S : Set (List ℕ)}

/-- The walks that a first entry extends are first entries. -/
theorem of_prefix (hS : FirstEntries next budget x S) {p q : List ℕ} (hpre : p <+: q)
    (hq : q ∈ S) : p ∈ S := by
  obtain ⟨t, rfl⟩ := hpre
  induction t using List.reverseRecOn with
  | nil => rwa [List.append_nil] at hq
  | append_singleton t i ih =>
    apply ih
    rw [← List.append_assoc] at hq
    have hdrop := ((hS _).mp hq).2.1 (by simp)
    rwa [List.dropLast_concat] at hdrop

theorem length_le (hS : FirstEntries next budget x S) {p : List ℕ} (hp : p ∈ S) :
    p.length ≤ budget := ((hS p).mp hp).1

/-- A first entry ends somewhere. -/
theorem exists_end (hS : FirstEntries next budget x S) {p : List ℕ} (hp : p ∈ S) :
    ∃ y, walk next x p = some y :=
  let ⟨y, hy, _⟩ := ((hS p).mp hp).2.2
  ⟨y, hy⟩

/-- Of a walk whose way is entered, the end is entered by it or by an earlier one. -/
theorem mem_iff (hS : FirstEntries next budget x S) {p : List ℕ} {y : α}
    (hlen : p.length ≤ budget) (hpar : p ≠ [] → p.dropLast ∈ S) (hy : walk next x p = some y) :
    p ∈ S ↔ ¬∃ q ∈ S, q < p ∧ walk next x q = some y := by
  constructor
  · intro hp
    rintro ⟨q, hq, hlt, hend⟩
    obtain ⟨z, hz, hfirst⟩ := ((hS p).mp hp).2.2
    rw [hy, Option.some.injEq] at hz
    subst hz
    exact hfirst q hq hlt hend
  · intro hno
    refine (hS p).mpr ⟨hlen, hpar, y, hy, fun q hq hlt hend => hno ⟨q, hq, hlt, hend⟩⟩

/-- The states that first entries before a walk end at. -/
def EndsBefore (next : α → List α) (x : α) (S : Set (List ℕ)) (p : List ℕ) (z : α) : Prop :=
  ∃ q ∈ S, q < p ∧ walk next x q = some z

/-- The states that first entries along a walk end at, or before it. -/
def EndsUpTo (next : α → List α) (x : α) (S : Set (List ℕ)) (p : List ℕ) (z : α) : Prop :=
  ∃ q ∈ S, (q < p ∨ p <+: q) ∧ walk next x q = some z

variable {p : List ℕ} {y : α}

/-- Along a walk to a state that is already entered there are no first entries. -/
theorem endsUpTo_of_entered (hS : FirstEntries next budget x S) (hy : walk next x p = some y)
    (hentered : EndsBefore next x S p y) (z : α) :
    EndsUpTo next x S p z ↔ EndsBefore next x S p z := by
  constructor
  · rintro ⟨q, hq, hlt | hpre, hz⟩
    · exact ⟨q, hq, hlt, hz⟩
    · have hp : p ∈ S := hS.of_prefix hpre hq
      have hpar : p ≠ [] → p.dropLast ∈ S := ((hS p).mp hp).2.1
      exact absurd hentered ((hS.mem_iff (hS.length_le hp) hpar hy).mp hp)
  · rintro ⟨q, hq, hlt, hz⟩
    exact ⟨q, hq, .inl hlt, hz⟩

/-- Before the first step from a state its own entry is added. -/
theorem endsBefore_zero (hp : p ∈ S) (hy : walk next x p = some y) (z : α) :
    EndsBefore next x S (p ++ [0]) z ↔ z = y ∨ EndsBefore next x S p z := by
  constructor
  · rintro ⟨q, hq, hlt, hz⟩
    rcases (lt_concat_iff p q 0).mp hlt with hlt | rfl | ⟨j, hj, -⟩
    · exact .inr ⟨q, hq, hlt, hz⟩
    · rw [hy, Option.some.injEq] at hz
      exact .inl hz.symm
    · omega
  · rintro (rfl | ⟨q, hq, hlt, hz⟩)
    · exact ⟨p, hp, (lt_concat_iff p p 0).mpr (.inr (.inl rfl)), hy⟩
    · exact ⟨q, hq, (lt_concat_iff p q 0).mpr (.inl hlt), hz⟩

/-- From one step to the next the entries along the step are added. -/
theorem endsBefore_succ (i : ℕ) (z : α) :
    EndsBefore next x S (p ++ [i + 1]) z ↔ EndsUpTo next x S (p ++ [i]) z := by
  unfold EndsBefore EndsUpTo
  simp only [lt_concat_succ_iff]

/-- Behind the last step from a state all entries along the walk to it are added. -/
theorem endsBefore_length (hS : FirstEntries next budget x S) (hp : p ∈ S)
    (hy : walk next x p = some y) (z : α) :
    EndsBefore next x S (p ++ [(next y).length]) z ↔ EndsUpTo next x S p z := by
  constructor
  · rintro ⟨q, hq, hlt, hz⟩
    rcases (lt_concat_iff p q _).mp hlt with hlt | rfl | ⟨j, -, hpre⟩
    · exact ⟨q, hq, .inl hlt, hz⟩
    · exact ⟨q, hq, .inr List.prefix_rfl, hz⟩
    · exact ⟨q, hq, .inr ((List.prefix_append p [j]).trans hpre), hz⟩
  · rintro ⟨q, hq, hlt | ⟨t, rfl⟩, hz⟩
    · exact ⟨q, hq, (lt_concat_iff p q _).mpr (.inl hlt), hz⟩
    · refine ⟨p ++ t, hq, (lt_concat_iff p _ _).mpr ?_, hz⟩
      cases t with
      | nil => exact .inr (.inl (List.append_nil p))
      | cons j t =>
        -- The walk takes a step from the state, so its position is one of the successors'.
        have hstep : p ++ [j] <+: p ++ j :: t := ⟨t, by simp⟩
        obtain ⟨w, hw⟩ := hS.exists_end (hS.of_prefix hstep hq)
        rw [walk_concat, hy, Option.bind_some] at hw
        exact .inr (.inr ⟨j, (List.getElem?_eq_some_iff.mp hw).1, hstep⟩)

/-- With the budget used up only the state itself is entered. -/
theorem endsUpTo_of_length (hS : FirstEntries next budget x S) (hp : p ∈ S)
    (hlen : p.length = budget) (hy : walk next x p = some y) (z : α) :
    EndsUpTo next x S p z ↔ z = y ∨ EndsBefore next x S p z := by
  constructor
  · rintro ⟨q, hq, hlt | hpre, hz⟩
    · exact .inr ⟨q, hq, hlt, hz⟩
    · have heq : p = q := hpre.eq_of_length_le (hlen ▸ hS.length_le hq)
      subst heq
      rw [hy, Option.some.injEq] at hz
      exact .inl hz.symm
  · rintro (rfl | ⟨q, hq, hlt, hz⟩)
    · exact ⟨p, hp, .inr List.prefix_rfl, hy⟩
    · exact ⟨q, hq, .inl hlt, hz⟩

variable [DecidableEq α]

/-- The loop over the successors, from the `i`-th one on. -/
theorem mem_foldl_depthSearch {b : ℕ}
    (hstep : ∀ i w seen, (next y)[i]? = some w →
      (∀ z, z ∈ seen ↔ EndsBefore next x S (p ++ [i]) z) →
      ∀ z, z ∈ depthSearch next b w seen ↔ EndsUpTo next x S (p ++ [i]) z)
    (succs : List α) (i : ℕ) (seen : List α) (hsuccs : (next y).drop i = succs)
    (hseen : ∀ z, z ∈ seen ↔ EndsBefore next x S (p ++ [i]) z) (z : α) :
    z ∈ succs.foldl (fun seen w => depthSearch next b w seen) seen ↔
      EndsBefore next x S (p ++ [i + succs.length]) z := by
  induction succs generalizing i seen with
  | nil => exact hseen z
  | cons w succs ih =>
    have hw : (next y)[i]? = some w := by
      rw [← List.head?_drop, hsuccs]
      rfl
    have hdrop : (next y).drop (i + 1) = succs := by
      rw [← List.tail_drop, hsuccs]
      rfl
    have hnext := ih (i + 1) (depthSearch next b w seen) hdrop fun z =>
      (hstep i w seen hw hseen z).trans (endsBefore_succ i z).symm
    rw [List.foldl_cons, hnext, List.length_cons, Nat.add_assoc, Nat.add_comm 1]

/-- The marks of the search from a state: if before it the ends of the earlier first entries are
marked, then after it also those of the first entries along the walk to the state are. -/
theorem mem_depthSearch (hS : FirstEntries next budget x S) (b : ℕ) (p : List ℕ) (y : α)
    (seen : List α) (hy : walk next x p = some y) (hlen : p.length + b = budget)
    (hpar : p ≠ [] → p.dropLast ∈ S) (hseen : ∀ z, z ∈ seen ↔ EndsBefore next x S p z) (z : α) :
    z ∈ depthSearch next b y seen ↔ EndsUpTo next x S p z := by
  induction b generalizing p y seen z with
  | zero =>
    unfold depthSearch
    split_ifs with hmem
    · -- The state is marked, so the walk is no first entry and adds nothing.
      rw [hseen, hS.endsUpTo_of_entered hy ((hseen y).mp hmem)]
    · have hp : p ∈ S := (hS.mem_iff (by omega) hpar hy).mpr fun h => hmem ((hseen y).mpr h)
      rw [List.mem_cons, hseen, hS.endsUpTo_of_length hp hlen hy]
  | succ b ih =>
    unfold depthSearch
    split_ifs with hmem
    · rw [hseen, hS.endsUpTo_of_entered hy ((hseen y).mp hmem)]
    · have hp : p ∈ S := (hS.mem_iff (by omega) hpar hy).mpr fun h => hmem ((hseen y).mpr h)
      have hstart : ∀ z, z ∈ y :: seen ↔ EndsBefore next x S (p ++ [0]) z := by
        intro z
        rw [List.mem_cons, hseen, endsBefore_zero hp hy]
      -- The loop over the successors goes on from the walks with one more step.
      have hloop := mem_foldl_depthSearch (p := p) (y := y) (b := b)
        (fun i w seen hw hseen z => ih (p ++ [i]) w seen
          (by rw [walk_concat, hy, Option.bind_some, hw])
          (by rw [List.length_append, List.length_singleton]; omega)
          (fun _ => by rwa [List.dropLast_concat]) hseen z)
        (next y) 0 (y :: seen) List.drop_zero hstart z
      rw [hloop, Nat.zero_add, hS.endsBefore_length hp hy]

end FirstEntries

/-- The states that the search marks are the ends of the first entries. -/
theorem mem_depthSearch_iff [DecidableEq α] {budget : ℕ} {x : α} {S : Set (List ℕ)}
    (hS : FirstEntries next budget x S) (z : α) :
    z ∈ depthSearch next budget x [] ↔ ∃ p ∈ S, walk next x p = some z := by
  have hstart : ∀ z, z ∈ ([] : List α) ↔ FirstEntries.EndsBefore next x S [] z := by
    intro z
    simp [FirstEntries.EndsBefore]
  rw [hS.mem_depthSearch budget [] x [] rfl (Nat.zero_add _) (fun h => absurd rfl h) hstart z]
  simp [FirstEntries.EndsUpTo]

/-! ### The set of first entries -/

/-- The walks within the budget. -/
def walks (next : α → List α) (budget : ℕ) (x : α) : Set (List ℕ) :=
  {p | p.length ≤ budget ∧ (walk next x p).isSome}

theorem finite_walks (next : α → List α) (budget : ℕ) (x : α) :
    (walks next budget x).Finite := by
  induction budget generalizing x with
  | zero =>
    refine (Set.finite_singleton []).subset fun p hp => ?_
    exact List.eq_nil_of_length_eq_zero (Nat.le_zero.mp hp.1)
  | succ budget ih =>
    -- A walk is empty, or takes one of finitely many steps and goes on from there.
    have hfinite := (Set.finite_singleton ([] : List ℕ)).union
      (Set.finite_iUnion fun i : Fin (next x).length => (ih (next x)[i]).image (i.val :: ·))
    refine hfinite.subset fun p hp => ?_
    cases p with
    | nil => exact .inl rfl
    | cons i p =>
      obtain ⟨hlen, hsome⟩ := hp
      rw [walk] at hsome
      cases hi : (next x)[i]? with
      | none => simp [hi] at hsome
      | some y =>
        rw [hi, Option.bind_some] at hsome
        obtain ⟨hlt, rfl⟩ := List.getElem?_eq_some_iff.mp hi
        refine .inr (Set.mem_iUnion.mpr ⟨⟨i, hlt⟩, p, ⟨?_, hsome⟩, rfl⟩)
        exact Nat.le_of_succ_le_succ hlen

theorem dropLast_lt {p : List ℕ} (hne : p ≠ []) : p.dropLast < p := by
  conv_rhs => rw [← List.dropLast_append_getLast hne]
  exact (lt_concat_iff _ _ _).mpr (.inr (.inl rfl))

theorem dropLast_mem_walks {budget : ℕ} {x : α} {p : List ℕ} (hp : p ∈ walks next budget x) :
    p.dropLast ∈ walks next budget x := by
  obtain ⟨hlen, hsome⟩ := hp
  refine ⟨by rw [List.length_dropLast]; omega, ?_⟩
  by_cases hne : p = []
  · subst hne
    exact hsome
  · rw [← List.dropLast_append_getLast hne, walk_concat] at hsome
    cases h : walk next x p.dropLast with
    | none => simp [h] at hsome
    | some y => rfl

/-- The walks within the budget are finitely many, so the first entries among them can be told in
their order. -/
theorem exists_firstEntries (next : α → List α) (budget : ℕ) (x : α) :
    ∃ S, FirstEntries next budget x S := by
  have hwf : WellFounded fun p q : walks next budget x => p.val < q.val :=
    (finite_walks next budget x).wellFoundedOn
  -- Whether a walk is a first entry depends on earlier walks only.
  let entry : walks next budget x → Prop := hwf.fix (C := fun _ => Prop) fun p earlier =>
    (∀ hne : p.val ≠ [], earlier ⟨p.val.dropLast, dropLast_mem_walks p.2⟩ (dropLast_lt hne)) ∧
      ∀ q hlt, earlier q hlt → walk next x q.val ≠ walk next x p.val
  have hentry : ∀ p, entry p ↔
      (p.val ≠ [] → entry ⟨p.val.dropLast, dropLast_mem_walks p.2⟩) ∧
        ∀ q, q.val < p.val → entry q → walk next x q.val ≠ walk next x p.val := by
    intro p
    exact iff_of_eq (hwf.fix_eq (C := fun _ => Prop) _ p)
  refine ⟨{p | ∃ h, entry ⟨p, h⟩}, fun p => ?_⟩
  constructor
  · rintro ⟨hp, hentered⟩
    obtain ⟨hpar, hfirst⟩ := (hentry _).mp hentered
    obtain ⟨y, hy⟩ := Option.isSome_iff_exists.mp hp.2
    refine ⟨hp.1, fun hne => ⟨dropLast_mem_walks hp, hpar hne⟩, y, hy, ?_⟩
    rintro q ⟨hq, hqentered⟩ hlt hend
    exact hfirst ⟨q, hq⟩ hlt hqentered (hend.trans hy.symm)
  · rintro ⟨hlen, hpar, y, hy, hfirst⟩
    have hp : p ∈ walks next budget x := ⟨hlen, Option.isSome_iff_exists.mpr ⟨y, hy⟩⟩
    refine ⟨hp, (hentry _).mpr ⟨fun hne => (hpar hne).2, ?_⟩⟩
    intro q hlt hqentered hend
    exact hfirst q.val ⟨q.2, hqentered⟩ hlt (hend.trans hy)

/-! ### Shortest walks first -/

/-- The first walk within the budget to a state. -/
structure FirstWalk (next : α → List α) (budget : ℕ) (x : α) (p : List ℕ) (y : α) : Prop where
  /-- The walk is within the budget. -/
  length_le : p.length ≤ budget
  /-- The walk leads to the state. -/
  walk_eq : walk next x p = some y
  /-- No earlier one does. -/
  first : ∀ q : List ℕ, q.length ≤ budget → walk next x q = some y → p ≤ q

theorem exists_firstWalk {budget : ℕ} {x y : α} (h : Within next budget x y) :
    ∃ p, FirstWalk next budget x p y := by
  have hfinite : {p | p.length ≤ budget ∧ walk next x p = some y}.Finite :=
    (finite_walks next budget x).subset fun p hp => ⟨hp.1, by rw [hp.2]; rfl⟩
  obtain ⟨p, hp, hmin⟩ := hfinite.exists_minimal h
  refine ⟨p, hp.1, hp.2, fun q hlen hq => ?_⟩
  exact (le_total p q).elim id fun hle => hmin ⟨hlen, hq⟩ hle

/-- Walks of one length keep their order when a step is added. -/
theorem concat_lt_concat {p q : List ℕ} (hlen : p.length = q.length) (hlt : p < q) (i : ℕ) :
    p ++ [i] < q ++ [i] := by
  induction p generalizing q with
  | nil =>
    have hnil : q = [] := List.eq_nil_of_length_eq_zero hlen.symm
    subst hnil
    exact absurd hlt (lt_irrefl _)
  | cons a p ih =>
    cases q with
    | nil => cases hlen
    | cons b q =>
      rw [List.cons_append, List.cons_append, List.cons_lt_cons_iff]
      rcases List.cons_lt_cons_iff.mp hlt with hab | ⟨rfl, hpq⟩
      · exact .inl hab
      · exact .inr ⟨rfl, ih (Nat.succ.inj hlen) hpq⟩

/-- If the first walk to each state is a shortest one, every state within the budget is entered. -/
theorem FirstEntries.of_shortest {budget : ℕ} {x : α} {S : Set (List ℕ)}
    (hS : FirstEntries next budget x S)
    (hshort : ∀ p y, FirstWalk next budget x p y →
      ∀ q, walk next x q = some y → p.length ≤ q.length)
    {y : α} (hy : Within next budget x y) : ∃ p ∈ S, walk next x p = some y := by
  obtain ⟨p, hp⟩ := exists_firstWalk hy
  refine ⟨p, ?_, hp.walk_eq⟩
  clear hy
  induction p using List.reverseRecOn generalizing y with
  | nil =>
    refine (hS.mem_iff hp.length_le (fun h => absurd rfl h) hp.walk_eq).mpr ?_
    rintro ⟨q, -, hlt, -⟩
    exact absurd hlt (List.not_lt_nil q)
  | append_singleton p i ih =>
    have hlen : (p ++ [i]).length = p.length + 1 := by simp
    obtain ⟨z, hz, hi⟩ : ∃ z, walk next x p = some z ∧ (next z)[i]? = some y := by
      simpa [walk_concat, Option.bind_eq_some_iff] using hp.walk_eq
    have hle : p.length ≤ budget := by
      have hp' := hp.length_le
      omega
    obtain ⟨q, hq⟩ := exists_firstWalk ⟨p, hle, hz⟩
    -- The first walk to the state before is as long as the walk itself.
    have hqi : walk next x (q ++ [i]) = some y := by
      rw [walk_concat, hq.walk_eq]
      exact hi
    have hqlen : q.length = p.length := by
      have hqp := hshort q z hq p hz
      have hpq := hshort _ y hp _ hqi
      rw [hlen, List.length_append, List.length_singleton] at hpq
      omega
    have heq : q = p := by
      by_contra hne
      have hlt : q < p := lt_of_le_of_ne (hq.first p hle hz) hne
      have hfirst := hp.first (q ++ [i]) (by have := hp.length_le; simp_all) hqi
      exact absurd (concat_lt_concat hqlen hlt i) (not_lt_of_ge hfirst)
    subst heq
    refine (hS.mem_iff hp.length_le (fun _ => ?_) hp.walk_eq).mpr ?_
    · rw [List.dropLast_concat]
      exact ih hq
    · rintro ⟨r, hr, hlt, hend⟩
      exact absurd hlt (not_lt_of_ge (hp.first r (hS.length_le hr) hend))

end Lace.Library
