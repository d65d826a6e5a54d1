import Mathlib.Logic.Relation

/-!
# Forests given by a parent function

A forest is given by a partial function to the parent. A map between forests that keeps parents
lifts every ancestor of an image.

## Main results

* `Under.exists_lift`: an ancestor of the image of a point is the image of an ancestor;
* `exists_split`: two different points over the same point lie below two different children of
  one point, unless they lie below different roots.
-/

namespace Lace.Library.Forest

variable {α β : Type*}

/-- `p` is the parent of `a`. -/
def ChildOf (parent : α → Option α) (a p : α) : Prop := parent a = some p

/-- `p` is `a` or an ancestor of it. -/
def Under (parent : α → Option α) : α → α → Prop := Relation.ReflTransGen (ChildOf parent)

/-- `p` is an ancestor of `a`. -/
def Below (parent : α → Option α) : α → α → Prop := Relation.TransGen (ChildOf parent)

variable {parent : α → Option α} {a b c p q : α}

theorem Under.refl (a : α) : Under parent a a := Relation.ReflTransGen.refl

theorem Under.trans (hab : Under parent a b) (hbc : Under parent b c) : Under parent a c :=
  Relation.ReflTransGen.trans hab hbc

/-- The ancestors of the parent are ancestors of the child. -/
theorem Under.of_parent (hp : parent a = some p) (h : Under parent p b) : Under parent a b :=
  Relation.ReflTransGen.head hp h

/-- An ancestor is the point itself or an ancestor of its parent. -/
theorem Under.eq_or_parent (h : Under parent a b) :
    a = b ∨ ∃ p, parent a = some p ∧ Under parent p b :=
  Relation.ReflTransGen.cases_head h

/-- A proper ancestor is an ancestor of the parent. -/
theorem below_iff : Below parent a b ↔ ∃ p, parent a = some p ∧ Under parent p b :=
  Relation.TransGen.head'_iff

theorem under_iff : Under parent a b ↔ a = b ∨ Below parent a b := by
  rw [below_iff]
  constructor
  · exact Under.eq_or_parent
  · rintro (rfl | ⟨p, hp, h⟩)
    · exact Under.refl a
    · exact h.of_parent hp

/-- Two parent functions that agree on a set that is closed under parents have the same
ancestors of its points. -/
theorem under_congr_on {parent₂ : α → Option α} {D : α → Prop}
    (hagree : ∀ x, D x → parent₂ x = parent x) (hclosed : ∀ x p, D x → parent x = some p → D p)
    (ha : D a) : Under parent₂ a b ↔ Under parent a b := by
  have hstep : ∀ x y, D x → (ChildOf parent₂ x y ↔ ChildOf parent x y) := fun x y hx => by
    rw [ChildOf, ChildOf, hagree x hx]
  constructor <;> intro h <;> unfold Under at h ⊢
  · induction h using Relation.ReflTransGen.head_induction_on with
    | refl => exact .refl
    | head hxy _ ih =>
        have hxy' := (hstep _ _ ha).mp hxy
        exact .head hxy' (ih (hclosed _ _ ha hxy'))
  · induction h using Relation.ReflTransGen.head_induction_on with
    | refl => exact .refl
    | head hxy _ ih => exact .head ((hstep _ _ ha).mpr hxy) (ih (hclosed _ _ ha hxy))

/-- A root has no proper ancestor. -/
theorem not_below_of_root (ha : parent a = none) : ¬Below parent a b := by
  intro h
  obtain ⟨p, hp, -⟩ := below_iff.mp h
  rw [ha] at hp
  cases hp

/-- A root has no ancestor but itself. -/
theorem Under.eq_of_root (ha : parent a = none) (h : Under parent a b) : a = b :=
  (under_iff.mp h).resolve_right (not_below_of_root ha)

section Map

variable {parent' : β → Option β} {f : α → β}

/-- A map that keeps parents lifts every ancestor of the image of a point. -/
theorem Under.exists_lift (hf : ∀ x, parent' (f x) = (parent x).map f) {q : β}
    (h : Under parent' (f a) q) : ∃ b, Under parent a b ∧ f b = q := by
  generalize hx : f a = x at h
  unfold Under at h
  induction h using Relation.ReflTransGen.head_induction_on generalizing a with
  | refl => exact ⟨a, Under.refl a, hx⟩
  | head hstep _ ih =>
      subst hx
      rw [ChildOf, hf] at hstep
      obtain ⟨p, hp, hpx⟩ := Option.map_eq_some_iff.mp hstep
      obtain ⟨b, hb, hfb⟩ := ih hpx
      exact ⟨b, hb.of_parent hp, hfb⟩

/-- A map that keeps parents keeps ancestors. -/
theorem Under.map (hf : ∀ x, parent' (f x) = (parent x).map f) (h : Under parent a b) :
    Under parent' (f a) (f b) := by
  refine Relation.ReflTransGen.lift f (fun x y hxy => ?_) _ _ h
  show parent' (f x) = some (f y)
  rw [hf, show parent x = some y from hxy, Option.map_some]

theorem Below.map (hf : ∀ x, parent' (f x) = (parent x).map f) (h : Below parent a b) :
    Below parent' (f a) (f b) := by
  refine Relation.TransGen.lift f (fun x y hxy => ?_) _ _ h
  show parent' (f x) = some (f y)
  rw [hf, show parent x = some y from hxy, Option.map_some]

/-- Two different points over one point: they lie below two different children of one point, or
below two different roots over one root. -/
theorem exists_split (hf : ∀ x, parent' (f x) = (parent x).map f)
    (hwf : WellFounded fun p x => ChildOf parent' x p) {b : α} (hab : a ≠ b) (hfab : f a = f b) :
    (∃ a' b' z, Under parent a a' ∧ Under parent b b' ∧ a' ≠ b' ∧ parent a' = some z ∧
      parent b' = some z) ∨
    ∃ a' b', Under parent a a' ∧ Under parent b b' ∧ a' ≠ b' ∧ f a' = f b' ∧
      parent' (f a') = none := by
  generalize hx : f a = x at hfab
  induction x using hwf.induction generalizing a b with
  | h x ih =>
      subst hx
      cases hpa : parent' (f a) with
      | none => exact Or.inr ⟨a, b, Under.refl a, Under.refl b, hab, hfab, hpa⟩
      | some q =>
          have hpa' := hpa
          rw [hf] at hpa'
          obtain ⟨za, hza, hfza⟩ := Option.map_eq_some_iff.mp hpa'
          have hpb' := hpa
          rw [hfab, hf] at hpb'
          obtain ⟨zb, hzb, hfzb⟩ := Option.map_eq_some_iff.mp hpb'
          by_cases hz : za = zb
          · -- The parents are one point, and `a` and `b` are two children of it.
            subst hz
            exact Or.inl ⟨a, b, za, Under.refl a, Under.refl b, hab, hza, hzb⟩
          · -- The parents are two points over one point.
            rcases ih q hpa hz hfza hfzb.symm with
              ⟨a', b', z, ha', hb', hne, h1, h2⟩ | ⟨a', b', ha', hb', hne, h1, h2⟩
            · exact Or.inl ⟨a', b', z, ha'.of_parent hza, hb'.of_parent hzb, hne, h1, h2⟩
            · exact Or.inr ⟨a', b', ha'.of_parent hza, hb'.of_parent hzb, hne, h1, h2⟩

end Map

end Lace.Library.Forest
