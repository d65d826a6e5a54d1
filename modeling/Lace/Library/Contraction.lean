import Mathlib.Logic.Relation

/-!
# Contracting a graph to kept nodes

Only some nodes of a graph are kept. The contracted graph has a step from a node to another kept
node where the graph has a path whose interior is dropped. Between kept nodes its paths are those
of the graph.

## Main definitions

* `Via`: the paths with a dropped interior;
* `Contracted`: the steps of the contracted graph.

## Main results

* `reflTransGen_contracted_iff`: the paths to kept nodes are the same;
* `reflTransGen_stopping_iff`: a search that stops at kept nodes follows these paths.
-/

namespace Lace.Library

variable {α : Type*}

/-- A path with at least one step, on which only the ends may be kept. -/
inductive Via (r : α → α → Prop) (keep : α → Prop) (a : α) : α → Prop
  /-- A step has no interior. -/
  | single {b : α} : r a b → Via r keep a b
  /-- The end of a path becomes its interior, if it is dropped. -/
  | tail {b c : α} : Via r keep a b → ¬keep b → r b c → Via r keep a c

/-- A step of the contracted graph. -/
def Contracted (r : α → α → Prop) (keep : α → Prop) (a b : α) : Prop :=
  keep b ∧ b ≠ a ∧ Via r keep a b

variable {r : α → α → Prop} {keep : α → Prop} {a b c : α}

theorem Via.reflTransGen (h : Via r keep a b) : Relation.ReflTransGen r a b := by
  induction h with
  | single hstep => exact Relation.ReflTransGen.single hstep
  | tail _ _ hstep ih => exact ih.tail hstep

/-- A path of the graph is one of the contracted graph up to the last kept node on it. -/
theorem exists_contracted_via (h : Relation.ReflTransGen r a b) :
    a = b ∨ ∃ c, Relation.ReflTransGen (Contracted r keep) a c ∧ Via r keep c b := by
  induction h with
  | refl => exact Or.inl rfl
  | @tail b d _ hstep ih =>
    rcases ih with rfl | ⟨c, hac, hcb⟩
    · exact Or.inr ⟨a, Relation.ReflTransGen.refl, Via.single hstep⟩
    · by_cases hkeep : keep b
      · by_cases hbc : b = c
        · subst hbc
          exact Or.inr ⟨b, hac, Via.single hstep⟩
        · exact Or.inr ⟨b, hac.tail ⟨hkeep, hbc, hcb⟩, Via.single hstep⟩
      · exact Or.inr ⟨c, hac, hcb.tail hkeep hstep⟩

theorem reflTransGen_of_contracted (h : Relation.ReflTransGen (Contracted r keep) a b) :
    Relation.ReflTransGen r a b := by
  induction h with
  | refl => exact Relation.ReflTransGen.refl
  | tail _ hstep ih => exact ih.trans hstep.2.2.reflTransGen

/-- The contracted graph has the paths to kept nodes that the graph has. -/
theorem reflTransGen_contracted_iff (hb : keep b) :
    Relation.ReflTransGen (Contracted r keep) a b ↔ Relation.ReflTransGen r a b := by
  refine ⟨reflTransGen_of_contracted, fun h => ?_⟩
  rcases exists_contracted_via h with rfl | ⟨c, hac, hcb⟩
  · exact Relation.ReflTransGen.refl
  · by_cases hbc : b = c
    · exact hbc ▸ hac
    · exact hac.tail ⟨hb, hbc, hcb⟩

/-- A search from a node that does not go on from other kept nodes. -/
theorem reflTransGen_stopping_iff (hne : b ≠ a) :
    Relation.ReflTransGen (fun m n => (m = a ∨ ¬keep m) ∧ r m n) a b ↔ Via r keep a b := by
  constructor
  · intro h
    have hcases : a = b ∨ Via r keep a b := by
      induction h with
      | refl => exact Or.inl rfl
      | @tail m n _ hstep ih =>
        obtain ⟨hstop, hmn⟩ := hstep
        by_cases hma : m = a
        · exact Or.inr (Via.single (hma ▸ hmn))
        · have hvia := (ih hma).resolve_left (Ne.symm hma)
          exact Or.inr (hvia.tail (hstop.resolve_left hma) hmn)
    exact hcases.resolve_left (Ne.symm hne)
  · intro h
    induction h with
    | single hstep => exact Relation.ReflTransGen.single ⟨Or.inl rfl, hstep⟩
    | @tail m n hvia hdrop hstep ih =>
      by_cases hma : m = a
      · exact Relation.ReflTransGen.single ⟨Or.inl rfl, hma ▸ hstep⟩
      · exact (ih hma).tail ⟨Or.inr hdrop, hstep⟩

end Lace.Library
