import Mathlib.Data.Finset.Lattice.Basic
import Mathlib.Data.Finset.Union
import Mathlib.Logic.Relation

/-!
# Depth-first walks that visit each label once

A walk through a tree whose nodes have labels, with one set of labels that were seen, shared by all
branches: a node with a label that was seen is passed over with all that is below it. The label
decides which labels are below a node, so that nothing new is missed; what is visited of each label
is its first node in preorder.

## Main definitions

* `LabelTree`: a tree with labels;
* `LabelTree.preorder`: the nodes below a node;
* `LabelTree.visit`: the nodes that the walk visits;
* `IsFirst`: the first node of its label in a list;
* `LabelTree.VisitSpec`: what a walk does, from one start or several.

## Main results

* `LabelTree.mem_preorder_iff`: the preorder has all nodes below a node;
* `LabelTree.visit_spec`: the walk visits the first nodes of the labels that were not seen;
* `LabelTree.mem_visit_iff`: from the start these are the first nodes of all labels.
-/

namespace Lace.Library

/-- A tree with labels, given by the children of its nodes. -/
structure LabelTree (α τ : Type*) where
  /-- The children of a node. -/
  children : α → List α
  /-- The label of a node. -/
  label : α → τ
  /-- The labels of the children, by the label of the node. -/
  next : τ → List τ
  /-- The label of a node decides the labels of its children. -/
  map_label : ∀ a, (children a).map label = next (label a)

variable {α τ : Type*}

/-! ### First nodes of their labels -/

/-- The first node of its label. -/
def IsFirst (label : α → τ) (l : List α) (a : α) : Prop :=
  ∃ before after, l = before ++ a :: after ∧ ∀ b ∈ before, label b ≠ label a

section Firsts

variable [DecidableEq τ]

/-- The first nodes of the labels that were not seen. -/
def firsts (label : α → τ) : Finset τ → List α → List α
  | _, [] => []
  | seen, a :: l =>
    if label a ∈ seen then firsts label seen l
    else a :: firsts label (insert (label a) seen) l

/-- The labels of some nodes, with those that were seen before. -/
def seenAfter (label : α → τ) (seen : Finset τ) (l : List α) : Finset τ :=
  seen ∪ (l.map label).toFinset

variable {label : α → τ} {seen : Finset τ} {l l' : List α} {a : α} {t : τ}

/-- After a list one has seen what was seen before and the labels of the list. -/
theorem mem_seenAfter : t ∈ seenAfter label seen l ↔ t ∈ seen ∨ ∃ a ∈ l, label a = t := by
  rw [seenAfter, Finset.mem_union, List.mem_toFinset, List.mem_map]

@[simp]
theorem seenAfter_nil : seenAfter label seen [] = seen := by
  simp [seenAfter]

theorem seenAfter_cons :
    seenAfter label seen (a :: l) = seenAfter label (insert (label a) seen) l := by
  ext t
  simp only [mem_seenAfter, Finset.mem_insert, List.mem_cons, exists_eq_or_imp]
  tauto

/-- Two lists are seen one after the other. -/
theorem seenAfter_append :
    seenAfter label seen (l ++ l') = seenAfter label (seenAfter label seen l) l' := by
  ext t
  simp only [mem_seenAfter, List.mem_append, or_and_right, exists_or, or_assoc]

/-- The first visits of two lists are those of the first and, with its labels seen, those of the
second. -/
theorem firsts_append : firsts label seen (l ++ l') =
    firsts label seen l ++ firsts label (seenAfter label seen (firsts label seen l)) l' := by
  induction l generalizing seen with
  | nil => simp [firsts]
  | cons a l ih =>
    rw [List.cons_append, firsts, firsts]
    split_ifs with ha
    · exact ih
    · rw [ih, List.cons_append, seenAfter_cons]

/-- If all labels were seen, nothing is first. -/
theorem firsts_eq_nil (h : ∀ a ∈ l, label a ∈ seen) : firsts label seen l = [] := by
  induction l with
  | nil => rfl
  | cons a l ih =>
    obtain ⟨ha, hl⟩ := List.forall_mem_cons.mp h
    rw [firsts, if_pos ha, ih hl]

/-- The first visits are the nodes that come first with a label not seen before. -/
theorem mem_firsts_iff : a ∈ firsts label seen l ↔ label a ∉ seen ∧ IsFirst label l a := by
  induction l generalizing seen with
  | nil => simp [firsts, IsFirst]
  | cons b l ih =>
    -- A node behind the head is first if it is so in the rest and the head has another label.
    have hcons : IsFirst label (b :: l) a ↔ a = b ∨ label b ≠ label a ∧ IsFirst label l a := by
      constructor
      · rintro ⟨before, after, heq, hbefore⟩
        rcases before with - | ⟨c, before⟩
        · exact Or.inl (List.cons.inj heq).1.symm
        · obtain ⟨rfl, rfl⟩ := List.cons.inj heq
          obtain ⟨hb, hbefore⟩ := List.forall_mem_cons.mp hbefore
          exact Or.inr ⟨hb, before, after, rfl, hbefore⟩
      · rintro (rfl | ⟨hb, before, after, rfl, hbefore⟩)
        · exact ⟨[], l, rfl, nofun⟩
        · exact ⟨b :: before, after, rfl, List.forall_mem_cons.mpr ⟨hb, hbefore⟩⟩
    rw [firsts, hcons]
    split_ifs with hb
    · rw [ih]
      constructor
      · rintro ⟨ha, hfirst⟩
        exact ⟨ha, Or.inr ⟨fun heq => ha (heq ▸ hb), hfirst⟩⟩
      · rintro ⟨ha, rfl | ⟨-, hfirst⟩⟩
        · exact absurd hb ha
        · exact ⟨ha, hfirst⟩
    · rw [List.mem_cons, ih, Finset.mem_insert, not_or]
      constructor
      · rintro (rfl | ⟨⟨hne, ha⟩, hfirst⟩)
        · exact ⟨hb, Or.inl rfl⟩
        · exact ⟨ha, Or.inr ⟨Ne.symm hne, hfirst⟩⟩
      · rintro ⟨ha, rfl | ⟨hne, hfirst⟩⟩
        · exact Or.inl rfl
        · exact Or.inr ⟨⟨Ne.symm hne, ha⟩, hfirst⟩

end Firsts

namespace LabelTree

variable (T : LabelTree α τ)

/-! ### Nodes below a node -/

/-- The nodes below a node, on fewer than `n` levels, each before those below it. -/
def preorder : ℕ → α → List α
  | 0, _ => []
  | n + 1, a => a :: (T.children a).flatMap (preorder n)

/-- `u` is the label of a child of a node with the label `t`. -/
def LabelStep (t u : τ) : Prop := u ∈ T.next t

/-- `b` is a child of `a`. -/
def ChildStep (a b : α) : Prop := b ∈ T.children a

/-- There are fewer than `n` levels below a label. -/
def Fits : ℕ → τ → Prop
  | 0, _ => False
  | n + 1, t => ∀ u ∈ T.next t, Fits n u

instance decidableFits : (n : ℕ) → (t : τ) → Decidable (T.Fits n t)
  | 0, _ => inferInstanceAs (Decidable False)
  | n + 1, t =>
    have : DecidablePred (T.Fits n) := decidableFits n
    inferInstanceAs (Decidable (∀ u ∈ T.next t, T.Fits n u))

variable {T} {n : ℕ} {a b : α} {t u : τ}

/-- A step to a child is a step between the labels. -/
theorem ChildStep.label (h : T.ChildStep a b) : T.LabelStep (T.label a) (T.label b) := by
  rw [LabelStep, ← T.map_label]
  exact List.mem_map_of_mem h

/-- A step between labels is made by some child. -/
theorem exists_child (h : T.LabelStep (T.label a) u) : ∃ b ∈ T.children a, T.label b = u := by
  rw [LabelStep, ← T.map_label] at h
  exact List.mem_map.mp h

/-- On finitely many levels no label is below itself. -/
theorem Fits.irrefl (h : T.Fits n t) : ¬Relation.TransGen T.LabelStep t t := by
  induction n generalizing t with
  | zero => exact h.elim
  | succ n ih =>
    intro hcycle
    obtain ⟨u, hstep, hback⟩ := Relation.TransGen.head'_iff.mp hcycle
    exact ih (h u hstep) (Relation.TransGen.tail' hback hstep)

/-- Every node of the preorder lies below its root. -/
theorem reflTransGen_of_mem_preorder (h : b ∈ T.preorder n a) :
    Relation.ReflTransGen T.ChildStep a b := by
  induction n generalizing a with
  | zero => cases h
  | succ n ih =>
    rcases List.mem_cons.mp h with rfl | h
    · exact .refl
    · obtain ⟨c, hc, hb⟩ := List.mem_flatMap.mp h
      exact .head hc (ih hb)

/-- The preorder has all nodes below a node. -/
theorem mem_preorder_iff (hfits : T.Fits n (T.label a)) :
    b ∈ T.preorder n a ↔ Relation.ReflTransGen T.ChildStep a b := by
  refine ⟨reflTransGen_of_mem_preorder, fun h => ?_⟩
  induction n generalizing a with
  | zero => exact hfits.elim
  | succ n ih =>
    rw [preorder, List.mem_cons]
    rcases h.cases_head with rfl | ⟨c, hc, hb⟩
    · exact Or.inl rfl
    · exact Or.inr (List.mem_flatMap.mpr ⟨c, hc, ih (hfits _ hc.label) hb⟩)

/-! ### The walk -/

variable [DecidableEq τ]

variable (T) in
/-- The nodes that are visited from a list of nodes, one after the other. -/
def visitList (visit : α → Finset τ → List α) : List α → Finset τ → List α
  | [], _ => []
  | a :: l, seen => visit a seen ++ visitList visit l (seenAfter T.label seen (visit a seen))

variable (T) in
/-- The nodes that are visited from a node, on fewer than `n` levels. -/
def visit : ℕ → α → Finset τ → List α
  | 0, _, _ => []
  | n + 1, a, seen =>
    if T.label a ∈ seen then []
    else a :: T.visitList (visit n) (T.children a) (insert (T.label a) seen)

/-- Visiting two lists is visiting the first and then, with its labels seen, the second. -/
theorem visitList_append (visit : α → Finset τ → List α) (l l' : List α) (seen : Finset τ) :
    T.visitList visit (l ++ l') seen = T.visitList visit l seen ++
      T.visitList visit l' (seenAfter T.label seen (T.visitList visit l seen)) := by
  induction l generalizing seen with
  | nil => rw [List.nil_append, visitList, seenAfter_nil, List.nil_append]
  | cons a l ih =>
    rw [List.cons_append, visitList, visitList, ih, seenAfter_append, List.append_assoc]

/-- With a label the labels below it were seen, unless the walk is still below the label. -/
def ClosedBut (T : LabelTree α τ) (walking : τ → Prop) (seen : Finset τ) : Prop :=
  ∀ t ∈ seen, ¬walking t → ∀ u, T.LabelStep t u → u ∈ seen

variable {walking : τ → Prop} {seen : Finset τ}

omit [DecidableEq τ] in
/-- Below a label that was seen all labels were, if the walk is not below one of them. -/
theorem ClosedBut.mem_of_below (hclosed : T.ClosedBut walking seen) (ht : t ∈ seen)
    (hwalking : ∀ u, walking u → Relation.TransGen T.LabelStep u t) (hfits : T.Fits n t)
    (h : Relation.ReflTransGen T.LabelStep t u) : u ∈ seen := by
  induction h with
  | refl => exact ht
  | @tail v w hv hstep ih =>
    refine hclosed v ih (fun hwalk => hfits.irrefl ?_) w hstep
    exact Relation.TransGen.trans_right hv (hwalking v hwalk)

/-- The walk goes below one more label. -/
theorem ClosedBut.enter (h : T.ClosedBut walking seen) :
    T.ClosedBut (fun u => walking u ∨ u = t) (insert t seen) := by
  intro v hv hnot u hu
  rw [not_or] at hnot
  have hv' := (Finset.mem_insert.mp hv).resolve_left hnot.2
  exact Finset.mem_insert_of_mem (h v hv' hnot.1 u hu)

omit [DecidableEq τ] in
/-- The walk leaves a label: the labels below it are those of the children. -/
theorem ClosedBut.leave (h : T.ClosedBut (fun u => walking u ∨ u = T.label a) seen)
    (hchildren : ∀ c ∈ T.children a, T.label c ∈ seen) : T.ClosedBut walking seen := by
  intro t ht hnot u hu
  by_cases hta : t = T.label a
  · obtain ⟨c, hc, rfl⟩ := exists_child (hta ▸ hu)
    exact hchildren c hc
  · exact h t ht (not_or.mpr ⟨hnot, hta⟩) u hu

/-- The nodes that are visited from some starts are the first ones in an enumeration, and then all
labels below those of the starts were seen. -/
structure VisitSpec (T : LabelTree α τ) (walking : τ → Prop) (seen : Finset τ)
    (starts visited nodes : List α) : Prop where
  /-- The first ones. -/
  eq_firsts : visited = firsts T.label seen nodes
  /-- The labels that were seen stay closed. -/
  closed : T.ClosedBut walking (seenAfter T.label seen visited)
  /-- The labels of the starts are among them. -/
  starts_seen : ∀ a ∈ starts, T.label a ∈ seenAfter T.label seen visited

/-- Nothing is visited if all labels were seen. -/
theorem VisitSpec.nil {starts nodes : List α} (hclosed : T.ClosedBut walking seen)
    (hstarts : ∀ a ∈ starts, T.label a ∈ seen) (hnodes : ∀ b ∈ nodes, T.label b ∈ seen) :
    T.VisitSpec walking seen starts [] nodes where
  eq_firsts := (firsts_eq_nil hnodes).symm
  closed := by rwa [seenAfter_nil]
  starts_seen := by rwa [seenAfter_nil]

/-- From several starts, one after the other. -/
theorem VisitSpec.list {visit : α → Finset τ → List α} {nodes : α → List α} {l : List α}
    (hvisit : ∀ a ∈ l, ∀ seen, T.ClosedBut walking seen →
      T.VisitSpec walking seen [a] (visit a seen) (nodes a))
    (hclosed : T.ClosedBut walking seen) :
    T.VisitSpec walking seen l (T.visitList visit l seen) (l.flatMap nodes) := by
  induction l generalizing seen with
  | nil =>
    rw [visitList]
    exact VisitSpec.nil hclosed nofun nofun
  | cons a l ih =>
    obtain ⟨ha, hl⟩ := List.forall_mem_cons.mp hvisit
    have hfirst := ha seen hclosed
    have hrest := ih hl hfirst.closed
    rw [visitList, List.flatMap_cons]
    refine ⟨?_, ?_, ?_⟩
    · rw [firsts_append, ← hfirst.eq_firsts, ← hrest.eq_firsts]
    · rw [seenAfter_append]
      exact hrest.closed
    · rw [seenAfter_append]
      refine List.forall_mem_cons.mpr ⟨?_, hrest.starts_seen⟩
      exact mem_seenAfter.mpr (Or.inl (hfirst.starts_seen a List.mem_cons_self))

/-- The walk visits the first nodes of the labels that were not seen, and then all labels below
were seen. -/
theorem visit_spec (hfits : T.Fits n (T.label a))
    (hwalking : ∀ u, walking u → Relation.TransGen T.LabelStep u (T.label a))
    (hclosed : T.ClosedBut walking seen) :
    T.VisitSpec walking seen [a] (T.visit n a seen) (T.preorder n a) := by
  induction n generalizing a walking seen with
  | zero => exact hfits.elim
  | succ n ih =>
    rw [visit]
    split_ifs with hmem
    · -- The label was seen, and with it all labels below.
      refine VisitSpec.nil hclosed (List.forall_mem_singleton.mpr hmem) fun b hb => ?_
      have hbelow := (reflTransGen_of_mem_preorder hb).lift T.label fun _ _ => ChildStep.label
      exact hclosed.mem_of_below hmem hwalking hfits hbelow
    · -- The walk goes below the label.
      have hchildren : ∀ c ∈ T.children a, ∀ seen,
          T.ClosedBut (fun u => walking u ∨ u = T.label a) seen →
          T.VisitSpec (fun u => walking u ∨ u = T.label a) seen [c] (T.visit n c seen)
            (T.preorder n c) := by
        intro c hc seen hclosed
        have hstep : T.LabelStep (T.label a) (T.label c) := ChildStep.label hc
        refine ih (hfits _ hstep) (fun u hu => ?_) hclosed
        rcases hu with hu | rfl
        · exact (hwalking u hu).tail hstep
        · exact Relation.TransGen.single hstep
      have hlist := VisitSpec.list hchildren hclosed.enter
      rw [preorder]
      refine ⟨?_, ?_, ?_⟩
      · rw [firsts, if_neg hmem, ← hlist.eq_firsts]
      · rw [seenAfter_cons]
        exact hlist.closed.leave hlist.starts_seen
      · refine List.forall_mem_singleton.mpr (mem_seenAfter.mpr (Or.inr ?_))
        exact ⟨a, List.mem_cons_self, rfl⟩

/-- The walk from the start visits the first node of every label. -/
theorem mem_visit_iff (hfits : T.Fits n (T.label a)) :
    b ∈ T.visit n a ∅ ↔ IsFirst T.label (T.preorder n a) b := by
  have hclosed : T.ClosedBut (fun _ => False) ∅ := nofun
  have hvisit := (visit_spec hfits (fun _ hwalking => hwalking.elim) hclosed).eq_firsts
  rw [hvisit, mem_firsts_iff]
  exact and_iff_right (Finset.notMem_empty _)

end LabelTree

end Lace.Library
