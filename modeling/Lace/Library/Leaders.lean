import Mathlib.Data.List.Induction
import Mathlib.Data.List.Nodup

/-!
# Classes with a leader

A list is grouped element by element: an element joins the first class whose first element, its
leader, is related to it, or opens a class. The relation need not be an equivalence, so the classes
depend on the order of the list; but each is determined by the leaders alone.

## Main definitions

* `place`, `classesOf`: the grouping;
* `leaders`, `leaderIn`: the leaders, and the leader of an element.

## Main results

* `mem_classesOf`: two elements are in one class exactly if they have the same leader;
* `leaderIn_leaders_cons`: who follows the first element.
-/

namespace Lace.Library

variable {α : Type*} (r : α → α → Bool)

/-- An element joins the first class whose first element is related to it, or opens a class. -/
def place (x : α) : List (List α) → List (List α)
  | [] => [[x]]
  | cls :: classes =>
    if cls.head?.any fun f => r f x then (cls ++ [x]) :: classes else cls :: place x classes

/-- The classes of a list. -/
def classesOf (l : List α) : List (List α) :=
  l.foldl (fun classes x => place r x classes) []

/-- The first elements of the classes, in the order in which they are opened. -/
def leaders (l : List α) : List α :=
  l.foldl (fun fs x => if fs.any fun f => r f x then fs else fs ++ [x]) []

/-- The leader of an element: itself, or the first one that is related to it. -/
def leaderIn [DecidableEq α] (fs : List α) (x : α) : Option α :=
  fs.find? fun f => f = x || r f x

/-- The elements with a given leader. -/
def followers [DecidableEq α] (l : List α) (f : α) : List α :=
  l.filter fun x => leaderIn r (leaders r l) x = some f

variable {r} {l : List α} {x y f : α}

theorem leaders_concat : leaders r (l ++ [x]) =
    if (leaders r l).any fun f => r f x then leaders r l else leaders r l ++ [x] := by
  simp [leaders, List.foldl_append]

/-- An element that is related to a leader opens no class. -/
theorem leaders_concat_of_find? {g : α} (hg : ((leaders r l).find? fun f => r f x) = some g) :
    leaders r (l ++ [x]) = leaders r l := by
  rw [leaders_concat, if_pos]
  exact List.any_eq_true.mpr ⟨g, List.mem_of_find?_eq_some hg,
    List.find?_some (p := fun f => r f x) hg⟩

theorem classesOf_concat : classesOf r (l ++ [x]) = place r x (classesOf r l) := by
  simp [classesOf, List.foldl_append]

/-- Leaders are elements of the list. -/
theorem mem_of_mem_leaders (hf : f ∈ leaders r l) : f ∈ l := by
  induction l using List.reverseRecOn with
  | nil => simp [leaders] at hf
  | append_singleton l x ih =>
    rw [leaders_concat] at hf
    split_ifs at hf
    · exact List.mem_append_left _ (ih hf)
    · rcases List.mem_append.mp hf with hf | hf
      · exact List.mem_append_left _ (ih hf)
      · exact List.mem_append_right _ hf

theorem nodup_leaders (hl : l.Nodup) : (leaders r l).Nodup := by
  induction l using List.reverseRecOn with
  | nil => exact List.nodup_nil
  | append_singleton l x ih =>
    obtain ⟨hl, -, hdisj⟩ := List.nodup_append.mp hl
    rw [leaders_concat]
    split_ifs
    · exact ih hl
    · refine List.nodup_append.mpr ⟨ih hl, List.nodup_singleton x, fun f hf z hz => ?_⟩
      exact hdisj f (mem_of_mem_leaders hf) z hz

/-- The leaders of a beginning of the list come first. -/
theorem leaders_prefix (l l' : List α) : leaders r l <+: leaders r (l ++ l') := by
  induction l' using List.reverseRecOn with
  | nil => simp
  | append_singleton l' x ih =>
    rw [← List.append_assoc, leaders_concat]
    split_ifs
    · exact ih
    · exact ih.trans (List.prefix_append _ _)

section DecidableEq

variable [DecidableEq α]

/-- Every element has a leader. -/
theorem exists_leaderIn (hx : x ∈ l) : ∃ f, leaderIn r (leaders r l) x = some f := by
  apply Option.isSome_iff_exists.mp
  rw [leaderIn, List.find?_isSome]
  induction l using List.reverseRecOn with
  | nil => cases hx
  | append_singleton l y ih =>
    rw [leaders_concat]
    split_ifs with hany
    · rcases List.mem_append.mp hx with hx | hx
      · exact ih hx
      · obtain rfl := List.mem_singleton.mp hx
        obtain ⟨f, hf, hr⟩ := List.any_eq_true.mp hany
        exact ⟨f, hf, by simp [hr]⟩
    · rcases List.mem_append.mp hx with hx | hx
      · obtain ⟨f, hf, hr⟩ := ih hx
        exact ⟨f, List.mem_append_left _ hf, hr⟩
      · obtain rfl := List.mem_singleton.mp hx
        exact ⟨x, List.mem_append_right _ (List.mem_singleton_self x), by simp⟩

/-- A leader leads itself. -/
theorem leaderIn_self (hl : l.Nodup) (hf : f ∈ leaders r l) :
    leaderIn r (leaders r l) f = some f := by
  induction l using List.reverseRecOn with
  | nil => cases hf
  | append_singleton l x ih =>
    obtain ⟨hl, -, hdisj⟩ := List.nodup_append.mp hl
    rw [leaders_concat] at hf ⊢
    split_ifs with hany
    · rw [if_pos hany] at hf
      exact ih hl hf
    · rw [if_neg hany] at hf
      rw [leaderIn, List.find?_append]
      rcases List.mem_append.mp hf with hf | hf
      · have hself := ih hl hf
        rw [leaderIn] at hself
        rw [hself, Option.some_or]
      · obtain rfl := List.mem_singleton.mp hf
        -- No earlier leader is related to the new one, nor equal to it.
        have hnone : (leaders r l).find? (fun g => g = f || r g f) = none := by
          rw [List.find?_eq_none]
          intro g hg hmatch
          rcases Bool.or_eq_true_iff.mp hmatch with heq | hr
          · exact hdisj g (mem_of_mem_leaders hg) f (List.mem_singleton_self f) (by simpa using heq)
          · exact hany (List.any_eq_true.mpr ⟨g, hg, hr⟩)
        rw [hnone, Option.none_or, List.find?_cons_of_pos (by simp)]

/-- Where an element goes among classes with the given leaders. -/
theorem place_map {fs : List α} (hfs : fs.Nodup) {cl : α → List α}
    (hcl : ∀ f ∈ fs, (cl f).head? = some f) :
    place r x (fs.map cl) =
      match fs.find? fun f => r f x with
      | some g => fs.map fun f => if f = g then cl f ++ [x] else cl f
      | none => fs.map cl ++ [[x]] := by
  induction fs with
  | nil => rfl
  | cons f fs ih =>
    obtain ⟨hf, hfs⟩ := List.nodup_cons.mp hfs
    rw [List.map_cons, place, hcl f List.mem_cons_self, Option.any_some]
    by_cases hr : r f x = true
    · -- The class of `f` takes the element, and `f` leads no other class.
      have hother : ∀ g ∈ fs, (if g = f then cl g ++ [x] else cl g) = cl g := by
        rintro g hg
        rw [if_neg]
        rintro rfl
        exact hf hg
      rw [if_pos hr, List.find?_cons_of_pos (p := fun g => r g x) hr]
      simp only [List.map_cons, if_true, List.map_congr_left hother]
    · rw [if_neg hr, List.find?_cons_of_neg (p := fun g => r g x) hr,
        ih hfs fun g hg => hcl g (List.mem_cons_of_mem f hg)]
      -- A later class takes the element, and `f` leads another one.
      cases hfind : fs.find? fun g => r g x with
      | none => rfl
      | some g =>
        have hne : f ≠ g := by
          rintro rfl
          exact hf (List.mem_of_find?_eq_some hfind)
        simp only [List.map_cons, if_neg hne]

/-- Besides the leaders, the leader of an element is related to it. -/
theorem leaderIn_of_not_mem {fs : List α} (hx : x ∉ fs) :
    leaderIn r fs x = fs.find? fun f => r f x := by
  induction fs with
  | nil => rfl
  | cons f fs ih =>
    obtain ⟨hne, hx⟩ := List.ne_and_not_mem_of_not_mem_cons hx
    have hmatch : (decide (f = x) || r f x) = r f x := by simp [Ne.symm hne]
    rw [leaderIn, List.find?_cons, List.find?_cons, hmatch, ← leaderIn, ih hx]

/-- An element that a leader leads is led by it also when more leaders follow. -/
theorem leaderIn_append {fs gs : List α} (hx : leaderIn r fs x = some f) :
    leaderIn r (fs ++ gs) x = some f := by
  rw [leaderIn, List.find?_append, ← leaderIn, hx, Option.some_or]

/-- An element that is related to a leader follows the first such leader. -/
theorem followers_concat_of_find? {g : α} (hx : x ∉ leaders r l)
    (hg : ((leaders r l).find? fun f => r f x) = some g) (f : α) :
    followers r (l ++ [x]) f = if f = g then followers r l f ++ [x] else followers r l f := by
  have hlead : leaderIn r (leaders r l) x = some g := (leaderIn_of_not_mem hx).trans hg
  simp only [followers, leaders_concat_of_find? hg, List.filter_append, List.filter_cons,
    List.filter_nil, hlead, Option.some.injEq, decide_eq_true_eq]
  by_cases hfg : f = g
  · rw [if_pos hfg, if_pos hfg.symm]
  · rw [if_neg hfg, if_neg (Ne.symm hfg), List.append_nil]

/-- An element that opens a class changes no other class, and has no followers yet. -/
theorem followers_concat_of_new (hl : (l ++ [x]).Nodup) (hx : x ∉ leaders r l)
    (hF : leaders r (l ++ [x]) = leaders r l ++ [x]) :
    (∀ f ∈ leaders r l, followers r (l ++ [x]) f = followers r l f) ∧
      followers r (l ++ [x]) x = [x] := by
  have hlead : leaderIn r (leaders r l ++ [x]) x = some x := by
    have hself := leaderIn_self (f := x) hl (hF ▸ List.mem_append_right _
      (List.mem_singleton_self x))
    rwa [hF] at hself
  -- The others keep the leaders they have.
  have hold : ∀ y ∈ l, leaderIn r (leaders r l ++ [x]) y = leaderIn r (leaders r l) y := by
    intro y hy
    obtain ⟨f, hf⟩ := exists_leaderIn (r := r) hy
    rw [leaderIn_append hf, hf]
  constructor
  · intro f hf
    have hne : x ≠ f := fun h => hx (h ▸ hf)
    rw [followers, followers, hF, List.filter_append, List.filter_cons, hlead,
      if_neg (by simpa using hne), List.filter_nil, List.append_nil]
    exact List.filter_congr fun y hy => by rw [hold y hy]
  · have hempty : l.filter (fun y => leaderIn r (leaders r l ++ [x]) y = some x) = [] := by
      rw [List.filter_eq_nil_iff]
      intro y hy hlead
      rw [decide_eq_true_eq, hold y hy] at hlead
      exact hx (List.mem_of_find?_eq_some hlead)
    rw [followers, hF, List.filter_append, hempty, List.filter_cons, hlead, if_pos (by simp)]
    rfl

/-- The classes are the followers of the leaders, each with its leader in front. -/
theorem classesOf_eq (hl : l.Nodup) :
    classesOf r l = (leaders r l).map (followers r l) ∧
      ∀ f ∈ leaders r l, (followers r l f).head? = some f := by
  induction l using List.reverseRecOn with
  | nil => exact ⟨rfl, nofun⟩
  | append_singleton l x ih =>
    obtain ⟨hl', -, hdisj⟩ := List.nodup_append.mp hl
    have hxF : x ∉ leaders r l := fun hx =>
      hdisj x (mem_of_mem_leaders hx) x (List.mem_singleton_self x) rfl
    obtain ⟨hclasses, hheads⟩ := ih hl'
    rw [classesOf_concat, hclasses, place_map (r := r) (x := x) (nodup_leaders hl') hheads]
    cases hfind : (leaders r l).find? fun f => r f x with
    | some g =>
      -- `x` follows the first leader related to it.
      have hfollow := followers_concat_of_find? hxF hfind
      rw [leaders_concat_of_find? hfind]
      refine ⟨List.map_congr_left fun f _ => (hfollow f).symm, fun f hf => ?_⟩
      rw [hfollow]
      split_ifs
      · rw [List.head?_append, hheads f hf, Option.some_or]
      · exact hheads f hf
    | none =>
      -- `x` opens a class.
      have hany : (leaders r l).any (fun f => r f x) = false := by
        rw [List.any_eq_false]
        exact List.find?_eq_none.mp hfind
      have hF : leaders r (l ++ [x]) = leaders r l ++ [x] := by
        rw [leaders_concat, hany, if_neg Bool.false_ne_true]
      obtain ⟨hfollow, hnew⟩ := followers_concat_of_new hl hxF hF
      rw [hF, List.map_append, List.map_singleton, hnew]
      refine ⟨congrArg (· ++ [[x]]) (List.map_congr_left fun f hf => (hfollow f hf).symm), ?_⟩
      intro f hf
      rcases List.mem_append.mp hf with hf | hf
      · rw [hfollow f hf]
        exact hheads f hf
      · obtain rfl := List.mem_singleton.mp hf
        rw [hnew]
        rfl

/-- Two elements are in one class exactly if they have the same leader. -/
theorem mem_classesOf (hl : l.Nodup) :
    (∃ cls ∈ classesOf r l, x ∈ cls ∧ y ∈ cls) ↔
      x ∈ l ∧ y ∈ l ∧ leaderIn r (leaders r l) x = leaderIn r (leaders r l) y := by
  rw [(classesOf_eq hl).1]
  simp only [List.mem_map, exists_exists_and_eq_and, followers, List.mem_filter,
    decide_eq_true_eq]
  constructor
  · rintro ⟨f, -, ⟨hx, hxf⟩, hy, hyf⟩
    exact ⟨hx, hy, hxf.trans hyf.symm⟩
  · rintro ⟨hx, hy, heq⟩
    obtain ⟨f, hf⟩ := exists_leaderIn (r := r) hx
    exact ⟨f, List.mem_of_find?_eq_some hf, ⟨hx, hf⟩, hy, heq ▸ hf⟩

/-- The first element of a list leads itself and everything that it is related to. -/
theorem leaderIn_leaders_cons : leaderIn r (leaders r (f :: l)) x = some f ↔
    f = x ∨ r f x = true := by
  obtain ⟨fs, hfs⟩ : ∃ fs, leaders r (f :: l) = f :: fs := by
    obtain ⟨fs, hfs⟩ := leaders_prefix (r := r) [f] l
    exact ⟨fs, hfs.symm⟩
  rw [hfs, leaderIn]
  constructor
  · intro h
    simpa using List.find?_some h
  · intro h
    exact List.find?_cons_of_pos (by simpa using h)

end DecidableEq

end Lace.Library
