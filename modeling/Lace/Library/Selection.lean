import Mathlib.Algebra.BigOperators.Group.Finset.Piecewise
import Mathlib.Algebra.GroupWithZero.Nat
import Mathlib.Algebra.Order.BigOperators.Group.Finset
import Mathlib.Data.Fintype.Basic
import Mathlib.Data.List.Dedup
import Mathlib.Data.List.Perm.Lattice

/-!
# Grouping by key and capped selection

Elements that share a key are merged into one representative, which keeps the strongest tier. From
a list of representatives a loop selects at most so many of each tier, and at most so many in all.

## Main definitions

* `mergeByKey`: the representatives, in the order of their keys;
* `Strongest`: the strongest tier among the elements with a key;
* `selectCapped`: the capped selection.

## Main results

* `represents_mergeByKey`: what the representatives are;
* `exists_group_of_mem_mergeByKey`, `sum_length_groups`: the groups behind them;
* `eq_flatMap_group_of_mem_mergeByKey`, `flatMap_mergeByKey_perm`: combining by joining;
* `countP_tier_of_represents`: how many representatives there are of a tier;
* `length_selectCapped`: how many elements are selected;
* `selectCapped_recall_iff`: when only a cap that is not zero keeps an element out.
-/

namespace Lace.Library

variable {α κ τ : Type*}

/-! ### Grouping -/

section Grouping

variable [LinearOrder κ] (key : α → κ) (combine : α → α → α)

/-- Enter an element into a list in the order of the keys. Under a key that is taken it is combined
with the element that is there. -/
def mergeInto (x : α) : List α → List α
  | [] => [x]
  | y :: m =>
    if key x = key y then combine y x :: m
    else if key x < key y then x :: y :: m
    else y :: mergeInto x m

/-- Enter all elements, one after the other. -/
def mergeByKey (l : List α) : List α := l.foldl (fun m x => mergeInto key combine x m) []

variable {key combine} {x z : α} {m : List α}

/-- What `mergeInto` leaves, adds and combines. -/
theorem mem_mergeInto_cases (hm : m.Pairwise fun a b => key a < key b)
    (hz : z ∈ mergeInto key combine x m) :
    (z ∈ m ∧ key z ≠ key x) ∨ (z = x ∧ key x ∉ m.map key) ∨
      ∃ y ∈ m, key y = key x ∧ z = combine y x := by
  induction m with
  | nil => exact Or.inr (Or.inl ⟨by simpa [mergeInto] using hz, by simp⟩)
  | cons y m ih =>
    obtain ⟨hy, hm⟩ := List.pairwise_cons.mp hm
    rw [mergeInto] at hz
    split at hz
    next heq =>
      rcases List.mem_cons.mp hz with rfl | hz
      · exact Or.inr (Or.inr ⟨y, by simp, heq.symm, rfl⟩)
      · exact Or.inl ⟨List.mem_cons_of_mem y hz, heq ▸ (hy z hz).ne'⟩
    next hne =>
      split at hz
      next hlt =>
        -- The keys behind `x` are all greater than its own.
        have hgt : ∀ w ∈ y :: m, key x < key w := fun w hw => by
          rcases List.mem_cons.mp hw with rfl | hw
          · exact hlt
          · exact hlt.trans (hy w hw)
        rcases List.mem_cons.mp hz with rfl | hz
        · refine Or.inr (Or.inl ⟨rfl, fun hmem => ?_⟩)
          obtain ⟨w, hw, hkey⟩ := List.mem_map.mp hmem
          exact (hgt w hw).ne hkey.symm
        · exact Or.inl ⟨hz, (hgt z hz).ne'⟩
      next =>
        rcases List.mem_cons.mp hz with rfl | hz
        · exact Or.inl ⟨by simp, Ne.symm hne⟩
        · rcases ih hm hz with ⟨hmem, hkey⟩ | ⟨rfl, hkey⟩ | ⟨w, hw, hkey, rfl⟩
          · exact Or.inl ⟨List.mem_cons_of_mem y hmem, hkey⟩
          · exact Or.inr (Or.inl ⟨rfl, by simpa using ⟨hne, by simpa using hkey⟩⟩)
          · exact Or.inr (Or.inr ⟨w, List.mem_cons_of_mem y hw, hkey, rfl⟩)

/-- The keys afterwards are those before and the new one. -/
theorem mem_map_key_mergeInto (hkey : ∀ y x, key x = key y → key (combine y x) = key y) {k : κ} :
    k ∈ (mergeInto key combine x m).map key ↔ k = key x ∨ k ∈ m.map key := by
  induction m with
  | nil => simp [mergeInto]
  | cons y m ih =>
    rw [mergeInto]
    split
    next heq => simp [hkey y x heq, heq]
    next =>
      split
      next => simp
      next =>
        rw [List.map_cons, List.mem_cons, ih, List.map_cons, List.mem_cons]
        exact or_left_comm

theorem pairwise_mergeInto (hkey : ∀ y x, key x = key y → key (combine y x) = key y)
    (hm : m.Pairwise fun a b => key a < key b) :
    (mergeInto key combine x m).Pairwise fun a b => key a < key b := by
  induction m with
  | nil => simp [mergeInto]
  | cons y m ih =>
    obtain ⟨hy, hm'⟩ := List.pairwise_cons.mp hm
    rw [mergeInto]
    split
    -- The keys are equal: the element is combined with the one that is there.
    next heq => exact List.pairwise_cons.mpr ⟨fun w hw => hkey y x heq ▸ hy w hw, hm'⟩
    next hne =>
      split
      next hlt =>
        -- The key is smaller: the element goes in front.
        refine List.pairwise_cons.mpr ⟨fun w hw => ?_, hm⟩
        rcases List.mem_cons.mp hw with rfl | hw
        · exact hlt
        · exact hlt.trans (hy w hw)
      next hnlt =>
        -- The key is larger: the element goes into the rest.
        refine List.pairwise_cons.mpr ⟨fun w hw => ?_, ih hm'⟩
        rcases (mem_map_key_mergeInto hkey).mp (List.mem_map_of_mem hw) with hx | hmem
        · exact hx ▸ lt_of_le_of_ne (not_lt.mp hnlt) (Ne.symm hne)
        · obtain ⟨v, hv, hvw⟩ := List.mem_map.mp hmem
          exact hvw ▸ hy v hv

variable (key) (tier : α → τ) (rank : τ → ℕ)

/-- The tier is the strongest one among the elements with the key. -/
def Strongest (l : List α) (k : κ) (t : τ) : Prop :=
  (∃ x ∈ l, key x = k ∧ tier x = t) ∧ ∀ x ∈ l, key x = k → rank (tier x) ≤ rank t

instance [DecidableEq τ] (l : List α) (k : κ) (t : τ) :
    Decidable (Strongest key tier rank l k t) :=
  inferInstanceAs (Decidable (_ ∧ _))

/-- The elements of `m` represent the elements of `l`: one for each key, with the strongest tier. -/
structure Represents (l m : List α) : Prop where
  /-- The representatives stand in the order of their keys. -/
  sorted : m.Pairwise fun a b => key a < key b
  /-- Their keys are those of the elements. -/
  keys : ∀ k, k ∈ m.map key ↔ k ∈ l.map key
  /-- Their tiers are the strongest. -/
  strongest : ∀ y ∈ m, Strongest key tier rank l (key y) (tier y)

variable {key tier rank} {l : List α} {y : α} {t : τ}

omit [LinearOrder κ] in
theorem Strongest.unique (hrank : Function.Injective rank) {k : κ} {t' : τ}
    (h : Strongest key tier rank l k t) (h' : Strongest key tier rank l k t') : t = t' := by
  obtain ⟨⟨x, hx, hxk, rfl⟩, hle⟩ := h
  obtain ⟨⟨x', hx', hxk', rfl⟩, hle'⟩ := h'
  exact hrank (le_antisymm (hle' x hx hxk) (hle x' hx' hxk'))

/-- One more element is merged into the representatives. -/
theorem Represents.mergeInto (hkey : ∀ y x, key x = key y → key (combine y x) = key y)
    (htier : ∀ y x, tier (combine y x) = if rank (tier y) < rank (tier x) then tier x else tier y)
    (h : Represents key tier rank l m) :
    Represents key tier rank (l ++ [x]) (mergeInto key combine x m) where
  sorted := pairwise_mergeInto hkey h.sorted
  keys k := by
    rw [mem_map_key_mergeInto hkey, h.keys, List.map_append, List.mem_append, or_comm]
    simp
  strongest z hz := by
    rcases mem_mergeInto_cases h.sorted hz with ⟨hmem, hne⟩ | ⟨rfl, hnew⟩ | ⟨y, hy, hyx, rfl⟩
    · -- An element with another key changes nothing.
      obtain ⟨⟨w, hw, hwk, hwt⟩, hle⟩ := h.strongest z hmem
      refine ⟨⟨w, List.mem_append_left _ hw, hwk, hwt⟩, fun v hv hvk => ?_⟩
      rcases List.mem_append.mp hv with hv | hv
      · exact hle v hv hvk
      · exact absurd (List.mem_singleton.mp hv ▸ hvk).symm hne
    · -- The first element with its key.
      refine ⟨⟨z, by simp, rfl, rfl⟩, fun v hv hvk => ?_⟩
      rcases List.mem_append.mp hv with hv | hv
      · exact absurd ((h.keys _).mpr (hvk ▸ List.mem_map_of_mem hv)) hnew
      · exact (List.mem_singleton.mp hv) ▸ le_rfl
    · obtain ⟨⟨w, hw, hwk, hwt⟩, hle⟩ := h.strongest y hy
      have hck : key (combine y x) = key y := hkey y x hyx.symm
      rw [htier, hck]
      split
      next hlt =>
        -- The new element is stronger than all before it.
        refine ⟨⟨x, by simp, hyx.symm, rfl⟩, fun v hv hvk => ?_⟩
        rcases List.mem_append.mp hv with hv | hv
        · exact (hle v hv hvk).trans hlt.le
        · exact (List.mem_singleton.mp hv) ▸ le_rfl
      next hnlt =>
        refine ⟨⟨w, List.mem_append_left _ hw, hwk, hwt⟩, fun v hv hvk => ?_⟩
        rcases List.mem_append.mp hv with hv | hv
        · exact hle v hv hvk
        · exact (List.mem_singleton.mp hv) ▸ not_lt.mp hnlt

/-- `mergeByKey` makes the representatives of a list. -/
theorem represents_mergeByKey (hkey : ∀ y x, key x = key y → key (combine y x) = key y)
    (htier : ∀ y x, tier (combine y x) = if rank (tier y) < rank (tier x) then tier x else tier y)
    (l : List α) : Represents key tier rank l (mergeByKey key combine l) := by
  have hrun : ∀ (l done m : List α), Represents key tier rank done m →
      Represents key tier rank (done ++ l)
        (l.foldl (fun m x => Library.mergeInto key combine x m) m) := by
    intro l
    induction l with
    | nil => exact fun done m h => (List.append_nil done).symm ▸ h
    | cons x l ih =>
      intro done m h
      have hstep := ih (done ++ [x]) _ (h.mergeInto (x := x) hkey htier)
      rwa [List.append_assoc] at hstep
  exact hrun l [] [] ⟨by simp, by simp, by simp⟩

/-- What holds of the elements and is kept by combining two of them holds of the representatives. -/
theorem forall_mem_mergeByKey {P : α → Prop} (hcombine : ∀ y x, P y → P x → P (combine y x))
    {l : List α} (hl : ∀ x ∈ l, P x) : ∀ z ∈ mergeByKey key combine l, P z := by
  have hstep : ∀ (x : α) (m : List α), P x → (∀ z ∈ m, P z) →
      ∀ z ∈ Library.mergeInto key combine x m, P z := by
    intro x m hx
    induction m with
    | nil => simpa [Library.mergeInto] using hx
    | cons y m ih =>
      intro hm
      obtain ⟨hy, hm'⟩ := List.forall_mem_cons.mp hm
      rw [Library.mergeInto]
      split
      -- The key is there: the two elements are combined.
      next => exact List.forall_mem_cons.mpr ⟨hcombine y x hy hx, hm'⟩
      next =>
        split
        next => exact List.forall_mem_cons.mpr ⟨hx, hm⟩
        next => exact List.forall_mem_cons.mpr ⟨hy, ih hm'⟩
  exact List.foldlRecOn l _ (motive := fun m => ∀ z ∈ m, P z) (by simp)
    fun m hm x hx => hstep x m (hl x hx) hm

theorem Represents.nodup_keys (h : Represents key tier rank l m) : (m.map key).Nodup := by
  rw [List.nodup_iff_pairwise_ne, List.pairwise_map]
  exact h.sorted.imp fun hlt => hlt.ne

/-- The keys of the representatives are the keys of the elements, each once. -/
theorem Represents.perm_keys (h : Represents key tier rank l m) :
    (m.map key).Perm (l.map key).dedup := by
  apply (List.perm_ext_iff_of_nodup h.nodup_keys (List.nodup_dedup _)).mpr
  intro k
  rw [List.mem_dedup, h.keys]

/-! ### The groups behind the representatives -/

/-- The representatives stand in the order of their keys, which are those of the elements. -/
theorem keys_mergeByKey (hkey : ∀ y x, key x = key y → key (combine y x) = key y) (l : List α) :
    ((mergeByKey key combine l).map key).Nodup ∧
      ∀ k, k ∈ (mergeByKey key combine l).map key ↔ k ∈ l.map key := by
  have h : Represents key (fun _ : α => ()) (fun _ => 0) l (mergeByKey key combine l) :=
    represents_mergeByKey hkey (fun _ _ => rfl) l
  exact ⟨h.nodup_keys, h.keys⟩

/-- Each representative is combined from the elements with its key, in their order. -/
theorem exists_group_of_mem_mergeByKey
    (hkey : ∀ y x, key x = key y → key (combine y x) = key y) {l : List α}
    (hz : z ∈ mergeByKey key combine l) :
    ∃ x xs, l.filter (fun w => key w = key z) = x :: xs ∧ z = xs.foldl combine x := by
  induction l using List.reverseRecOn generalizing z with
  | nil => simp [mergeByKey] at hz
  | append_singleton l x ih =>
    have hsorted : (mergeByKey key combine l).Pairwise fun a b => key a < key b :=
      (represents_mergeByKey hkey (fun _ _ => rfl) l :
        Represents key (fun _ : α => ()) (fun _ => 0) l _).sorted
    rw [mergeByKey, List.foldl_append] at hz
    rw [List.filter_append]
    obtain ⟨hmem, hne⟩ | ⟨rfl, hnew⟩ | ⟨y, hy, hyx, rfl⟩ := mem_mergeInto_cases hsorted hz
    · -- The new element has another key.
      obtain ⟨w, ws, hgroup, heq⟩ := ih hmem
      exact ⟨w, ws, by simp [hgroup, Ne.symm hne], heq⟩
    · -- It is the first one with its key.
      have hnone : l.filter (fun w => key w = key z) = [] := by
        rw [List.filter_eq_nil_iff]
        intro w hw heq
        refine hnew ?_
        rw [(keys_mergeByKey hkey l).2, ← of_decide_eq_true heq]
        exact List.mem_map_of_mem hw
      exact ⟨z, [], by simp [hnone], rfl⟩
    · obtain ⟨w, ws, hgroup, heq⟩ := ih hy
      have hck : key (combine y x) = key y := hkey y x hyx.symm
      refine ⟨w, ws ++ [x], ?_, by simp [← heq]⟩
      rw [hck, hgroup]
      simp [hyx]

/-- A list that combining joins is made up of those of the group, in their order. -/
theorem eq_flatMap_group_of_mem_mergeByKey {β : Type*} {f : α → List β}
    (hkey : ∀ y x, key x = key y → key (combine y x) = key y)
    (hf : ∀ y x, f (combine y x) = f y ++ f x) {l : List α} (hz : z ∈ mergeByKey key combine l) :
    f z = (l.filter fun w => key w = key z).flatMap f := by
  have hfold : ∀ (xs : List α) (x : α), f (xs.foldl combine x) = (x :: xs).flatMap f := by
    intro xs
    induction xs with
    | nil => simp
    | cons y xs ih =>
      intro x
      rw [List.foldl_cons, ih, List.flatMap_cons, hf]
      simp
  obtain ⟨x, xs, hgroup, heq⟩ := exists_group_of_mem_mergeByKey hkey hz
  rw [hgroup, ← hfold, ← heq]

omit [LinearOrder κ] in
/-- Where each key occurs once, looking up all keys in some order brings back the list. -/
theorem filterMap_find_perm [DecidableEq κ] {l : List α} {ks : List κ} (hl : (l.map key).Nodup)
    (hks : ks.Perm (l.map key)) : (ks.filterMap fun k => l.find? fun x => key x = k).Perm l := by
  have hfind : ∀ x ∈ l, (l.find? fun y => key y = key x) = some x := by
    intro x hx
    cases hy : l.find? fun y => key y = key x with
    | none => exact absurd (decide_eq_true rfl) (List.find?_eq_none.mp hy x hx)
    | some y =>
      have hkey : key y = key x := of_decide_eq_true (List.find?_some (p := fun y => key y = key x) hy)
      rw [List.inj_on_of_nodup_map hl (List.mem_of_find?_eq_some hy) hx hkey]
  have hback : ((l.map key).filterMap fun k => l.find? fun x => key x = k) = l := by
    rw [List.filterMap_map]
    exact (List.filterMap_congr hfind).trans List.filterMap_some
  have hperm := hks.filterMap fun k => l.find? fun x => key x = k
  rwa [hback] at hperm

/-- There is one representative for each key. -/
theorem perm_keys_mergeByKey (hkey : ∀ y x, key x = key y → key (combine y x) = key y)
    (l : List α) : ((mergeByKey key combine l).map key).Perm (l.map key).dedup := by
  have h : Represents key (fun _ : α => ()) (fun _ => 0) l (mergeByKey key combine l) :=
    represents_mergeByKey hkey (fun _ _ => rfl) l
  exact h.perm_keys

/-- The groups of the representatives make up the list. -/
theorem sum_length_groups (hkey : ∀ y x, key x = key y → key (combine y x) = key y) (l : List α) :
    ((mergeByKey key combine l).map fun z => (l.filter fun w => key w = key z).length).sum =
      l.length := by
  have hperm := perm_keys_mergeByKey hkey l
  have hcount : ∀ k, (l.filter fun w => key w = k).length = (l.map key).count k := by
    intro k
    rw [← List.countP_eq_length_filter, List.count, List.countP_map]
    exact List.countP_congr fun w _ => by simp
  calc ((mergeByKey key combine l).map fun z => (l.filter fun w => key w = key z).length).sum
      = (((mergeByKey key combine l).map key).map fun k => (l.map key).count k).sum := by
        simp only [hcount, List.map_map, Function.comp_def]
    _ = ((l.map key).dedup.map fun k => (l.map key).count k).sum := (hperm.map _).sum_eq
    _ = l.length := by rw [List.sum_map_count_dedup_eq_length, List.length_map]

/-- What the representatives carry is what the elements carry, if combining joins it. -/
theorem flatMap_mergeByKey_perm {β : Type*} {f : α → List β}
    (hf : ∀ y x, f (combine y x) = f y ++ f x) (l : List α) :
    ((mergeByKey key combine l).flatMap f).Perm (l.flatMap f) := by
  have hinto : ∀ (x : α) (m : List α),
      ((Library.mergeInto key combine x m).flatMap f).Perm (m.flatMap f ++ f x) := by
    intro x m
    induction m with
    | nil => simp [Library.mergeInto]
    | cons y m ih =>
      rw [Library.mergeInto]
      split_ifs
      · -- The combination carries what both carry.
        rw [List.flatMap_cons, List.flatMap_cons, hf, List.append_assoc, List.append_assoc]
        exact List.perm_append_comm.append_left _
      · exact List.perm_append_comm
      · rw [List.flatMap_cons, List.flatMap_cons, List.append_assoc]
        exact ih.append_left _
  induction l using List.reverseRecOn with
  | nil => exact List.Perm.refl _
  | append_singleton l x ih =>
    rw [mergeByKey, List.foldl_append, List.flatMap_append, List.flatMap_singleton]
    exact (hinto x _).trans (ih.append_right _)

/-- A map that respects the keys and the combination respects the representatives. -/
theorem map_mergeByKey {β : Type*} {key' : β → κ} {combine' : β → β → β} (f : α → β)
    (hkey : ∀ x, key' (f x) = key x) (hcombine : ∀ y x, f (combine y x) = combine' (f y) (f x))
    (l : List α) : (mergeByKey key combine l).map f = mergeByKey key' combine' (l.map f) := by
  have hinto : ∀ (x : α) (m : List α), (Library.mergeInto key combine x m).map f =
      Library.mergeInto key' combine' (f x) (m.map f) := by
    intro x m
    induction m with
    | nil => rfl
    | cons y m ih =>
      -- The two loops compare equal keys, so they take the same branch.
      rw [List.map_cons, Library.mergeInto, Library.mergeInto, hkey, hkey]
      split_ifs
      · rw [List.map_cons, hcombine]
      · rfl
      · rw [List.map_cons, ih]
  rw [mergeByKey, mergeByKey, List.foldl_map]
  exact List.foldl_hom (List.map f) (fun m x => (hinto x m).symm) |>.symm

/-- There is one representative of a tier for each key whose strongest tier it is. -/
theorem countP_tier_of_represents [DecidableEq τ] (hrank : Function.Injective rank)
    (h : Represents key tier rank l m) :
    m.countP (fun y => tier y = t) =
      ((l.map key).dedup.filter fun k => Strongest key tier rank l k t).length := by
  calc m.countP (fun y => tier y = t)
      = m.countP (fun y => Strongest key tier rank l (key y) t) := by
        apply List.countP_congr
        intro y hy
        simp only [decide_eq_true_eq]
        exact ⟨fun ht => ht ▸ h.strongest y hy, fun ht => (h.strongest y hy).unique hrank ht⟩
    _ = (m.map key).countP (fun k => Strongest key tier rank l k t) := by
        rw [List.countP_map]
        rfl
    _ = ((l.map key).dedup).countP (fun k => Strongest key tier rank l k t) :=
        h.perm_keys.countP_eq _
    _ = _ := List.countP_eq_length_filter

end Grouping

/-! ### Capped selection -/

section Selection

variable [DecidableEq τ] (tier : α → τ) (cap : τ → ℕ) (total : ℕ)

/-- The selection loop, with the number of elements taken of each tier and the elements selected so
far. -/
def selectLoop : List α → (τ → ℕ) → List α → List α
  | [], _, selected => selected
  | x :: l, taken, selected =>
    if total ≤ selected.length then selected
    else if cap (tier x) ≤ taken (tier x) then selectLoop l taken selected
    else
      selectLoop l (Function.update taken (tier x) (taken (tier x) + 1)) (selected ++ [x])

/-- Select elements in order, at most `cap t` of tier `t` and at most `total` in all. -/
def selectCapped (l : List α) : List α := selectLoop tier cap total l (fun _ => 0) []

/-- The counters of the loop are right, and no cap is exceeded. -/
structure SelectInv (taken : τ → ℕ) (selected : List α) : Prop where
  /-- What is counted of a tier is what is selected of it. -/
  taken_eq : ∀ t, taken t = selected.countP fun x => tier x = t
  /-- No tier exceeds its cap. -/
  taken_le : ∀ t, taken t ≤ cap t
  /-- The total is not exceeded. -/
  length_le : selected.length ≤ total

variable {tier cap total} {l selected : List α} {taken : τ → ℕ} {x : α}

theorem SelectInv.nil : SelectInv tier cap total (fun _ => 0) [] :=
  ⟨by simp, by simp, by simp⟩

theorem SelectInv.snoc (h : SelectInv tier cap total taken selected)
    (htotal : ¬total ≤ selected.length) (hcap : ¬cap (tier x) ≤ taken (tier x)) :
    SelectInv tier cap total (Function.update taken (tier x) (taken (tier x) + 1))
      (selected ++ [x]) where
  taken_eq t := by
    by_cases ht : t = tier x
    · subst ht
      simp [h.taken_eq]
    · simp [h.taken_eq, ht, Ne.symm ht]
  taken_le t := by
    by_cases ht : t = tier x
    · subst ht
      simpa using Nat.succ_le_of_lt (not_le.mp hcap)
    · simpa [ht] using h.taken_le t
  length_le := by simpa using Nat.succ_le_of_lt (not_le.mp htotal)

/-- The invariant holds at the end of the loop, for some counters. -/
theorem SelectInv.run (h : SelectInv tier cap total taken selected) :
    ∃ taken', SelectInv tier cap total taken' (selectLoop tier cap total l taken selected) := by
  fun_induction selectLoop tier cap total l taken selected with
  | case1 => exact ⟨_, h⟩
  | case2 => exact ⟨_, h⟩
  | case3 _ _ _ _ _ _ ih => exact ih h
  | case4 _ _ _ _ htotal hcap ih => exact ih (h.snoc htotal hcap)

/-- What is selected stays selected. -/
theorem prefix_selectLoop : selected <+: selectLoop tier cap total l taken selected := by
  fun_induction selectLoop tier cap total l taken selected with
  | case1 => exact List.prefix_refl _
  | case2 => exact List.prefix_refl _
  | case3 _ _ _ _ _ _ ih => exact ih
  | case4 x _ _ selected _ _ ih => exact (List.prefix_append selected [x]).trans ih

/-- The selection keeps the order of the elements. -/
theorem selectLoop_sublist :
    (selectLoop tier cap total l taken selected).Sublist (selected ++ l) := by
  fun_induction selectLoop tier cap total l taken selected with
  | case1 => simp
  | case2 => exact List.sublist_append_left _ _
  | case3 _ _ _ _ _ _ ih => exact ih.trans ((List.sublist_cons_self _ _).append_left _)
  | case4 _ _ _ _ _ _ ih => simpa using ih

/-- An element that is not selected met the cap of its tier, or the total. -/
theorem mem_or_reached_selectLoop (hinv : SelectInv tier cap total taken selected) (hx : x ∈ l) :
    let result := selectLoop tier cap total l taken selected
    x ∈ result ∨ cap (tier x) ≤ result.countP (fun y => tier y = tier x) ∨
      total ≤ result.length := by
  fun_induction selectLoop tier cap total l taken selected with
  | case1 => simp at hx
  | case2 _ _ _ _ htotal => exact Or.inr (Or.inr htotal)
  | case3 y l taken selected _ hcap ih =>
    rcases List.mem_cons.mp hx with rfl | hx
    · -- What was selected of the tier reaches its cap already.
      refine Or.inr (Or.inl (hcap.trans ?_))
      rw [hinv.taken_eq]
      exact prefix_selectLoop.sublist.countP_le
    · exact ih hinv hx
  | case4 y l taken selected htotal hcap ih =>
    rcases List.mem_cons.mp hx with rfl | hx
    · exact Or.inl (prefix_selectLoop.subset (by simp))
    · exact ih (hinv.snoc htotal hcap) hx

theorem sum_countP [Fintype τ] (tier : α → τ) (l : List α) :
    ∑ t, l.countP (fun x => tier x = t) = l.length := by
  induction l with
  | nil => simp
  | cons x l ih => simp [List.countP_cons, Finset.sum_add_distrib, ih]

/-- The loop selects of each tier what the caps allow, up to the total. -/
theorem length_selectLoop [Fintype τ] (hinv : SelectInv tier cap total taken selected) :
    (selectLoop tier cap total l taken selected).length =
      min total (∑ t, min (cap t) (taken t + l.countP fun x => tier x = t)) := by
  fun_induction selectLoop tier cap total l taken selected with
  | case1 taken selected =>
    have hsum : ∑ t, min (cap t) (taken t) = selected.length := by
      rw [← sum_countP tier selected]
      refine Finset.sum_congr rfl fun t _ => ?_
      rw [min_eq_right (hinv.taken_le t), hinv.taken_eq]
    simpa [hsum] using hinv.length_le
  | case2 x l taken selected htotal =>
    -- The total is reached, and what is left can only add to the sum.
    have hle : selected.length ≤
        ∑ t, min (cap t) (taken t + (x :: l).countP fun y => tier y = t) := by
      rw [← sum_countP tier selected]
      refine Finset.sum_le_sum fun t _ => ?_
      rw [← hinv.taken_eq]
      exact le_min (hinv.taken_le t) (Nat.le_add_right _ _)
    rw [min_eq_left (htotal.trans hle)]
    exact le_antisymm hinv.length_le htotal
  | case3 x l taken selected _ hcap ih =>
    -- The tier of `x` counts for its cap already.
    rw [ih hinv]
    congr 1
    refine Finset.sum_congr rfl fun t _ => ?_
    by_cases ht : tier x = t
    · subst ht
      rw [min_eq_left (hcap.trans (Nat.le_add_right _ _)),
        min_eq_left (hcap.trans (Nat.le_add_right _ _))]
    · simp [ht]
  | case4 x l taken selected htotal hcap ih =>
    -- `x` moves from what is left to what is taken.
    rw [ih (hinv.snoc htotal hcap)]
    congr 1
    refine Finset.sum_congr rfl fun t _ => ?_
    by_cases ht : tier x = t
    · subst ht
      simp [Nat.add_assoc, Nat.add_comm 1]
    · simp [ht, Ne.symm ht]

/-- How many elements are selected. -/
theorem length_selectCapped [Fintype τ] (l : List α) :
    (selectCapped tier cap total l).length =
      min total (∑ t, min (cap t) (l.countP fun x => tier x = t)) := by
  rw [selectCapped, length_selectLoop SelectInv.nil]
  simp

theorem selectCapped_sublist (l : List α) : (selectCapped tier cap total l).Sublist l :=
  selectLoop_sublist

theorem mem_of_mem_selectCapped (h : x ∈ selectCapped tier cap total l) : x ∈ l :=
  (selectCapped_sublist l).subset h

/-- What is selected belongs to a tier whose cap is not zero. -/
theorem cap_ne_zero_of_mem_selectCapped (h : x ∈ selectCapped tier cap total l) :
    cap (tier x) ≠ 0 := by
  obtain ⟨taken, hinv⟩ :
      ∃ taken, SelectInv tier cap total taken (selectCapped tier cap total l) := SelectInv.nil.run
  have hpos : 0 < taken (tier x) := by
    rw [hinv.taken_eq]
    exact List.countP_pos_iff.mpr ⟨x, h, by simp⟩
  exact (hpos.trans_le (hinv.taken_le _)).ne'

/-- Only the total or a cap that is not zero keeps an element out, if and only if no element belongs
to a tier with cap zero, or there are enough others to reach the total. -/
theorem selectCapped_recall_iff [Fintype τ] (tier : α → τ) (cap : τ → ℕ) (total : ℕ) (l : List α) :
    (∀ x ∈ l, x ∈ selectCapped tier cap total l ∨
      (cap (tier x) ≠ 0 ∧
        cap (tier x) ≤ (selectCapped tier cap total l).countP fun y => tier y = tier x) ∨
      total ≤ (selectCapped tier cap total l).length) ↔
    (∀ x ∈ l, cap (tier x) ≠ 0) ∨
      total ≤ ∑ t, min (cap t) (l.countP fun x => tier x = t) := by
  have hreached : total ≤ (selectCapped tier cap total l).length ↔
      total ≤ ∑ t, min (cap t) (l.countP fun x => tier x = t) := by
    rw [length_selectCapped]
    simp
  rw [hreached]
  by_cases htotal : total ≤ ∑ t, min (cap t) (l.countP fun x => tier x = t)
  · simp [htotal]
  · simp only [htotal, or_false]
    refine forall₂_congr fun x hx => ⟨?_, fun hcap => ?_⟩
    · rintro (hsel | ⟨hcap, -⟩)
      · exact cap_ne_zero_of_mem_selectCapped hsel
      · exact hcap
    · -- The loop passes over an element only at the cap of its tier or at the total.
      have hinv : SelectInv tier cap total (fun _ => 0) ([] : List α) := SelectInv.nil
      rcases mem_or_reached_selectLoop hinv hx with hsel | hfull | hfull
      · exact Or.inl hsel
      · exact Or.inr ⟨hcap, hfull⟩
      · exact absurd (hreached.mp hfull) htotal

end Selection

end Lace.Library
