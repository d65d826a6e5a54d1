import Lace.Surface.AccessGroups

/-!
# The propagation of frees to fields

Step 2b of `collectSharedObjects`. A free of a whole struct is an access under offset zero; it is
copied into the groups of the other fields of the struct. The loop skips a free whose thread occurs
among those of the field, also where other threads access the field as well.

## Main definitions

* `AccessTable.propagateFrees`: step 2b;
* `AccessTable.linked`: the copies that a group gets;
* `AccessTable.FreesPropagated`: what the step promises;
* `AccessTable.FreersApart`: a freeing thread that touches a field is the only one that does.

## Main results

* `AccessTable.accessesOf_propagateFrees`: the accesses of the groups after the step;
* `AccessTable.freesPropagated_iff`: when the step keeps its promise.
-/

namespace Lace

/-- The copy of a free for the group of a field. -/
def RawAccess.synthetic (a : RawAccess) (key : SharedFieldKey) : RawAccess :=
  { a with key := key, code := "[implicit-via-parent-free] " ++ a.code }

/-- A group of a field other than the first one. -/
def AccessGroup.IsField (g : AccessGroup) : Prop :=
  g.key.kind = .structField ∧ g.key.fieldOffset ≠ 0

instance (g : AccessGroup) : Decidable g.IsField := inferInstanceAs (Decidable (_ ∧ _))

/-- The group of a whole struct. -/
def AccessGroup.IsParentOf (p g : AccessGroup) : Prop :=
  p.key.kind = .structField ∧ p.key.fieldOffset = 0 ∧ p.key.typeName = g.key.typeName

instance (p g : AccessGroup) : Decidable (p.IsParentOf g) := inferInstanceAs (Decidable (_ ∧ _))

namespace AccessTable

variable (T : AccessTable)

/-- `freeOfStructByType`: the groups of the struct with a free. -/
def freeOfStructByType (g : AccessGroup) : List AccessGroup :=
  T.groups.filter fun p => p.IsParentOf g ∧ (T.accessesOf p).any RawAccess.isFree

/-- One turn of the innermost loop: the access is copied if it is a free of another thread. -/
def linkFree (myThreads : List ThreadId) (key : SharedFieldKey) (s : List RawAccess × List ℕ)
    (fIdx : ℕ) : List RawAccess × List ℕ :=
  match s.1[fIdx]? with
  | none => s
  | some parentAcc =>
    if !parentAcc.isFree then s
    -- Skipped as soon as the thread is one of the field's, whoever else accesses it.
    else if parentAcc.thread ∈ myThreads then s
    else (s.1 ++ [parentAcc.synthetic key], s.2 ++ [s.1.length])

/-- One turn of the loop over the groups, with the accesses so far. -/
def linkGroup (accesses : List RawAccess) (g : AccessGroup) : List RawAccess × AccessGroup :=
  if g.IsField then
    let myThreads := (accessesAt accesses g.accessIndices).map RawAccess.thread
    let parentIndices := (T.freeOfStructByType g).flatMap AccessGroup.accessIndices
    let s := parentIndices.foldl (linkFree myThreads g.key) (accesses, g.accessIndices)
    (s.1, { g with accessIndices := s.2 })
  else (accesses, g)

/-- The loop over the groups. -/
def linkGroups : List RawAccess → List AccessGroup → List RawAccess × List AccessGroup
  | accesses, [] => (accesses, [])
  | accesses, g :: gs =>
    let r := T.linkGroup accesses g
    let rest := linkGroups r.1 gs
    (rest.1, r.2 :: rest.2)

/-- The free of another thread than those that access the group. -/
def linkedFrees (g : AccessGroup) : List RawAccess :=
  ((T.freeOfStructByType g).flatMap T.accessesOf).filter fun f =>
    f.isFree && f.thread ∉ (T.accessesOf g).map RawAccess.thread

/-- The copies that a group gets. -/
def linked (g : AccessGroup) : List RawAccess :=
  if g.IsField then (T.linkedFrees g).map (RawAccess.synthetic · g.key) else []

variable {T} {g : AccessGroup}

theorem mem_freeOfStructByType {p : AccessGroup} : p ∈ T.freeOfStructByType g ↔
    p ∈ T.groups ∧ p.IsParentOf g ∧ ∃ f ∈ T.accessesOf p, f.isFree = true := by
  simp [freeOfStructByType]

/-! ### The loops -/

/-- The innermost loops append the copies and their positions. -/
theorem foldl_linkFree (myThreads : List ThreadId) (key : SharedFieldKey)
    (accesses : List RawAccess) (indices parentIndices : List ℕ) (new : List RawAccess)
    (hvalid : ∀ i ∈ parentIndices, i < accesses.length) :
    parentIndices.foldl (linkFree myThreads key)
        (accesses ++ new, indices ++ List.range' accesses.length new.length) =
      let copies := ((accessesAt accesses parentIndices).filter fun f =>
        f.isFree && f.thread ∉ myThreads).map (RawAccess.synthetic · key)
      (accesses ++ (new ++ copies),
        indices ++ List.range' accesses.length (new ++ copies).length) := by
  -- Induction on the positions of the frees; `new` are the copies so far.
  induction parentIndices generalizing new with
  | nil => simp [accessesAt]
  | cons i rest ih =>
    have hi : i < accesses.length := hvalid i (by simp)
    have hrest : ∀ j ∈ rest, j < accesses.length := fun j hj =>
      hvalid j (List.mem_cons_of_mem _ hj)
    -- The loop reads at old positions only, whatever it has appended.
    have hget : (accesses ++ new)[i]? = some accesses[i] := by
      rw [List.getElem?_append_left hi, List.getElem?_eq_getElem hi]
    have hat : accessesAt accesses (i :: rest) = accesses[i] :: accessesAt accesses rest := by
      rw [accessesAt, List.filterMap_cons_some (List.getElem?_eq_getElem hi)]
      rfl
    rw [List.foldl_cons, hat, List.filter_cons]
    by_cases hcopy : (accesses[i].isFree && accesses[i].thread ∉ myThreads) = true
    · -- The free is copied behind what was appended before.
      have hstep : linkFree myThreads key
          (accesses ++ new, indices ++ List.range' accesses.length new.length) i =
          (accesses ++ (new ++ [accesses[i].synthetic key]),
            indices ++
              List.range' accesses.length (new ++ [accesses[i].synthetic key]).length) := by
        rw [Bool.and_eq_true, decide_eq_true_eq] at hcopy
        simp [linkFree, hget, hcopy.1, hcopy.2, List.range'_concat]
      rw [hstep, ih _ hrest, if_pos hcopy]
      simp
    · -- The access is no free, or its thread accesses the field.
      have hstep : linkFree myThreads key
          (accesses ++ new, indices ++ List.range' accesses.length new.length) i =
          (accesses ++ new, indices ++ List.range' accesses.length new.length) := by
        simp only [linkFree, hget]
        split_ifs with hfree hmem
        · rfl
        · rfl
        · exact absurd (by simpa [hmem] using hfree) hcopy
      rw [hstep, ih _ hrest, if_neg hcopy]

/-- The group with some more positions. -/
def extend (g : AccessGroup) (start count : ℕ) : AccessGroup :=
  { g with accessIndices := g.accessIndices ++ List.range' start count }

/-- A turn of the loop over the groups appends the copies of the group. -/
theorem linkGroup_eq (hg : g ∈ T.groups) (new : List RawAccess) :
    T.linkGroup (T.allAccesses ++ new) g =
      (T.allAccesses ++ (new ++ T.linked g),
        extend g (T.allAccesses ++ new).length (T.linked g).length) := by
  unfold linkGroup linked
  split_ifs with hfield
  · have hparents : accessesAt T.allAccesses
        ((T.freeOfStructByType g).flatMap AccessGroup.accessIndices) =
        (T.freeOfStructByType g).flatMap T.accessesOf := by
      rw [accessesAt, List.filterMap_flatMap]
      rfl
    have hvalid : ∀ i ∈ (T.freeOfStructByType g).flatMap AccessGroup.accessIndices,
        i < (T.allAccesses ++ new).length := by
      intro i hi
      obtain ⟨p, hp, hip⟩ := List.mem_flatMap.mp hi
      have := T.valid p (mem_freeOfStructByType.mp hp).1 i hip
      rw [List.length_append]
      omega
    -- `myThreads` is read off the accesses that the group had before.
    have hown : accessesAt (T.allAccesses ++ new) g.accessIndices = T.accessesOf g :=
      accessesAt_append (T.valid g hg)
    have hfold := foldl_linkFree ((T.accessesOf g).map RawAccess.thread) g.key
      (T.allAccesses ++ new) g.accessIndices _ [] hvalid
    -- The positions of the parents are old ones, so what was appended before does not matter.
    rw [accessesAt_append fun i hi => by
      obtain ⟨p, hp, hip⟩ := List.mem_flatMap.mp hi
      exact T.valid p (mem_freeOfStructByType.mp hp).1 i hip, hparents] at hfold
    simp only [List.append_nil, List.nil_append, List.length_nil, List.range'_zero] at hfold
    simp only [hown, hfold, extend, linkedFrees, List.append_assoc]
  · -- A group that is not of a field gets nothing.
    simp [extend]

/-- The groups after the loop, each with the positions of its copies. -/
def extendAll (T : AccessTable) : ℕ → List AccessGroup → List AccessGroup
  | _, [] => []
  | start, g :: gs =>
    extend g start (T.linked g).length :: extendAll T (start + (T.linked g).length) gs

theorem linkGroups_eq (gs : List AccessGroup) (hgs : ∀ g ∈ gs, g ∈ T.groups)
    (new : List RawAccess) : T.linkGroups (T.allAccesses ++ new) gs =
      (T.allAccesses ++ (new ++ gs.flatMap T.linked),
        T.extendAll (T.allAccesses ++ new).length gs) := by
  -- Each turn starts with the copies of the groups before.
  induction gs generalizing new with
  | nil => simp [linkGroups, extendAll]
  | cons g gs ih =>
    rw [linkGroups, linkGroup_eq (hgs g (by simp)) new]
    simp only [ih (fun g hg => hgs g (List.mem_cons_of_mem _ hg)), extendAll, List.flatMap_cons,
      List.append_assoc, List.length_append, Nat.add_assoc]

theorem length_extendAll (start : ℕ) (gs : List AccessGroup) :
    (T.extendAll start gs).length = gs.length := by
  induction gs generalizing start with
  | nil => rfl
  | cons g gs ih => rw [extendAll, List.length_cons, ih, List.length_cons]

/-- The positions that a group gets are those of its copies. -/
theorem getElem?_extendAll (start : ℕ) (gs : List AccessGroup) (gi : ℕ) :
    (T.extendAll start gs)[gi]? = gs[gi]?.map fun g =>
      extend g (start + ((gs.take gi).flatMap T.linked).length) (T.linked g).length := by
  induction gs generalizing start gi with
  | nil => rfl
  | cons g gs ih =>
    cases gi with
    | zero => simp [extendAll]
    | succ gi => simp [extendAll, ih, Nat.add_assoc]

theorem map_key_extendAll (start : ℕ) (gs : List AccessGroup) :
    (T.extendAll start gs).map AccessGroup.key = gs.map AccessGroup.key := by
  induction gs generalizing start with
  | nil => rfl
  | cons g gs ih =>
    rw [extendAll, List.map_cons, ih, List.map_cons]
    rfl

/-- The loop over the groups of the table. -/
theorem linkGroups_groups (T : AccessTable) : T.linkGroups T.allAccesses T.groups =
    (T.allAccesses ++ T.groups.flatMap T.linked,
      T.extendAll T.allAccesses.length T.groups) := by
  have heq := linkGroups_eq (T := T) T.groups (fun _ h => h) []
  rwa [List.append_nil, List.nil_append] at heq

/-- The position of the first copy of the group at a position. -/
def firstCopy (T : AccessTable) (gi : ℕ) : ℕ :=
  T.allAccesses.length + ((T.groups.take gi).flatMap T.linked).length

/-- The copies of a group are where its new positions are. -/
theorem accessesAt_copies {gi : ℕ} (hg : T.groups[gi]? = some g) :
    accessesAt (T.allAccesses ++ T.groups.flatMap T.linked)
      (List.range' (T.firstCopy gi) (T.linked g).length) = T.linked g := by
  -- The copies of the groups before `g`, of `g`, and of those behind it.
  have hsplit : T.groups = T.groups.take gi ++ g :: T.groups.drop (gi + 1) := by
    obtain ⟨hlt, rfl⟩ := List.getElem?_eq_some_iff.mp hg
    rw [← List.drop_eq_getElem_cons hlt, List.take_append_drop]
  have hall : T.allAccesses ++ T.groups.flatMap T.linked =
      (T.allAccesses ++ (T.groups.take gi).flatMap T.linked) ++ T.linked g ++
        (T.groups.drop (gi + 1)).flatMap T.linked := by
    conv_lhs => rw [hsplit]
    simp
  have hlen : T.firstCopy gi =
      (T.allAccesses ++ (T.groups.take gi).flatMap T.linked).length := by
    rw [firstCopy, List.length_append]
  rw [hall, hlen, accessesAt_append, accessesAt_range']
  intro i hi
  rw [List.mem_range'_1] at hi
  rw [List.length_append]
  exact hi.2

/-- The new positions of a group are those of accesses. -/
theorem lt_of_mem_copies {gi i : ℕ} (hg : T.groups[gi]? = some g)
    (hi : i ∈ List.range' (T.firstCopy gi) (T.linked g).length) :
    i < (T.allAccesses ++ T.groups.flatMap T.linked).length := by
  -- Otherwise one of the copies would be missing there.
  by_contra hge
  have hlen : (accessesAt (T.allAccesses ++ T.groups.flatMap T.linked)
      (List.range' (T.firstCopy gi) (T.linked g).length)).length <
      (List.range' (T.firstCopy gi) (T.linked g).length).length := by
    refine List.length_filterMap_lt_length_iff_exists.mpr ⟨i, hi, ?_⟩
    exact List.getElem?_eq_none (not_lt.mp hge)
  rw [accessesAt_copies hg, List.length_range'] at hlen
  exact absurd hlen (lt_irrefl _)

/-- Step 2b of `collectSharedObjects`. -/
def propagateFrees (T : AccessTable) : AccessTable where
  allAccesses := (T.linkGroups T.allAccesses T.groups).1
  groups := (T.linkGroups T.allAccesses T.groups).2
  valid := by
    rw [linkGroups_groups]
    intro g' hg' i hi
    obtain ⟨gi, hgi⟩ := List.mem_iff_getElem?.mp hg'
    rw [getElem?_extendAll] at hgi
    obtain ⟨g, hg, rfl⟩ := Option.map_eq_some_iff.mp hgi
    rcases List.mem_append.mp hi with hi | hi
    · have := T.valid g (List.mem_of_getElem? hg) i hi
      rw [List.length_append]
      omega
    · exact lt_of_mem_copies hg hi
  nonempty := by
    rw [linkGroups_groups]
    intro g' hg'
    obtain ⟨gi, hgi⟩ := List.mem_iff_getElem?.mp hg'
    rw [getElem?_extendAll] at hgi
    obtain ⟨g, hg, rfl⟩ := Option.map_eq_some_iff.mp hgi
    exact List.append_ne_nil_of_left_ne_nil (T.nonempty g (List.mem_of_getElem? hg)) _
  keys := by
    rw [linkGroups_groups]
    -- The keys are those of the groups before the step.
    have hkeys : ((T.extendAll T.allAccesses.length T.groups).map AccessGroup.key).Pairwise
        (· ≠ ·) := by
      rw [map_key_extendAll, List.pairwise_map]
      exact T.keys
    exact List.pairwise_map.mp hkeys

theorem allAccesses_propagateFrees :
    T.propagateFrees.allAccesses = T.allAccesses ++ T.groups.flatMap T.linked :=
  congrArg Prod.fst T.linkGroups_groups

/-- A group keeps its key and its positions and gets those of its copies. -/
theorem groups_propagateFrees (gi : ℕ) : T.propagateFrees.groups[gi]? =
    T.groups[gi]?.map fun g => extend g (T.firstCopy gi) (T.linked g).length := by
  rw [show T.propagateFrees.groups = T.extendAll T.allAccesses.length T.groups from
    congrArg Prod.snd T.linkGroups_groups, getElem?_extendAll]
  rfl

/-- After the step a group has its copies behind what it had. -/
theorem accessesOf_propagateFrees {gi : ℕ} (hg : T.groups[gi]? = some g) :
    ∃ g', T.propagateFrees.groups[gi]? = some g' ∧
      T.propagateFrees.accessesOf g' = T.accessesOf g ++ T.linked g := by
  refine ⟨_, by rw [groups_propagateFrees, hg]; rfl, ?_⟩
  rw [accessesOf, allAccesses_propagateFrees]
  change accessesAt _ (g.accessIndices ++ _) = _
  rw [accessesAt, List.filterMap_append]
  have hold : accessesAt (T.allAccesses ++ T.groups.flatMap T.linked) g.accessIndices =
      accessesAt T.allAccesses g.accessIndices :=
    accessesAt_append (T.valid g (List.mem_of_getElem? hg))
  exact congrArg₂ (· ++ ·) hold (accessesAt_copies hg)

/-! ### What the step promises -/

/-- What the step promises: a field gets the free of its struct exactly if another thread accesses
it, and nothing else changes. -/
structure FreesPropagated (T : AccessTable) : Prop where
  /-- The copy of a free is among the new accesses exactly if another thread accesses the field. -/
  linked : ∀ (gi : ℕ) (g g' : AccessGroup), T.groups[gi]? = some g →
    T.propagateFrees.groups[gi]? = some g' → g.IsField → ∀ p ∈ T.groups, p.IsParentOf g →
    ∀ f ∈ T.accessesOf p, f.isFree = true →
      ((∃ i ∈ g'.accessIndices, T.allAccesses.length ≤ i ∧
          T.propagateFrees.allAccesses[i]? = some (f.synthetic g.key)) ↔
        ∃ a ∈ T.accessesOf g, a.thread ≠ f.thread)
  /-- Every new access of a group is the copy of a free of its struct. -/
  copies : ∀ (gi : ℕ) (g g' : AccessGroup), T.groups[gi]? = some g →
    T.propagateFrees.groups[gi]? = some g' →
    ∀ i ∈ g'.accessIndices, T.allAccesses.length ≤ i → ∃ p ∈ T.groups, p.IsParentOf g ∧
      ∃ f ∈ T.accessesOf p, f.isFree = true ∧
        T.propagateFrees.allAccesses[i]? = some (f.synthetic g.key)
  /-- The accesses are kept. -/
  accesses : T.allAccesses <+: T.propagateFrees.allAccesses
  /-- No group is added or removed. -/
  groups : T.propagateFrees.groups.length = T.groups.length
  /-- A group keeps its key, and its accesses in front. -/
  kept : ∀ (gi : ℕ) (g g' : AccessGroup), T.groups[gi]? = some g →
    T.propagateFrees.groups[gi]? = some g' →
    g'.key = g.key ∧ g.accessIndices <+: g'.accessIndices
  /-- The groups that are not of a field are unchanged. -/
  others : ∀ (gi : ℕ) (g : AccessGroup), T.groups[gi]? = some g → ¬g.IsField →
    T.propagateFrees.groups[gi]? = some g

/-- A thread that frees a struct and accesses one of its fields is the only one to access it. -/
def FreersApart (T : AccessTable) : Prop :=
  ∀ g ∈ T.groups, g.IsField → ∀ p ∈ T.groups, p.IsParentOf g → ∀ f ∈ T.accessesOf p,
    f.isFree = true → f.thread ∈ (T.accessesOf g).map RawAccess.thread →
      ∀ a ∈ T.accessesOf g, a.thread = f.thread

/-- The new positions of a group hold its copies. -/
theorem exists_copy_iff {gi : ℕ} (hg : T.groups[gi]? = some g) {x : RawAccess} :
    (∃ i ∈ (extend g (T.firstCopy gi) (T.linked g).length).accessIndices,
        T.allAccesses.length ≤ i ∧ T.propagateFrees.allAccesses[i]? = some x) ↔
      x ∈ T.linked g := by
  have hcopies : x ∈ T.linked g ↔ ∃ i ∈ List.range' (T.firstCopy gi) (T.linked g).length,
      T.propagateFrees.allAccesses[i]? = some x := by
    rw [allAccesses_propagateFrees, ← mem_accessesAt, accessesAt_copies hg]
  rw [hcopies]
  constructor
  · rintro ⟨i, hi, hle, hx⟩
    rcases List.mem_append.mp hi with hi | hi
    · -- An old position of the group is not behind the old accesses.
      exact absurd (T.valid g (List.mem_of_getElem? hg) i hi) (not_lt.mpr hle)
    · exact ⟨i, hi, hx⟩
  · rintro ⟨i, hi, hx⟩
    refine ⟨i, List.mem_append_right _ hi, ?_, hx⟩
    exact (Nat.le_add_right _ _).trans (List.mem_range'_1.mp hi).1

/-- A free of the struct is copied exactly if its thread does not access the field. -/
theorem synthetic_mem_linked_iff {p : AccessGroup} {f : RawAccess} (hfield : g.IsField)
    (hp : p ∈ T.groups) (hparent : p.IsParentOf g) (hf : f ∈ T.accessesOf p)
    (hfree : f.isFree = true) :
    f.synthetic g.key ∈ T.linked g ↔ f.thread ∉ (T.accessesOf g).map RawAccess.thread := by
  rw [AccessTable.linked, if_pos hfield, List.mem_map]
  constructor
  · rintro ⟨f', hf', heq⟩
    -- A copy keeps the thread of its free.
    have hthread : f'.thread = f.thread := by
      change (f'.synthetic g.key).thread = _
      rw [heq]
      rfl
    have := (List.mem_filter.mp hf').2
    rw [Bool.and_eq_true, decide_eq_true_eq, hthread] at this
    exact this.2
  · intro hnot
    refine ⟨f, List.mem_filter.mpr ⟨List.mem_flatMap.mpr ⟨p, ?_, hf⟩, ?_⟩, rfl⟩
    · exact mem_freeOfStructByType.mpr ⟨hp, hparent, f, hf, hfree⟩
    · simpa [hfree] using hnot

/-- What is copied is a free of the struct. -/
theorem exists_free_of_mem_linked {x : RawAccess} (h : x ∈ T.linked g) :
    ∃ p ∈ T.groups, p.IsParentOf g ∧
      ∃ f ∈ T.accessesOf p, f.isFree = true ∧ x = f.synthetic g.key := by
  unfold AccessTable.linked at h
  split_ifs at h
  · obtain ⟨f, hf, rfl⟩ := List.mem_map.mp h
    obtain ⟨hfrees, hpass⟩ := List.mem_filter.mp hf
    obtain ⟨p, hp, hfp⟩ := List.mem_flatMap.mp hfrees
    obtain ⟨hmem, hparent, -⟩ := mem_freeOfStructByType.mp hp
    exact ⟨p, hmem, hparent, f, hfp, (Bool.and_eq_true_iff.mp hpass).1, rfl⟩
  · exact absurd h List.not_mem_nil

/-- Some other thread accesses a group unless all its accesses are of the thread. -/
theorem exists_thread_ne_of_not_mem (hg : g ∈ T.groups) {t : ThreadId}
    (h : t ∉ (T.accessesOf g).map RawAccess.thread) : ∃ a ∈ T.accessesOf g, a.thread ≠ t := by
  obtain ⟨a, rest, hcons⟩ := List.exists_cons_of_ne_nil (T.accessesOf_ne_nil hg)
  have ha : a ∈ T.accessesOf g := by simp [hcons]
  exact ⟨a, ha, fun heq => h (heq ▸ List.mem_map_of_mem ha)⟩

/-- The step keeps its promise exactly if no thread that frees a struct accesses a field of it
together with another thread. -/
theorem freesPropagated_iff (T : AccessTable) : T.FreesPropagated ↔ T.FreersApart := by
  constructor
  · intro h g hg hfield p hp hparent f hf hfree hthread
    obtain ⟨gi, hgi⟩ := List.mem_iff_getElem?.mp hg
    have hlinked := h.linked gi g _ hgi (by rw [groups_propagateFrees, hgi]; rfl) hfield p hp
      hparent f hf hfree
    rw [exists_copy_iff hgi, synthetic_mem_linked_iff hfield hp hparent hf hfree] at hlinked
    -- The freeing thread accesses the field, so its free was not copied.
    intro a ha
    by_contra hne
    exact hlinked.mpr ⟨a, ha, hne⟩ hthread
  · intro h
    refine ⟨?_, ?_, ?_, ?_, ?_, ?_⟩
    · intro gi g g' hg hg' hfield p hp hparent f hf hfree
      rw [groups_propagateFrees, hg] at hg'
      cases hg'
      rw [exists_copy_iff hg, synthetic_mem_linked_iff hfield hp hparent hf hfree]
      have hmem := List.mem_of_getElem? hg
      -- A field that the freeing thread does not access has an access of another thread.
      refine ⟨exists_thread_ne_of_not_mem hmem, ?_⟩
      rintro ⟨a, ha, hne⟩ hthread
      exact hne (h g hmem hfield p hp hparent f hf hfree hthread a ha)
    · intro gi g g' hg hg' i hi hle
      rw [groups_propagateFrees, hg] at hg'
      cases hg'
      have hlt := T.propagateFrees.valid _ (List.mem_of_getElem? ((groups_propagateFrees gi).trans
        (by rw [hg]; rfl))) i hi
      have hget := List.getElem?_eq_getElem hlt
      obtain ⟨p, hp, hparent, f, hf, hfree, hx⟩ :=
        exists_free_of_mem_linked ((exists_copy_iff hg).mp ⟨i, hi, hle, hget⟩)
      exact ⟨p, hp, hparent, f, hf, hfree, by rw [hget, hx]⟩
    · rw [allAccesses_propagateFrees]
      exact List.prefix_append _ _
    · rw [show T.propagateFrees.groups = T.extendAll T.allAccesses.length T.groups from
        congrArg Prod.snd T.linkGroups_groups, length_extendAll]
    · intro gi g g' hg hg'
      rw [groups_propagateFrees, hg] at hg'
      cases hg'
      exact ⟨rfl, List.prefix_append _ _⟩
    · intro gi g hg hfield
      rw [groups_propagateFrees, hg]
      simp [AccessTable.linked, hfield, extend]

/-! ### A thread that frees what it has written -/

/-- One thread writes a field of a node and frees the node, another thread reads the field. -/
def writeFreeRead : List RawAccess :=
  let node : SharedFieldKey := ⟨.structField, "struct.node", 0⟩
  let field : SharedFieldKey := ⟨.structField, "struct.node", 8⟩
  [ { ptr := 1, isWrite := true, isFree := false, thread := 0, location := "drv.c:10",
      code := "n->data = NULL", nodeId := 10, key := field, containingFunction := "drv_release" },
    { ptr := 2, isWrite := false, isFree := true, thread := 0, location := "drv.c:11",
      code := "kfree(n)", nodeId := 11, key := node, containingFunction := "drv_release" },
    { ptr := 3, isWrite := false, isFree := false, thread := 1, location := "drv.c:20",
      code := "use(n->data)", nodeId := 20, key := field, containingFunction := "drv_read" } ]

/-- The reader's field does not get the free. -/
theorem writeFreeRead_not_propagated :
    (groupAccesses writeFreeRead).propagateFrees.allAccesses = writeFreeRead ∧
      ¬(groupAccesses writeFreeRead).FreesPropagated := by
  have hall : (groupAccesses writeFreeRead).propagateFrees.allAccesses = writeFreeRead := by
    decide
  refine ⟨hall, fun h => ?_⟩
  have hlinked := h.linked 0 ⟨⟨.structField, "struct.node", 8⟩, 1, [0, 2]⟩
    ⟨⟨.structField, "struct.node", 8⟩, 1, [0, 2]⟩ (by decide) (by decide) (by decide)
    ⟨⟨.structField, "struct.node", 0⟩, 2, [1]⟩ (by decide) (by decide) writeFreeRead[1]
    (by decide) rfl
  obtain ⟨i, hi, hle, -⟩ := hlinked.mpr ⟨writeFreeRead[2], by decide, by decide⟩
  -- The field has no access behind the three.
  have hold : ∀ i ∈ [0, 2], i < writeFreeRead.length := by decide
  exact absurd hle (not_le.mpr (hold i hi))

end AccessTable

end Lace
