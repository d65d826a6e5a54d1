import Mathlib.Data.List.Range
import Lace.CCPG.AliasChecker
import Lace.Surface.SharedFieldKey
import Lace.ThreadTree.Basic

/-!
# Access groups

Step 2 of `collectSharedObjects` gathers the raw accesses under their keys. The accesses are kept in
one vector; a group lists the positions of its accesses.

## Main definitions

* `RawAccess`, `AccessGroup`: the types of the source;
* `AccessTable`: the accesses with their groups;
* `groupAccesses`: step 2.

## Main results

* `mem_accessIndices_groupAccesses`: a group of step 2 has exactly the accesses with its key;
* `key_mem_groupAccesses`: every access has a group.
-/

namespace Lace

/-- `RawAccess`: an access as it is collected, before it is grouped by its field. -/
structure RawAccess where
  /-- `ptr`. -/
  ptr : ValueId
  /-- `isWrite`. -/
  isWrite : Bool
  /-- `isFree`. -/
  isFree : Bool
  /-- `thread`. -/
  thread : ThreadId
  /-- `location`. -/
  location : String
  /-- `code`. -/
  code : String
  /-- `node_id`. -/
  nodeId : NodeId
  /-- `key`. -/
  key : SharedFieldKey
  /-- `containing_function`. -/
  containingFunction : String
  deriving DecidableEq, Repr

/-- `AccessGroup`. -/
structure AccessGroup where
  /-- `key`. -/
  key : SharedFieldKey
  /-- `representative`. -/
  representative : ValueId
  /-- `access_indices`. -/
  accessIndices : List ℕ
  deriving DecidableEq, Repr

/-- The raw accesses and their groups. -/
structure AccessTable where
  /-- `allAccesses`. -/
  allAccesses : List RawAccess
  /-- `groups`. -/
  groups : List AccessGroup
  /-- The positions of a group are positions of accesses. -/
  valid : ∀ g ∈ groups, ∀ i ∈ g.accessIndices, i < allAccesses.length
  /-- A group is opened by an access. -/
  nonempty : ∀ g ∈ groups, g.accessIndices ≠ []
  /-- No two groups have one key. -/
  keys : groups.Pairwise fun g h => g.key ≠ h.key

/-- The accesses at some positions. -/
def accessesAt (allAccesses : List RawAccess) (indices : List ℕ) : List RawAccess :=
  indices.filterMap fun i => allAccesses[i]?

/-- The accesses of a group. -/
def AccessTable.accessesOf (T : AccessTable) (g : AccessGroup) : List RawAccess :=
  accessesAt T.allAccesses g.accessIndices

theorem mem_accessesAt {l : List RawAccess} {indices : List ℕ} {a : RawAccess} :
    a ∈ accessesAt l indices ↔ ∃ i ∈ indices, l[i]? = some a := List.mem_filterMap

/-- Accesses that are added behind the positions of a group do not change what it has. -/
theorem accessesAt_append {l l' : List RawAccess} {indices : List ℕ}
    (h : ∀ i ∈ indices, i < l.length) : accessesAt (l ++ l') indices = accessesAt l indices := by
  refine List.filterMap_congr fun i hi => ?_
  rw [List.getElem?_append_left (h i hi)]

/-- The positions behind a list are those of what is added to it. -/
theorem accessesAt_range' (l l' : List RawAccess) :
    accessesAt (l ++ l') (List.range' l.length l'.length) = l' := by
  induction l' generalizing l with
  | nil => rfl
  | cons a l' ih =>
    have hrest := ih (l ++ [a])
    rw [List.append_assoc, List.length_append] at hrest
    -- The first position behind `l` is that of `a`; the others are behind `l ++ [a]`.
    rw [List.length_cons, List.range'_succ, accessesAt, List.filterMap_cons_some (b := a)]
    · exact congrArg (a :: ·) hrest
    · rw [List.getElem?_append_right le_rfl, Nat.sub_self]
      rfl

/-- A group has an access. -/
theorem AccessTable.accessesOf_ne_nil (T : AccessTable) {g : AccessGroup} (hg : g ∈ T.groups) :
    T.accessesOf g ≠ [] := by
  obtain ⟨i, rest, hindices⟩ := List.exists_cons_of_ne_nil (T.nonempty g hg)
  have hi : i < T.allAccesses.length := T.valid g hg i (by simp [hindices])
  have hmem : T.allAccesses[i] ∈ T.accessesOf g :=
    mem_accessesAt.mpr ⟨i, by simp [hindices], List.getElem?_eq_getElem hi⟩
  exact List.ne_nil_of_mem hmem

/-! ### Step 2 -/

/-- One turn of the loop: the access joins the group of its key or opens it. -/
def addToGroup (groups : List AccessGroup) (p : RawAccess × ℕ) : List AccessGroup :=
  if groups.any fun g => g.key = p.1.key then
    groups.map fun g =>
      if g.key = p.1.key then { g with accessIndices := g.accessIndices ++ [p.2] } else g
  else
    groups ++ [{ key := p.1.key, representative := p.1.ptr, accessIndices := [p.2] }]

/-- What the groups are after the first accesses. -/
structure Grouping (accesses : List RawAccess) (groups : List AccessGroup) : Prop where
  /-- A group has exactly the positions of the accesses with its key. -/
  indices : ∀ g ∈ groups, ∀ i, i ∈ g.accessIndices ↔ ∃ a, accesses[i]? = some a ∧ a.key = g.key
  /-- It has one. -/
  nonempty : ∀ g ∈ groups, g.accessIndices ≠ []
  /-- No two groups have one key. -/
  keys : groups.Pairwise fun g h => g.key ≠ h.key
  /-- Every key has its group. -/
  complete : ∀ a ∈ accesses, ∃ g ∈ groups, g.key = a.key

/-- The positions with a key after one more access. -/
theorem exists_key_concat_iff {accesses : List RawAccess} {a : RawAccess} {key : SharedFieldKey}
    {i : ℕ} : (∃ b, (accesses ++ [a])[i]? = some b ∧ b.key = key) ↔
      (∃ b, accesses[i]? = some b ∧ b.key = key) ∨ i = accesses.length ∧ a.key = key := by
  rcases lt_trichotomy i accesses.length with hlt | rfl | hgt
  · rw [List.getElem?_append_left hlt]
    simp [hlt.ne]
  · simp
  · rw [List.getElem?_eq_none (by simp; omega), List.getElem?_eq_none hgt.le]
    simp [hgt.ne']

/-- An access joins the group of its key. -/
theorem Grouping.join {accesses : List RawAccess} {groups : List AccessGroup}
    (h : Grouping accesses groups) {a : RawAccess} (hany : ∃ g ∈ groups, g.key = a.key) :
    Grouping (accesses ++ [a]) (groups.map fun g =>
      if g.key = a.key then { g with accessIndices := g.accessIndices ++ [accesses.length] }
      else g) := by
  -- Only positions are added, so every group keeps its key.
  have hkeys : ∀ g : AccessGroup, (if g.key = a.key then
      { g with accessIndices := g.accessIndices ++ [accesses.length] } else g).key = g.key := by
    intro g
    split_ifs <;> rfl
  refine ⟨?_, ?_, ?_, ?_⟩
  · intro g' hg' i
    obtain ⟨g, hg, rfl⟩ := List.mem_map.mp hg'
    -- The new position belongs to the group of the key alone.
    rw [hkeys, exists_key_concat_iff, ← h.indices g hg i]
    split_ifs with heq
    · simp [heq]
    · simp [Ne.symm heq]
  · intro g' hg'
    obtain ⟨g, hg, rfl⟩ := List.mem_map.mp hg'
    split_ifs
    · simp
    · exact h.nonempty g hg
  · rw [List.pairwise_map]
    exact h.keys.imp fun hne => by rwa [hkeys, hkeys]
  · intro b hb
    have hold : ∃ g ∈ groups, g.key = b.key := by
      rcases List.mem_append.mp hb with hb | hb
      · exact h.complete b hb
      · rw [List.mem_singleton.mp hb]
        exact hany
    obtain ⟨g, hg, hkey⟩ := hold
    exact ⟨_, List.mem_map_of_mem hg, (hkeys g).trans hkey⟩

/-- An access with a new key opens a group. -/
theorem Grouping.opens {accesses : List RawAccess} {groups : List AccessGroup}
    (h : Grouping accesses groups) {a : RawAccess} (hnew : ∀ g ∈ groups, g.key ≠ a.key) :
    Grouping (accesses ++ [a])
      (groups ++ [{ key := a.key, representative := a.ptr, accessIndices := [accesses.length] }]) := by
  refine ⟨?_, ?_, ?_, ?_⟩
  · intro g hg i
    rw [exists_key_concat_iff]
    rcases List.mem_append.mp hg with hg | hg
    · rw [h.indices g hg i]
      simp [(hnew g hg).symm]
    · rw [List.mem_singleton.mp hg]
      simp only [List.mem_singleton, and_true]
      -- No earlier access has the key, or there would be a group.
      refine (or_iff_right ?_).symm
      rintro ⟨b, hb, hkey⟩
      obtain ⟨g', hg', hkey'⟩ := h.complete b (List.mem_of_getElem? hb)
      exact hnew g' hg' (hkey'.trans hkey)
  · intro g hg
    rcases List.mem_append.mp hg with hg | hg
    · exact h.nonempty g hg
    · rw [List.mem_singleton.mp hg]
      exact List.cons_ne_nil _ _
  · refine List.pairwise_append.mpr ⟨h.keys, List.pairwise_singleton _ _, fun g hg g' hg' => ?_⟩
    rw [List.mem_singleton.mp hg']
    exact hnew g hg
  · intro b hb
    rcases List.mem_append.mp hb with hb | hb
    · obtain ⟨g, hg, hkey⟩ := h.complete b hb
      exact ⟨g, List.mem_append_left _ hg, hkey⟩
    · rw [List.mem_singleton.mp hb]
      exact ⟨_, List.mem_append_right _ (List.mem_singleton_self _), rfl⟩

/-- One more access keeps the grouping. -/
theorem Grouping.add {accesses : List RawAccess} {groups : List AccessGroup}
    (h : Grouping accesses groups) (a : RawAccess) :
    Grouping (accesses ++ [a]) (addToGroup groups (a, accesses.length)) := by
  unfold addToGroup
  split_ifs with hany
  · obtain ⟨g, hg, hkey⟩ := List.any_eq_true.mp hany
    exact h.join ⟨g, hg, of_decide_eq_true hkey⟩
  · refine h.opens fun g hg hkey => hany ?_
    exact List.any_eq_true.mpr ⟨g, hg, decide_eq_true hkey⟩

/-- The loop over all accesses. -/
def groupsOf (accesses : List RawAccess) : List AccessGroup :=
  accesses.zipIdx.foldl addToGroup []

theorem grouping_groupsOf (accesses : List RawAccess) : Grouping accesses (groupsOf accesses) := by
  induction accesses using List.reverseRecOn with
  | nil => exact ⟨nofun, nofun, List.Pairwise.nil, nofun⟩
  | append_singleton accesses a ih =>
    -- Induction from the end: the last access comes with the number of those before it.
    rw [groupsOf, List.zipIdx_append, List.foldl_append]
    simpa [groupsOf] using ih.add a

/-- Step 2 of `collectSharedObjects`. -/
def groupAccesses (accesses : List RawAccess) : AccessTable where
  allAccesses := accesses
  groups := groupsOf accesses
  valid g hg i hi := by
    obtain ⟨a, ha, -⟩ := ((grouping_groupsOf accesses).indices g hg i).mp hi
    exact (List.getElem?_eq_some_iff.mp ha).1
  nonempty := (grouping_groupsOf accesses).nonempty
  keys := (grouping_groupsOf accesses).keys

/-- A group of step 2 has exactly the accesses with its key. -/
theorem mem_accessIndices_groupAccesses {accesses : List RawAccess} {g : AccessGroup}
    (hg : g ∈ (groupAccesses accesses).groups) {i : ℕ} :
    i ∈ g.accessIndices ↔ ∃ a, accesses[i]? = some a ∧ a.key = g.key :=
  (grouping_groupsOf accesses).indices g hg i

/-- Every access has a group. -/
theorem key_mem_groupAccesses {accesses : List RawAccess} {a : RawAccess} (ha : a ∈ accesses) :
    ∃ g ∈ (groupAccesses accesses).groups, g.key = a.key :=
  (grouping_groupsOf accesses).complete a ha

end Lace
