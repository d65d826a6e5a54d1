import Mathlib.Data.Int.Notation
import Lace.Library.FirstVisits

/-!
# Field names from debug information

`DwarfFieldNameMap` gives the fields of a struct their names, by the byte they start at, for the
members of the struct and for those of the structs and unions that are nested in it. The walk
through the nested types marks each type, and does not enter it again at another place.

## Main definitions

* `DebugInfo`: the types of the debug information;
* `DebugInfo.walkElements`, `DebugInfo.offsetTable`: the walk and the table it builds;
* `DebugInfo.Embedded`, `DebugInfo.NamedAt`: the nested types and their named members;
* `DebugInfo.LabelsCover`: the table has a name for each start of a named member, and no others.

## Main results

* `DebugInfo.peelTypedefs_some`: what the loop of `peelTypedefs` does;
* `DebugInfo.fills_walkElements`: what a walk adds to the table;
* `DebugInfo.labelsCover_iff`: when the table covers all members.
-/

namespace Lace

open Library

/-- A `DIType`, by its address. -/
abbrev DITypeId := ℕ

/-- The DWARF tags that are told apart here. -/
inductive DwarfTag
  | structureType | classType | unionType | member
  | typedef | constType | volatileType | restrictType | atomicType | other
  deriving DecidableEq, Repr

/-- The tags that `peelTypedefs` takes off. -/
def DwarfTag.isPeeled : DwarfTag → Bool
  | .typedef | .constType | .volatileType | .restrictType | .atomicType => true
  | _ => false

/-- The tags of the types that are walked. -/
def DwarfTag.isComposite : DwarfTag → Bool
  | .structureType | .classType | .unionType => true
  | _ => false

/-- An element of a composite type, as a `DIDerivedType`. -/
structure DIElement where
  /-- `getTag`. -/
  tag : DwarfTag
  /-- `getName`, empty for an anonymous member. -/
  name : List Char
  /-- `getOffsetInBits`. -/
  offsetInBits : ℕ
  /-- `getBaseType`. -/
  baseType : Option DITypeId
  deriving DecidableEq, Repr

/-- A `DIType`. -/
inductive DIType
  | composite (tag : DwarfTag) (elements : List DIElement)
  | derived (tag : DwarfTag) (baseType : Option DITypeId)
  | other
  deriving DecidableEq, Repr

/-- The types of the debug information. -/
structure DebugInfo where
  /-- The type at an address. -/
  type : DITypeId → DIType
  /-- Type definitions and qualifiers are not circular: the bases come first. -/
  baseType_lt : ∀ t tag b, type t = .derived tag (some b) → tag.isPeeled = true → b < t

/-- `byOffset_` of an owner. -/
abbrev OffsetTable := ℕ → Option (List Char)

/-- `std::map::emplace`: the first entry stays. -/
def OffsetTable.emplace (tbl : OffsetTable) (k : ℕ) (path : List Char) : OffsetTable :=
  if (tbl k).isSome then tbl else Function.update tbl k (some path)

/-- A nested type: the type, the bit it starts at in the owner, and the path to it. -/
structure Embedding where
  /-- `CT`. -/
  type : DITypeId
  /-- `base_offset_bits`. -/
  baseOffsetBits : ℕ
  /-- The names up to here. -/
  path : List Char
  deriving DecidableEq, Repr

/-- The state of the walk. -/
structure DwarfWalk where
  /-- `tbl`. -/
  tbl : OffsetTable
  /-- `seen`. -/
  seen : Finset DITypeId

namespace DebugInfo

variable (D : DebugInfo)

/-! ### The walk -/

/-- The loop of `peelTypedefs`. -/
def peelFrom : ℕ → DITypeId → Option DITypeId
  | 0, t => some t
  | fuel + 1, t =>
    match D.type t with
    | .derived tag baseType => if tag.isPeeled then baseType.bind (peelFrom fuel) else some t
    | _ => some t

/-- `peelTypedefs`. The bases have smaller addresses, which bounds the loop. -/
def peelTypedefs (t : DITypeId) : Option DITypeId := D.peelFrom (t + 1) t

/-- `getElements`: the members of a composite type. -/
def getElements (t : DITypeId) : List DIElement :=
  match D.type t with
  | .composite _ elements => elements
  | _ => []

/-- The composite type of a member, if it has one. -/
def nested (m : DIElement) : Option DITypeId :=
  (m.baseType.bind D.peelTypedefs).filter fun t =>
    match D.type t with
    | .composite tag _ => tag.isComposite
    | _ => false

/-- `fullName`: the path to a member, which an anonymous one does not lengthen. -/
def fullName (path : List Char) (m : DIElement) : List Char :=
  if m.name = [] then path
  else if path = [] then m.name
  else path ++ '.' :: m.name

/-- The byte a member starts at. -/
def startByte (P : Embedding) (m : DIElement) : ℕ := (P.baseOffsetBits + m.offsetInBits) / 8

/-- Where the walk goes on with a member. -/
def child (P : Embedding) (m : DIElement) : Option Embedding :=
  (D.nested m).map fun sub =>
    { type := sub
      baseOffsetBits := P.baseOffsetBits + m.offsetInBits
      path := if fullName P.path m = [] then P.path else fullName P.path m }

/-- One round of the loop over the elements. -/
def walkElement (walk : Embedding → DwarfWalk → DwarfWalk) (P : Embedding) (s : DwarfWalk)
    (m : DIElement) : DwarfWalk :=
  if m.tag ≠ .member then s
  else
    let s := if m.name = [] then s
      else { s with tbl := s.tbl.emplace (startByte P m) (fullName P.path m) }
    match D.child P m with
    | none => s
    | some Q => walk Q s

/-- `walkElements`, with the levels that are left until `depth` exceeds its bound. -/
def walkElements : ℕ → Embedding → DwarfWalk → DwarfWalk
  | 0, _, s => s
  | levels + 1, P, s =>
    if P.type ∈ s.seen then s
    else
      (D.getElements P.type).foldl (D.walkElement (walkElements levels) P)
        { s with seen := insert P.type s.seen }

/-- The depth is 0 at the owner and 6 at most. -/
def levels : ℕ := 7

/-- The owner itself. -/
def root (owner : DITypeId) : Embedding := ⟨owner, 0, []⟩

/-- The table that `build` gets for an owner. -/
def offsetTable (owner : DITypeId) : OffsetTable :=
  (D.walkElements levels (root owner) ⟨fun _ => none, ∅⟩).tbl

/-! ### The tree of nested types -/

/-- The members among the elements. -/
def members (t : DITypeId) : List DIElement := (D.getElements t).filter fun m => m.tag = .member

/-- The nested types, labelled by the types themselves. -/
def tree : LabelTree Embedding DITypeId where
  children P := (D.members P.type).filterMap (D.child P)
  label := Embedding.type
  next t := (D.members t).filterMap D.nested
  map_label P := by
    rw [List.map_filterMap]
    congr 1
    funext m
    rw [child, Option.map_map]
    exact Option.map_id'

/-- A type that is nested in the owner, or the owner itself. -/
def Embedded (owner : DITypeId) (P : Embedding) : Prop :=
  Relation.ReflTransGen D.tree.ChildStep (root owner) P

/-- A named member of a nested type starts at the byte and has the path. -/
def NamedAt (P : Embedding) (k : ℕ) (path : List Char) : Prop :=
  ∃ m ∈ D.members P.type, m.name ≠ [] ∧ startByte P m = k ∧ fullName P.path m = path

/-- The table has an entry where a named member starts, and each entry is such a member's. -/
structure LabelsCover (owner : DITypeId) : Prop where
  /-- No member is left out. -/
  covers : ∀ P k path, D.Embedded owner P → D.NamedAt P k path →
    (D.offsetTable owner k).isSome = true
  /-- Each path leads to a member. -/
  names : ∀ k path, D.offsetTable owner k = some path →
    ∃ P, D.Embedded owner P ∧ D.NamedAt P k path

/-- The nesting stays within the bound on the depth. -/
def WithinDepth (owner : DITypeId) : Prop := D.tree.Fits levels owner

instance (owner : DITypeId) : Decidable (D.WithinDepth owner) :=
  inferInstanceAs (Decidable (D.tree.Fits _ _))

/-- The first place, from the front of the owner on, at which a type is nested. -/
def FirstEmbedding (owner : DITypeId) (P : Embedding) : Prop :=
  IsFirst Embedding.type (D.tree.preorder levels (root owner)) P

variable {D} {owner t : DITypeId} {P Q : Embedding} {k : ℕ} {path : List Char}
  {tbl tbl' tbl'' : OffsetTable} {E E' : ℕ → List Char → Prop} {s : DwarfWalk}

/-! ### Type definitions -/

/-- Any fuel above the id of the type peels the same. -/
theorem peelFrom_fuel {fuel fuel' : ℕ} (h : t < fuel) (h' : t < fuel') :
    D.peelFrom fuel t = D.peelFrom fuel' t := by
  induction fuel generalizing fuel' t with
  | zero => exact absurd h (Nat.not_lt_zero _)
  | succ fuel ih =>
    obtain ⟨fuel', rfl⟩ := Nat.exists_eq_succ_of_ne_zero (Nat.ne_zero_of_lt h')
    rw [peelFrom, peelFrom]
    cases htype : D.type t with
    | composite tag elements => rfl
    | other => rfl
    | derived tag baseType =>
      cases baseType with
      | none => rfl
      | some b =>
        dsimp only [Option.bind_some]
        split_ifs with hpeeled
        · -- The base comes first, so the fuel lasts.
          have hb := D.baseType_lt t tag b htype hpeeled
          exact ih (hb.trans_le (Nat.le_of_lt_succ h)) (hb.trans_le (Nat.le_of_lt_succ h'))
        · rfl

/-- What `peelTypedefs` does to a type. -/
theorem peelTypedefs_some : D.peelTypedefs t =
    match D.type t with
    | .derived tag baseType =>
      if tag.isPeeled then baseType.bind D.peelTypedefs else some t
    | _ => some t := by
  rw [peelTypedefs, peelFrom]
  cases htype : D.type t with
  | composite tag elements => rfl
  | other => rfl
  | derived tag baseType =>
    cases baseType with
    | none => rfl
    | some b =>
      dsimp only [Option.bind_some]
      split_ifs with hpeeled
      · exact peelFrom_fuel (D.baseType_lt t tag b htype hpeeled) (Nat.lt_succ_self b)
      · rfl

/-- A type definition of a qualified structure is peeled twice. -/
example (htypedef : D.type 2 = .derived .typedef (some 1))
    (hconst : D.type 1 = .derived .constType (some 0))
    (hstruct : D.type 0 = .composite .structureType []) : D.peelTypedefs 2 = some 0 := by
  rw [peelTypedefs_some, htypedef]
  show D.peelTypedefs 1 = some 0
  rw [peelTypedefs_some, hconst]
  show D.peelTypedefs 0 = some 0
  rw [peelTypedefs_some, hstruct]

/-! ### Tables -/

/-- A table is filled with some entries, of which the first stays at each byte. -/
structure Fills (tbl tbl' : OffsetTable) (E : ℕ → List Char → Prop) : Prop where
  /-- There is nothing else. -/
  sound : ∀ k path, tbl' k = some path → tbl k = some path ∨ E k path
  /-- What was there stays. -/
  keeps : ∀ k, (tbl k).isSome = true → (tbl' k).isSome = true
  /-- Each byte of an entry has one. -/
  complete : ∀ k path, E k path → (tbl' k).isSome = true

/-- Writing nothing fills nothing. -/
theorem Fills.refl (tbl : OffsetTable) : Fills tbl tbl fun _ _ => False :=
  ⟨fun _ _ h => Or.inl h, fun _ h => h, fun _ _ h => h.elim⟩

/-- One insertion fills its own offset. -/
theorem Fills.emplace (tbl : OffsetTable) (k : ℕ) (path : List Char) :
    Fills tbl (tbl.emplace k path) fun k' path' => k = k' ∧ path = path' := by
  rw [OffsetTable.emplace]
  split_ifs with hk
  · refine ⟨fun _ _ h => Or.inl h, fun _ h => h, ?_⟩
    rintro _ _ ⟨rfl, rfl⟩
    exact hk
  · refine ⟨fun k' path' h => ?_, fun k' h => ?_, ?_⟩
    · by_cases hkk : k' = k
      · subst hkk
        rw [Function.update_self] at h
        exact Or.inr ⟨rfl, Option.some.inj h⟩
      · rw [Function.update_of_ne hkk] at h
        exact Or.inl h
    · rw [Function.update_apply]
      split_ifs
      · rfl
      · exact h
    · rintro _ _ ⟨rfl, rfl⟩
      rw [Function.update_self]
      rfl

/-- Two walks one after the other fill what each fills. -/
theorem Fills.trans (h : Fills tbl tbl' E) (h' : Fills tbl' tbl'' E') :
    Fills tbl tbl'' fun k path => E k path ∨ E' k path := by
  refine ⟨fun k path hk => ?_, fun k hk => h'.keeps k (h.keeps k hk), fun k path hE => ?_⟩
  · rcases h'.sound k path hk with hk | hE
    · exact (h.sound k path hk).imp_right Or.inl
    · exact Or.inr (Or.inr hE)
  · rcases hE with hE | hE
    · exact h'.keeps k (h.complete k path hE)
    · exact h'.complete k path hE

/-- What is filled may be described by any equivalent condition. -/
theorem Fills.congr (h : Fills tbl tbl' E) (hE : ∀ k path, E k path ↔ E' k path) :
    Fills tbl tbl' E' :=
  ⟨fun k path hk => (h.sound k path hk).imp_right (hE k path).mp, h.keeps,
    fun k path hk => h.complete k path ((hE k path).mpr hk)⟩

/-! ### What the walk adds -/

/-- The entry of a member itself. -/
def OwnEntry (P : Embedding) (m : DIElement) (k : ℕ) (path : List Char) : Prop :=
  m.tag = .member ∧ m.name ≠ [] ∧ startByte P m = k ∧ fullName P.path m = path

variable (D) in
/-- A part of the walk visits some nested types, and fills in their named members and some entries
of its own. -/
structure Walked (s s' : DwarfWalk) (visited : List Embedding) (own : ℕ → List Char → Prop) :
    Prop where
  /-- The types are marked. -/
  seen : s'.seen = seenAfter Embedding.type s.seen visited
  /-- The table has the entries. -/
  fills : Fills s.tbl s'.tbl fun k path => own k path ∨ ∃ Q ∈ visited, D.NamedAt Q k path

/-- An empty walk visits and fills nothing. -/
theorem Walked.refl (s : DwarfWalk) : D.Walked s s [] fun _ _ => False :=
  ⟨seenAfter_nil.symm, (Fills.refl _).congr fun k path => by simp⟩

/-- Two walks one after the other visit and fill what each does. -/
theorem Walked.trans {s' s'' : DwarfWalk} {visited visited' : List Embedding}
    (h : D.Walked s s' visited E) (h' : D.Walked s' s'' visited' E') :
    D.Walked s s'' (visited ++ visited') fun k path => E k path ∨ E' k path := by
  refine ⟨by rw [h'.seen, h.seen, seenAfter_append], (h.fills.trans h'.fills).congr ?_⟩
  intro k path
  simp only [List.mem_append, or_and_right, exists_or]
  exact or_or_or_comm

/-- What a walk fills may be described by any equivalent condition. -/
theorem Walked.congr {s' : DwarfWalk} {visited : List Embedding} (h : D.Walked s s' visited E)
    (hE : ∀ k path, E k path ↔ E' k path) : D.Walked s s' visited E' :=
  ⟨h.seen, h.fills.congr fun k path => or_congr_left (hE k path)⟩

/-- The nested types that are visited from the members among some elements. -/
def visitFrom (D : DebugInfo) (levels : ℕ) (P : Embedding) (l : List DIElement) :
    Finset DITypeId → List Embedding :=
  D.tree.visitList (D.tree.visit levels)
    ((l.filter fun m => m.tag = .member).filterMap (D.child P))

/-- One round of the loop, for a walk that does what it should. -/
theorem walked_walkElement {levels : ℕ} {m : DIElement}
    (ih : ∀ Q s, D.Walked s (D.walkElements levels Q s) (D.tree.visit levels Q s.seen)
      fun _ _ => False) :
    D.Walked s (D.walkElement (D.walkElements levels) P s m) (D.visitFrom levels P [m] s.seen)
      (OwnEntry P m) := by
  rw [walkElement, visitFrom]
  by_cases hmember : m.tag = .member
  · have hfilter : [m].filter (fun m => m.tag = .member) = [m] := by simp [hmember]
    rw [if_neg (not_not.mpr hmember), hfilter]
    -- The entry of the member itself comes first.
    have hown : D.Walked s (if m.name = [] then s
        else { s with tbl := s.tbl.emplace (startByte P m) (fullName P.path m) }) []
        (OwnEntry P m) := by
      split_ifs with hname
      · exact (Walked.refl s).congr fun k path => by simp [OwnEntry, hname]
      · refine ⟨seenAfter_nil.symm, (Fills.emplace _ _ _).congr fun k path => ?_⟩
        simp [OwnEntry, hname, hmember]
    have hseen := hown.seen
    generalize (if m.name = [] then s
      else { s with tbl := s.tbl.emplace (startByte P m) (fullName P.path m) }) = s' at hown hseen ⊢
    rw [seenAfter_nil] at hseen
    cases hchild : D.child P m with
    | none =>
      rw [List.filterMap_cons_none hchild]
      exact hown
    | some Q =>
      rw [List.filterMap_cons_some hchild]
      have hwalk := hown.trans (ih Q s')
      rw [hseen] at hwalk
      refine Walked.congr ?_ fun k path => iff_of_eq (or_false _)
      simpa [LabelTree.visitList] using hwalk
  · have hfilter : [m].filter (fun m => m.tag = .member) = [] := by simp [hmember]
    rw [if_pos hmember, hfilter]
    exact (Walked.refl s).congr fun k path => by simp [OwnEntry, hmember]

/-- The members are walked one by one, each with the types of the earlier ones seen. -/
theorem visitFrom_cons {levels : ℕ} {m : DIElement} {l : List DIElement} {seen : Finset DITypeId} :
    D.visitFrom levels P (m :: l) seen = D.visitFrom levels P [m] seen ++
      D.visitFrom levels P l (seenAfter Embedding.type seen (D.visitFrom levels P [m] seen)) := by
  rw [visitFrom, ← List.singleton_append, List.filter_append, List.filterMap_append]
  exact LabelTree.visitList_append _ _ _ _

/-- The loop over the elements. -/
theorem walked_foldl {levels : ℕ}
    (ih : ∀ Q s, D.Walked s (D.walkElements levels Q s) (D.tree.visit levels Q s.seen)
      fun _ _ => False) (l : List DIElement) (s : DwarfWalk) :
    D.Walked s (l.foldl (D.walkElement (D.walkElements levels) P) s)
      (D.visitFrom levels P l s.seen) fun k path => ∃ m ∈ l, OwnEntry P m k path := by
  induction l generalizing s with
  | nil => exact (Walked.refl s).congr fun k path => by simp
  | cons m l ihl =>
    have hstep := walked_walkElement (P := P) (s := s) (m := m) ih
    have hrest := ihl (D.walkElement (D.walkElements levels) P s m)
    rw [hstep.seen] at hrest
    rw [List.foldl_cons, visitFrom_cons]
    exact (hstep.trans hrest).congr fun k path => by simp

/-- The walk visits the nested types that the walk through the tree visits, and fills in their
named members. -/
theorem walked_walkElements (levels : ℕ) (P : Embedding) (s : DwarfWalk) :
    D.Walked s (D.walkElements levels P s) (D.tree.visit levels P s.seen) fun _ _ => False := by
  induction levels generalizing P s with
  | zero => exact Walked.refl s
  | succ levels ih =>
    have hvisit : D.tree.visit (levels + 1) P s.seen = if P.type ∈ s.seen then []
        else P :: D.visitFrom levels P (D.getElements P.type) (insert P.type s.seen) := rfl
    rw [walkElements, hvisit]
    split_ifs with hseen
    · exact Walked.refl s
    · have hloop := walked_foldl (P := P) ih (D.getElements P.type)
        { s with seen := insert P.type s.seen }
      refine ⟨by rw [hloop.seen, seenAfter_cons], hloop.fills.congr fun k path => ?_⟩
      -- The entries of the members themselves are the named members of the type.
      have hown : (∃ m ∈ D.getElements P.type, OwnEntry P m k path) ↔ D.NamedAt P k path := by
        simp only [OwnEntry, NamedAt, members, List.mem_filter, decide_eq_true_eq, and_assoc]
      rw [hown, List.exists_mem_cons_iff, false_or]

/-- The table has the named members of the first places of all types. -/
theorem fills_offsetTable (hwithin : D.WithinDepth owner) :
    Fills (fun _ => none) (D.offsetTable owner) fun k path =>
      ∃ P, D.FirstEmbedding owner P ∧ D.NamedAt P k path := by
  refine (walked_walkElements levels (root owner) ⟨fun _ => none, ∅⟩).fills.congr ?_
  intro k path
  rw [false_or]
  refine exists_congr fun P => and_congr_left fun _ => ?_
  exact D.tree.mem_visit_iff hwithin

/-- The first places are places. -/
theorem FirstEmbedding.embedded (h : D.FirstEmbedding owner P) : D.Embedded owner P := by
  obtain ⟨before, after, hpreorder, -⟩ := h
  refine LabelTree.reflTransGen_of_mem_preorder (n := levels) ?_
  rw [hpreorder]
  exact List.mem_append_right _ List.mem_cons_self

/-- **The labels cover every member** exactly if each start of a named member is the start of a
named member of some type at its first place. -/
theorem labelsCover_iff (hwithin : D.WithinDepth owner) : D.LabelsCover owner ↔
    ∀ P k path, D.Embedded owner P → D.NamedAt P k path →
      ∃ Q, D.FirstEmbedding owner Q ∧ ∃ path', D.NamedAt Q k path' := by
  have hfills := fills_offsetTable hwithin
  have hsound : ∀ k path, D.offsetTable owner k = some path →
      ∃ Q, D.FirstEmbedding owner Q ∧ D.NamedAt Q k path := fun k path h =>
    (hfills.sound k path h).resolve_left nofun
  constructor
  · intro h P k path hP hnamed
    obtain ⟨path', hpath'⟩ := Option.isSome_iff_exists.mp (h.covers P k path hP hnamed)
    obtain ⟨Q, hQ, hnamed'⟩ := hsound k path' hpath'
    exact ⟨Q, hQ, path', hnamed'⟩
  · intro h
    refine ⟨fun P k path hP hnamed => ?_, fun k path hk => ?_⟩
    · obtain ⟨Q, hQ, path', hnamed'⟩ := h P k path hP hnamed
      exact hfills.complete k path' ⟨Q, hQ, hnamed'⟩
    · obtain ⟨Q, hQ, hnamed⟩ := hsound k path hk
      exact ⟨Q, hQ.embedded, hnamed⟩

/-! ### One type at two places -/

/-- A struct with the members `a` and `b`, of which `a` is a struct with `x` and `y`. -/
def nestedInfo (typeOfB : Option DITypeId) : DebugInfo where
  type t :=
    if t = 0 then .composite .structureType
      [⟨.member, "a".toList, 0, some 1⟩, ⟨.member, "b".toList, 64, typeOfB⟩]
    else .composite .structureType
      [⟨.member, "x".toList, 0, none⟩, ⟨.member, "y".toList, 32, none⟩]
  baseType_lt t tag b h := by
    split_ifs at h

/-- If `b` is no struct, all members are covered. -/
theorem nestedInfo_labelsCover : (nestedInfo none).LabelsCover 0 := by
  refine (labelsCover_iff (by decide)).mpr fun P k path hP hnamed => ?_
  have hpreorder : (nestedInfo none).tree.preorder levels (root 0) =
      [root 0, ⟨1, 0, "a".toList⟩] := by decide
  have hfits : (nestedInfo none).tree.Fits levels 0 := by decide
  have hmem := (LabelTree.mem_preorder_iff hfits).mpr hP
  rw [hpreorder] at hmem
  refine ⟨P, ?_, path, hnamed⟩
  rw [FirstEmbedding, hpreorder]
  rcases List.mem_pair.mp hmem with rfl | rfl
  · exact ⟨[], _, rfl, nofun⟩
  · exact ⟨[root 0], [], rfl, by decide⟩

/-- If it is the same struct, nothing is known of what is behind its start. -/
theorem nestedInfo_not_labelsCover : ¬(nestedInfo (some 1)).LabelsCover 0 := by
  intro h
  have hchild : (nestedInfo (some 1)).tree.ChildStep (root 0) ⟨1, 64, "b".toList⟩ := by
    unfold LabelTree.ChildStep
    decide
  have hnamed : (nestedInfo (some 1)).NamedAt ⟨1, 64, "b".toList⟩ 12 "b.y".toList := by
    unfold NamedAt
    decide
  exact absurd (h.covers _ 12 _ (Relation.ReflTransGen.single hchild) hnamed) (by decide)

end DebugInfo

end Lace
