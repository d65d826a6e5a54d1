import Lace.Surface.SharedFieldKey

/-!
# The texts of field keys

`SharedFieldKey::toString` writes a key as its type and, behind a `+`, its offset;
`annotateFieldName` takes the text apart again to look the field up in the debug information. The
offset is written only if it is positive, and is taken for 0 where it is missing.

## Main definitions

* `SharedFieldKey.toText`: the text of a key;
* `lookupArguments`, `annotateFieldName`: the type and the offset that are looked up;
* `RenderedKey`: the keys of fields that can be written.

## Main results

* `lookupArguments_toText`: what is read back of a key;
* `renderedKeys_iff`: which keys are read back, and which keys have the same text.
-/

namespace Lace

/-- The text in front of the type name. -/
def SharedFieldKind.toText : SharedFieldKind → List Char
  | .global => "global:".toList
  | .structField => "field:".toList
  | .unknown => "obj:".toList

theorem SharedFieldKind.toText_structField : structField.toText = "field:".toList := rfl

/-- `SharedFieldKey::toString`: the key as the surface writes it, with the offset only if it is
positive. -/
def SharedFieldKey.toText (key : SharedFieldKey) : List Char :=
  key.kind.toText ++ key.typeName.toList ++
    if 0 < key.fieldOffset then '+' :: Nat.toDigits 10 key.fieldOffset.toNat else []

/-- `std::string::rfind` of a character. -/
def rfindChar (c : Char) (s : List Char) : Option ℕ :=
  (s.reverse.findIdx? (· = c)).map fun i => s.length - 1 - i

/-- `std::isspace`: the blanks that the reader of a number skips. -/
def isSpace (c : Char) : Bool := c ∈ [' ', '\t', '\n', '\x0b', '\x0c', '\r']

/-- `std::stoll`: blanks, a sign and digits, whatever comes behind; `none` where it throws. -/
def stoll (s : List Char) : Option ℤ :=
  let s := s.dropWhile isSpace
  let sign : ℤ := if s.head? = some '-' then -1 else 1
  let s := if s.head? = some '-' ∨ s.head? = some '+' then s.tail else s
  let digits := s.takeWhile Char.isDigit
  let value := sign * Nat.ofDigitChars 10 digits 0
  if digits = [] ∨ value < -2 ^ 63 ∨ 2 ^ 63 ≤ value then none else some value

/-- The type and the offset that `annotateFieldName` looks up, if it comes to it. -/
def lookupArguments (canonical : List Char) : Option (List Char × ℤ) :=
  if !"field:".toList.isPrefixOf canonical then none
  else
    match rfindChar '+' canonical with
    | some plusPos =>
      if 6 < plusPos then
        (stoll (canonical.drop (plusPos + 1))).map fun offset =>
          ((canonical.drop 6).take (plusPos - 6), offset)
      else if canonical.drop 6 = [] then none
      else some (canonical.drop 6, 0)
    | none => if canonical.drop 6 = [] then none else some (canonical.drop 6, 0)

/-- `annotateFieldName`, over the lookup in the debug information. -/
def annotateFieldName (lookup : List Char → ℤ → List Char) (canonical : List Char) : List Char :=
  match lookupArguments canonical with
  | none => canonical
  | some (typeName, offset) =>
    if lookup typeName offset = [] then canonical
    else
      "field:".toList ++ typeName ++ '.' :: lookup typeName offset ++
        if (rfindChar '+' canonical).isSome then '@' :: (toString offset).toList else []

/-- The key of a field that a value can get. A type name is not empty, since LLVM keeps no empty
name; the offset is an `int64_t`. -/
structure RenderedKey (key : SharedFieldKey) : Prop where
  /-- A value has the key. -/
  returned : ∃ v whole, SharedFieldKey.fromValue v whole = some key ∨
    key ∈ SharedFieldKey.fromValueAllAliases v whole
  /-- The key is one for a field of a struct. -/
  kind : key.kind = .structField
  /-- The type has a name. -/
  typeName_ne : key.typeName.toList ≠ []
  /-- The name has no `+`. -/
  plus_notMem : '+' ∉ key.typeName.toList
  /-- The offset is not below the range. -/
  le_fieldOffset : -2 ^ 63 ≤ key.fieldOffset
  /-- It is not above the range. -/
  fieldOffset_lt : key.fieldOffset < 2 ^ 63

/-- The text of the key leads to its own type and offset. -/
def RoundTrips (key : SharedFieldKey) : Prop :=
  lookupArguments key.toText = some (key.typeName.toList, key.fieldOffset)

variable {c : Char} {s t : List Char} {n : ℕ} {key key' : SharedFieldKey}

/-! ### Reading numbers -/

/-- The last occurrence stands before a rest without one. -/
theorem rfindChar_append_cons (h : c ∉ t) : rfindChar c (s ++ c :: t) = some s.length := by
  have hfind : (s ++ c :: t).reverse.findIdx? (· = c) = some t.length := by
    rw [List.reverse_append, List.reverse_cons, List.append_assoc, List.findIdx?_append]
    have hnone : t.reverse.findIdx? (· = c) = none := by
      rw [List.findIdx?_eq_none_iff]
      intro x hx
      exact decide_eq_false fun heq => h (heq ▸ List.mem_reverse.mp hx)
    rw [hnone, List.singleton_append, List.findIdx?_cons]
    simp
  rw [rfindChar, hfind, Option.map_some, List.length_append, List.length_cons]
  congr 1
  omega

theorem rfindChar_eq_none (h : c ∉ s) : rfindChar c s = none := by
  rw [rfindChar, Option.map_eq_none_iff, List.findIdx?_eq_none_iff]
  intro x hx
  exact decide_eq_false fun heq => h (heq ▸ List.mem_reverse.mp hx)

/-- What is written is read. -/
theorem stoll_toDigits (hn : (n : ℤ) < 2 ^ 63) : stoll (Nat.toDigits 10 n) = some (n : ℤ) := by
  have hdigit : ∀ c ∈ Nat.toDigits 10 n, c.isDigit = true := fun c hc =>
    Nat.isDigit_of_mem_toDigits (by decide) (by decide) hc
  have hvalue : Nat.ofDigitChars 10 (Nat.toDigits 10 n) 0 = n := Nat.ofDigitChars_ten_toDigits
  have hne : Nat.toDigits 10 n ≠ [] := Nat.toDigits_ne_nil
  generalize Nat.toDigits 10 n = digits at hdigit hvalue hne ⊢
  obtain ⟨d, ds, rfl⟩ := List.exists_cons_of_ne_nil hne
  -- A digit is neither a blank nor a sign.
  have hd : d.isDigit = true := hdigit d List.mem_cons_self
  have hother : ∀ c : Char, c.isDigit = false → d ≠ c := by
    rintro c hc rfl
    rw [hd] at hc
    cases hc
  have hblank : (d :: ds).dropWhile isSpace = d :: ds := by
    refine List.dropWhile_cons_of_neg ?_
    rw [isSpace, decide_eq_true_eq]
    intro hmem
    simp only [List.mem_cons, List.not_mem_nil, or_false] at hmem
    rcases hmem with h | h | h | h | h | h <;> exact hother _ (by decide) h
  have hminus : (d :: ds).head? ≠ some '-' := fun h => hother _ (by decide) (Option.some.inj h)
  have hplus : (d :: ds).head? ≠ some '+' := fun h => hother _ (by decide) (Option.some.inj h)
  have htake : (d :: ds).takeWhile Char.isDigit = d :: ds := List.takeWhile_eq_self_iff.mpr hdigit
  have hrange : ¬(d :: ds = [] ∨ (n : ℤ) < -2 ^ 63 ∨ 2 ^ 63 ≤ (n : ℤ)) := by
    rw [not_or, not_or]
    exact ⟨hne, by omega, by omega⟩
  rw [stoll]
  simp only [hblank, hminus, hplus, or_self, if_false, htake, hvalue, one_mul, if_neg hrange]

theorem plus_notMem_toDigits : '+' ∉ Nat.toDigits 10 n := fun h =>
  absurd (Nat.isDigit_of_mem_toDigits (by decide) (by decide) h) (by decide)

/-! ### Reading keys -/

/-- A text with an offset is split in front of it. -/
theorem lookupArguments_plus (ht : t ≠ []) (hn : (n : ℤ) < 2 ^ 63) :
    lookupArguments ("field:".toList ++ t ++ '+' :: Nat.toDigits 10 n) = some (t, (n : ℤ)) := by
  have hlen : ("field:".toList ++ t).length = 6 + t.length := by
    rw [List.length_append]
    rfl
  have hpos := List.length_pos_iff.mpr ht
  have hfield : "field:".toList.isPrefixOf
      ("field:".toList ++ t ++ '+' :: Nat.toDigits 10 n) = true := by
    rw [List.isPrefixOf_iff_prefix, List.append_assoc]
    exact List.prefix_append _ _
  have hname : (("field:".toList ++ t ++ '+' :: Nat.toDigits 10 n).drop 6).take
      (6 + t.length - 6) = t := by
    rw [List.append_assoc, Nat.add_sub_cancel_left]
    exact List.take_left
  have hdigits : ("field:".toList ++ t ++ '+' :: Nat.toDigits 10 n).drop (6 + t.length + 1) =
      Nat.toDigits 10 n := by
    rw [← hlen, List.drop_append, Nat.add_sub_cancel_left, List.drop_eq_nil_of_le (by omega)]
    rfl
  rw [lookupArguments, hfield, rfindChar_append_cons plus_notMem_toDigits, hlen]
  dsimp only
  rw [if_neg (by simp), if_pos (by omega), hname, hdigits, stoll_toDigits hn]
  rfl

/-- A text without an offset is not split. -/
theorem lookupArguments_plain (ht : t ≠ []) (hplus : '+' ∉ t) :
    lookupArguments ("field:".toList ++ t) = some (t, 0) := by
  have hfield : "field:".toList.isPrefixOf ("field:".toList ++ t) = true := by
    rw [List.isPrefixOf_iff_prefix]
    exact List.prefix_append _ _
  have hnone : '+' ∉ "field:".toList ++ t := by
    rw [List.mem_append, not_or]
    exact ⟨by decide, hplus⟩
  rw [lookupArguments, hfield, rfindChar_eq_none hnone]
  have hname : ("field:".toList ++ t).drop 6 = t := rfl
  dsimp only
  rw [if_neg (by simp), hname, if_neg ht]

/-- What is read back of a key: its type, and its offset if that is positive. -/
theorem lookupArguments_toText (h : RenderedKey key) :
    lookupArguments key.toText = some (key.typeName.toList, max key.fieldOffset 0) := by
  rw [SharedFieldKey.toText, h.kind, SharedFieldKind.toText_structField]
  split_ifs with hoffset
  · have hoff : (key.fieldOffset.toNat : ℤ) = key.fieldOffset := by omega
    have hmax : max key.fieldOffset 0 = key.fieldOffset := by omega
    have hlt := h.fieldOffset_lt
    rw [← hoff] at hlt
    rw [lookupArguments_plus h.typeName_ne hlt, hoff, hmax]
  · have hmax : max key.fieldOffset 0 = 0 := by omega
    rw [List.append_nil, lookupArguments_plain h.typeName_ne h.plus_notMem, hmax]

/-- Keys have the same text exactly if they have the same type, and the same offset or none that is
positive. -/
theorem toText_eq_iff (h : RenderedKey key) (h' : RenderedKey key') : key.toText = key'.toText ↔
    key.typeName = key'.typeName ∧ max key.fieldOffset 0 = max key'.fieldOffset 0 := by
  constructor
  · intro heq
    have hread := lookupArguments_toText h
    rw [heq, lookupArguments_toText h'] at hread
    obtain ⟨hname, hoffset⟩ := Prod.mk.inj (Option.some.inj hread)
    exact ⟨(String.toList_inj.mp hname).symm, hoffset.symm⟩
  · rintro ⟨hname, hoffset⟩
    rw [SharedFieldKey.toText, SharedFieldKey.toText, h.kind, h'.kind, hname]
    by_cases hpos : 0 < key.fieldOffset
    · have hsame : key.fieldOffset = key'.fieldOffset := by omega
      rw [hsame]
    · rw [if_neg hpos, if_neg (by omega)]

/-- **Keys are written well** exactly if their offsets are not negative: such a key is read back,
and keys of one type with offsets that are not positive are told apart only if the offsets are the
same. -/
theorem renderedKeys_iff (h : RenderedKey key) (h' : RenderedKey key') :
    (RoundTrips key ↔ 0 ≤ key.fieldOffset) ∧
      ((key.toText = key'.toText → key = key') ↔
        (key.typeName = key'.typeName → key.fieldOffset ≤ 0 → key'.fieldOffset ≤ 0 →
          key.fieldOffset = key'.fieldOffset)) := by
  constructor
  · rw [RoundTrips, lookupArguments_toText h, Option.some.injEq, Prod.mk.injEq, and_iff_right rfl]
    omega
  · rw [toText_eq_iff h h']
    constructor
    · intro hinj hname hoffset hoffset'
      have hkey := hinj ⟨hname, by omega⟩
      rw [hkey]
    · rintro hsame ⟨hname, hmax⟩
      refine SharedFieldKey.ext (h.kind.trans h'.kind.symm) hname ?_
      have := hsame hname
      omega

/-! ### A negative offset -/

/-- A field at byte 8 of a node that is reached from its list entry at byte 16: the offsets add up
to -8. -/
def earlyField : PointerValue where
  steps := [.gep (some ⟨"struct.node", "0x1"⟩) (some 8), .gep none (some (-16))]
  root := .argument "walk" 0
  users := []

theorem earlyField_rendered : RenderedKey ⟨.structField, "struct.node", -8⟩ where
  returned := ⟨earlyField, false, Or.inl (by decide +kernel)⟩
  kind := rfl
  typeName_ne := by decide
  plus_notMem := by decide
  le_fieldOffset := by decide
  fieldOffset_lt := by decide

theorem directField_rendered : RenderedKey ⟨.structField, "struct.node", 24⟩ where
  returned := ⟨directField, false, Or.inl directField_access.fromValue⟩
  kind := rfl
  typeName_ne := by decide
  plus_notMem := by decide
  le_fieldOffset := by decide
  fieldOffset_lt := by decide

/-- The direct access is read back, and its text is no other key's. -/
theorem directField_roundTrips : RoundTrips ⟨.structField, "struct.node", 24⟩ ∧
    (SharedFieldKey.toText ⟨.structField, "struct.node", 24⟩ =
        SharedFieldKey.toText ⟨.structField, "struct.node", -8⟩ →
      (⟨.structField, "struct.node", 24⟩ : SharedFieldKey) = ⟨.structField, "struct.node", -8⟩) := by
  obtain ⟨hround, hinj⟩ := renderedKeys_iff directField_rendered earlyField_rendered
  exact ⟨hround.mpr (by decide), hinj.mpr fun _ h => absurd h (by decide)⟩

/-- The early field is taken for the one at the start of the node. -/
theorem earlyField_not_roundTrips : ¬∀ key, RenderedKey key → RoundTrips key := by
  intro hall
  have hread := lookupArguments_toText earlyField_rendered
  rw [hall _ earlyField_rendered] at hread
  exact absurd hread (by decide)

end Lace
