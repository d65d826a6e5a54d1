import Mathlib.Data.List.Basic
import Mathlib.Data.List.Infix

/-!
# Well-formed UTF-8 on lists of bytes

Strict UTF-8 over `List UInt8`. A byte string is well formed if it is the encoding of a list of
`Char`s, Lean's own notion; since a `Char` is a Unicode scalar value, no overlong form, no
surrogate and nothing above U+10FFFF is well formed.

## Main definitions

* `WellFormed bs`: `bs` encodes a list of characters (`ByteArray.IsValidUTF8`).
* `isContinuation`, `isCharacter`: the byte ranges of one encoded character, as a test on bytes.
* `announcedLength b`: the length of the sequence that the high bits of a lead byte announce.

## Main results

* `isCharacter_iff`: `isCharacter` recognises exactly the encodings of single characters.
* `wellFormed_character_append`: an encoded character in front changes nothing.
* `not_wellFormed_append`: a sequence of the announced length that encodes no character spoils
  every string it starts.
-/

namespace Lace.Library.Utf8

/-- `bs` is the UTF-8 encoding of a list of characters. -/
def WellFormed (bs : List UInt8) : Prop :=
  bs.toByteArray.IsValidUTF8

/-- The bytes `80..BF`, which stand only after a lead byte. -/
def isContinuation (b : UInt8) : Bool :=
  0x80 ≤ b && b ≤ 0xBF

/-- The encodings of one character, by the ranges of their bytes. The second byte is narrowed
after `E0`, `ED`, `F0` and `F4`, which shuts out overlong forms, surrogates and values above
U+10FFFF. -/
def isCharacter : List UInt8 → Bool
  | [b₀] => b₀ ≤ 0x7F
  | [b₀, b₁] => 0xC2 ≤ b₀ && b₀ ≤ 0xDF && isContinuation b₁
  | [b₀, b₁, b₂] =>
    0xE0 ≤ b₀ && b₀ ≤ 0xEF && (b₀ != 0xE0 || 0xA0 ≤ b₁) && (b₀ != 0xED || b₁ ≤ 0x9F) &&
      isContinuation b₁ && isContinuation b₂
  | [b₀, b₁, b₂, b₃] =>
    0xF0 ≤ b₀ && b₀ ≤ 0xF4 && (b₀ != 0xF0 || 0x90 ≤ b₁) && (b₀ != 0xF4 || b₁ ≤ 0x8F) &&
      isContinuation b₁ && isContinuation b₂ && isContinuation b₃
  | _ => false

/-! ### One character -/

/-- The encoding of a character passes the byte test. -/
lemma isCharacter_utf8EncodeChar (c : Char) : isCharacter (String.utf8EncodeChar c) = true := by
  have hc : c.val.toNat < 0xD800 ∨ 0xDFFF < c.val.toNat ∧ c.val.toNat < 0x110000 := c.valid
  simp only [String.utf8EncodeChar]
  generalize c.val.toNat = v at hc
  split_ifs <;>
    simp [isCharacter, isContinuation, UInt8.le_iff_toNat_le, ← UInt8.toNat_inj] <;> omega

/-- Every scalar value is the code of a character. -/
lemma exists_char {v : ℕ} (h : v < 0xD800 ∨ 0xDFFF < v ∧ v < 0x110000) :
    ∃ c : Char, c.val.toNat = v := by
  exact ⟨Char.ofNatAux v h, rfl⟩

/-- The byte test recognises exactly the encodings of single characters. -/
theorem isCharacter_iff {bs : List UInt8} :
    isCharacter bs = true ↔ ∃ c : Char, String.utf8EncodeChar c = bs := by
  constructor
  · intro h
    -- The value is read off the payload bits; the ranges of the bytes make it a scalar value.
    match bs, h with
    | [b₀], h =>
      simp only [isCharacter, decide_eq_true_eq, UInt8.le_iff_toNat_le, UInt8.reduceToNat] at h
      obtain ⟨c, hc⟩ := exists_char (v := b₀.toNat) (by omega)
      refine ⟨c, ?_⟩
      simp only [String.utf8EncodeChar, hc, h, if_true, UInt8.ofNat_toNat]
    | [b₀, b₁], h =>
      simp only [isCharacter, isContinuation, Bool.and_eq_true, decide_eq_true_eq,
        UInt8.le_iff_toNat_le, UInt8.reduceToNat] at h
      obtain ⟨c, hc⟩ := exists_char (v := (b₀.toNat - 0xC0) * 64 + (b₁.toNat - 0x80)) (by omega)
      refine ⟨c, ?_⟩
      simp only [String.utf8EncodeChar, hc]
      rw [if_neg (by omega), if_pos (by omega)]
      simp only [List.cons.injEq, ← UInt8.toNat_inj, UInt8.toNat_ofNat', and_true]
      omega
    | [b₀, b₁, b₂], h =>
      simp only [isCharacter, isContinuation, Bool.and_eq_true, Bool.or_eq_true, bne_iff_ne, ne_eq,
        decide_eq_true_eq, UInt8.le_iff_toNat_le, ← UInt8.toNat_inj, UInt8.reduceToNat] at h
      obtain ⟨c, hc⟩ := exists_char
        (v := (b₀.toNat - 0xE0) * 4096 + (b₁.toNat - 0x80) * 64 + (b₂.toNat - 0x80)) (by omega)
      refine ⟨c, ?_⟩
      simp only [String.utf8EncodeChar, hc]
      rw [if_neg (by omega), if_neg (by omega), if_pos (by omega)]
      simp only [List.cons.injEq, ← UInt8.toNat_inj, UInt8.toNat_ofNat', and_true]
      omega
    | [b₀, b₁, b₂, b₃], h =>
      simp only [isCharacter, isContinuation, Bool.and_eq_true, Bool.or_eq_true, bne_iff_ne, ne_eq,
        decide_eq_true_eq, UInt8.le_iff_toNat_le, ← UInt8.toNat_inj, UInt8.reduceToNat] at h
      obtain ⟨c, hc⟩ := exists_char (v := (b₀.toNat - 0xF0) * 262144 + (b₁.toNat - 0x80) * 4096 +
        (b₂.toNat - 0x80) * 64 + (b₃.toNat - 0x80)) (by omega)
      refine ⟨c, ?_⟩
      simp only [String.utf8EncodeChar, hc]
      rw [if_neg (by omega), if_neg (by omega), if_neg (by omega)]
      simp only [List.cons.injEq, ← UInt8.toNat_inj, UInt8.toNat_ofNat', and_true]
      omega
  · rintro ⟨c, rfl⟩
    exact isCharacter_utf8EncodeChar c

/-- The number of bytes the high bits of a lead byte announce; `0` for a continuation byte and for
`F8..FF`. -/
def announcedLength (b : UInt8) : ℕ :=
  if b ≤ 0x7F then 1
  else if 0xC0 ≤ b ∧ b ≤ 0xDF then 2
  else if 0xE0 ≤ b ∧ b ≤ 0xEF then 3
  else if 0xF0 ≤ b ∧ b ≤ 0xF7 then 4
  else 0

/-- An encoded character has the length its first byte announces. -/
lemma length_of_isCharacter {b : UInt8} {bs : List UInt8} (h : isCharacter (b :: bs) = true) :
    (b :: bs).length = announcedLength b := by
  match bs, h with
  | [], h | [_], h | [_, _], h | [_, _, _], h =>
    simp only [isCharacter, Bool.and_eq_true, decide_eq_true_eq, UInt8.le_iff_toNat_le,
      UInt8.reduceToNat] at h
    simp only [announcedLength, UInt8.le_iff_toNat_le, UInt8.reduceToNat, List.length_cons,
      List.length_nil]
    split_ifs <;> omega

/-! ### Strings of characters -/

@[simp]
lemma wellFormed_nil : WellFormed [] :=
  ⟨[], rfl⟩

/-- An encoded character in front of a string changes nothing. -/
theorem wellFormed_character_append {p : List UInt8} (hp : isCharacter p = true)
    (bs : List UInt8) : WellFormed (p ++ bs) ↔ WellFormed bs := by
  obtain ⟨c, rfl⟩ := isCharacter_iff.mp hp
  have henc : (String.utf8EncodeChar c ++ bs).toByteArray = [c].utf8Encode ++ bs.toByteArray := by
    rw [List.toByteArray_append, List.utf8Encode, List.flatMap_singleton]
  rw [WellFormed, WellFormed, henc, ByteArray.isValidUTF8_utf8Encode_singleton_append_iff]

/-- A non-empty well-formed string starts with an encoded character. -/
lemma exists_character_of_wellFormed {b : UInt8} {bs : List UInt8} (h : WellFormed (b :: bs)) :
    ∃ p, isCharacter (b :: p) = true ∧ (b :: p) <+: (b :: bs) := by
  obtain ⟨cs, hcs⟩ := h
  rw [List.utf8Encode, List.toByteArray_inj] at hcs
  cases cs with
  | nil => simp at hcs
  | cons c cs =>
    rw [List.flatMap_cons] at hcs
    have hchar := isCharacter_utf8EncodeChar c
    -- The encoding of `c` is not empty, so it starts with `b`.
    cases henc : String.utf8EncodeChar c with
    | nil => simp [henc, isCharacter] at hchar
    | cons b' p =>
      rw [henc] at hchar hcs
      obtain ⟨rfl, hbs⟩ := List.cons.inj hcs
      exact ⟨p, hchar, _, hcs.symm⟩

/-- A sequence of the announced length that encodes no character makes every string that starts
with it ill-formed. -/
theorem not_wellFormed_append {b : UInt8} {p : List UInt8}
    (hlen : (b :: p).length = announcedLength b) (hp : isCharacter (b :: p) = false)
    (bs : List UInt8) : ¬ WellFormed ((b :: p) ++ bs) := by
  intro h
  obtain ⟨q, hq, hpre⟩ := exists_character_of_wellFormed h
  -- Both prefixes have the length that `b` announces, so they are the same.
  have heq : b :: q = b :: p :=
    (List.prefix_of_prefix_length_le hpre (List.prefix_append _ _)
      (by rw [length_of_isCharacter hq, hlen])).eq_of_length
      (by rw [length_of_isCharacter hq, hlen])
  rw [heq, hp] at hq
  exact Bool.false_ne_true hq

end Lace.Library.Utf8
