import Mathlib.Data.FinEnum
import Lace.Library.Utf8

/-!
# Sanitising request strings

`sanitize_utf8_string` of the LLM client, which every string of a request passes before the
request is serialised.

## Main definitions

* `sanitizeUtf8String`: the function of the source, on the bytes of a string.
* `isLaxChunk`: the byte sequences with the bits of a character that encode none.
* `Sanitizes s t`: the derivation of an output, one rule for each way the loop advances.

## Main results

* `sanitizeUtf8String_wellFormed_iff`: the output is strict UTF-8 exactly when no lax chunk
  stands in the input; well-formed text without control characters is left alone, and a second
  pass changes nothing.
-/

namespace Lace.LLM

open Library.Utf8

/-- A continuation byte by its two high bits, as the source tests it. -/
def hasContinuationBits (b : UInt8) : Bool :=
  b &&& 0xC0 == 0x80

/-- An ASCII byte after sanitising: control characters other than newline, tab and carriage
return become a space. -/
def sanitizeAscii (c : UInt8) : UInt8 :=
  if c ≥ 0x20 ∨ c = 0x0A ∨ c = 0x09 ∨ c = 0x0D then c else 0x20

/-- The control characters that sanitising replaces. -/
def isStrippedControl (c : UInt8) : Bool :=
  c < 0x20 && c != 0x0A && c != 0x09 && c != 0x0D

/-- `sanitize_utf8_string`: copies ASCII and the sequences whose bytes carry the lead and
continuation bits of a two-, three- or four-byte character, and replaces any other byte by `?`. -/
def sanitizeUtf8String : List UInt8 → List UInt8
  | [] => []
  | c :: rest =>
    if c < 0x80 then
      sanitizeAscii c :: sanitizeUtf8String rest
    else if c &&& 0xE0 = 0xC0 then
      match rest with
      | c₁ :: tail =>
        if hasContinuationBits c₁ then
          c :: c₁ :: sanitizeUtf8String tail
        else
          0x3F :: sanitizeUtf8String (c₁ :: tail)
      | [] => [0x3F]
    else if c &&& 0xF0 = 0xE0 then
      match rest with
      | c₁ :: c₂ :: tail =>
        if hasContinuationBits c₁ && hasContinuationBits c₂ then
          c :: c₁ :: c₂ :: sanitizeUtf8String tail
        else
          0x3F :: sanitizeUtf8String (c₁ :: c₂ :: tail)
      | short => 0x3F :: sanitizeUtf8String short
    else if c &&& 0xF8 = 0xF0 then
      match rest with
      | c₁ :: c₂ :: c₃ :: tail =>
        if hasContinuationBits c₁ && hasContinuationBits c₂ && hasContinuationBits c₃ then
          c :: c₁ :: c₂ :: c₃ :: sanitizeUtf8String tail
        else
          0x3F :: sanitizeUtf8String (c₁ :: c₂ :: c₃ :: tail)
      | short => 0x3F :: sanitizeUtf8String short
    else
      0x3F :: sanitizeUtf8String rest

example : sanitizeUtf8String [0x41, 0x01, 0xC3, 0xA9, 0xFF, 0xE2, 0x82] =
    [0x41, 0x20, 0xC3, 0xA9, 0x3F, 0x3F, 0x3F] := by decide

/-! ### Chunks -/

/-- A byte sequence that the loop copies whole: a lead byte of two, three or four bytes followed
by as many continuation bytes as it announces. -/
def isChunk : List UInt8 → Bool
  | [] => false
  | b :: p => 2 ≤ announcedLength b && (b :: p).length == announcedLength b && p.all isContinuation

/-- The chunks that encode no character: two-byte, three-byte and four-byte overlong forms,
surrogates, and values above U+10FFFF. -/
def isLaxChunk : List UInt8 → Bool
  | [b₀, b₁] => (b₀ == 0xC0 || b₀ == 0xC1) && isContinuation b₁
  | [b₀, b₁, b₂] =>
    (b₀ == 0xE0 && b₁ ≤ 0x9F || b₀ == 0xED && 0xA0 ≤ b₁) && isContinuation b₁ &&
      isContinuation b₂
  | [b₀, b₁, b₂, b₃] =>
    (b₀ == 0xF0 && b₁ ≤ 0x8F || b₀ == 0xF4 && 0x90 ≤ b₁ || 0xF5 ≤ b₀ && b₀ ≤ 0xF7) &&
      isContinuation b₁ && isContinuation b₂ && isContinuation b₃
  | _ => false

/-- The bit tests of the loop, as the length they announce. -/
lemma announcedLength_eq_bits (c : UInt8) :
    announcedLength c = if c < 0x80 then 1 else if c &&& 0xE0 = 0xC0 then 2
      else if c &&& 0xF0 = 0xE0 then 3 else if c &&& 0xF8 = 0xF0 then 4 else 0 := by
  revert c
  decide +kernel

lemma hasContinuationBits_eq (b : UInt8) : hasContinuationBits b = isContinuation b := by
  revert b
  decide +kernel

lemma isChunk_iff {b : UInt8} {p : List UInt8} :
    isChunk (b :: p) = true ↔ 2 ≤ announcedLength b ∧ p.length + 1 = announcedLength b ∧
      ∀ c ∈ p, isContinuation c = true := by
  simp only [isChunk, Bool.and_eq_true, decide_eq_true_eq, beq_iff_eq, List.length_cons,
    List.all_eq_true, and_assoc]

/-- A character of more than one byte is a chunk. -/
lemma isChunk_of_isCharacter {b : UInt8} {p : List UInt8} (hb : 0x7F < b)
    (h : isCharacter (b :: p) = true) : isChunk (b :: p) = true := by
  have hlen := length_of_isCharacter h
  rw [List.length_cons] at hlen
  match p, h with
  | [], h =>
    rw [isCharacter, decide_eq_true_eq] at h
    exact absurd h (UInt8.not_le.mpr hb)
  | [_], h | [_, _], h | [_, _, _], h =>
    simp only [isCharacter, Bool.and_eq_true] at h
    rw [isChunk_iff, ← hlen]
    simp [h]

/-- The lax chunks are the chunks that encode no character. -/
lemma isLaxChunk_iff {p : List UInt8} :
    isLaxChunk p = true ↔ isChunk p = true ∧ isCharacter p = false := by
  match p with
  | [] => simp [isLaxChunk, isChunk]
  | [b] =>
    simp only [isLaxChunk, isChunk_iff, List.length_nil, Bool.false_eq_true, false_iff, not_and]
    omega
  | [b₀, b₁] | [b₀, b₁, b₂] | [b₀, b₁, b₂, b₃] =>
    rw [isChunk_iff]
    simp only [List.length_cons, List.length_nil, List.mem_cons, List.not_mem_nil, or_false,
      forall_eq_or_imp, forall_eq]
    simp only [isLaxChunk, isCharacter, announcedLength, isContinuation,
      Bool.and_eq_true, Bool.or_eq_true, Bool.and_eq_false_iff, Bool.or_eq_false_iff, beq_iff_eq,
      bne_eq_false_iff_eq, decide_eq_true_eq, decide_eq_false_iff_not, UInt8.le_iff_toNat_le,
      ← UInt8.toNat_inj, UInt8.reduceToNat]
    split_ifs <;> omega
  | b₀ :: b₁ :: b₂ :: b₃ :: b₄ :: p =>
    simp only [isLaxChunk, isChunk_iff, isCharacter, announcedLength, List.length_cons,
      Bool.false_eq_true, false_iff, not_and]
    split_ifs <;> omega

/-- A continuation byte starts no lax chunk, nor does an ASCII byte. -/
lemma not_isLaxChunk_cons {b : UInt8} (hb : b ≤ 0xBF) (p : List UInt8) :
    isLaxChunk (b :: p) = false := by
  have hlen : announcedLength b < 2 := by
    simp only [announcedLength, UInt8.le_iff_toNat_le, UInt8.reduceToNat] at hb ⊢
    split_ifs <;> omega
  by_contra h
  rw [Bool.not_eq_false, isLaxChunk_iff, isChunk_iff] at h
  omega

/-- The lax chunks inside a chunk and what follows it: the chunk itself, or one of the rest. -/
lemma isLaxChunk_infix_append {p s : List UInt8} (hp : isChunk p = true) {l : List UInt8}
    (hl : isLaxChunk l = true) : l <:+: p ++ s ↔ l = p ∨ l <:+: s := by
  match p, l, hp, hl with
  | b :: q, a :: l, hp, hl =>
    obtain ⟨hpc, hpl, hq⟩ := isChunk_iff.mp hp
    obtain ⟨hlc, hll, -⟩ := isChunk_iff.mp (isLaxChunk_iff.mp hl).1
    -- No lax chunk starts at a continuation byte, so those of `q` can be skipped.
    have hskip : ∀ q : List UInt8, (∀ c ∈ q, isContinuation c = true) →
        (a :: l <:+: q ++ s ↔ a :: l <:+: s) := by
      intro q hq
      induction q with
      | nil => simp
      | cons c q ih =>
        have hnot : ¬ a :: l <+: c :: (q ++ s) := by
          intro hpre
          have hac : a = c := (List.cons_prefix_cons.mp hpre).1
          have hc := hq c List.mem_cons_self
          simp only [isContinuation, Bool.and_eq_true, decide_eq_true_eq] at hc
          rw [hac, not_isLaxChunk_cons hc.2] at hl
          exact Bool.false_ne_true hl
        rw [List.cons_append, List.infix_cons_iff, ih fun d hd => hq d (List.mem_cons_of_mem c hd)]
        simp [hnot]
    rw [List.cons_append, List.infix_cons_iff, hskip q hq]
    apply or_congr_left
    constructor
    · intro hpre
      have hab : a = b := (List.cons_prefix_cons.mp hpre).1
      -- Both chunks have the length that the common lead byte announces.
      refine List.IsPrefix.eq_of_length (List.prefix_of_prefix_length_le hpre
        (List.prefix_append (b :: q) s) ?_) ?_ <;>
      · rw [List.length_cons, List.length_cons, hll, hpl, hab]
    · intro h
      rw [h]
      exact List.prefix_append (b :: q) s

/-! ### Derivations -/

/-- `Sanitizes s t`: the loop turns `s` into `t`, with one rule for each way it advances. -/
inductive Sanitizes : List UInt8 → List UInt8 → Prop
  | nil : Sanitizes [] []
  /-- An ASCII byte, or the space in its place. -/
  | ascii {b : UInt8} {s t : List UInt8} (hb : b ≤ 0x7F) (h : Sanitizes s t) :
      Sanitizes (b :: s) (sanitizeAscii b :: t)
  /-- A chunk is copied whole. -/
  | chunk {p s t : List UInt8} (hp : isChunk p = true) (h : Sanitizes s t) :
      Sanitizes (p ++ s) (p ++ t)
  /-- Any other byte becomes `?`, and the loop goes on with the next one. -/
  | reject {b : UInt8} {s t : List UInt8} (hb : 0x7F < b)
      (hno : ∀ p, p <+: b :: s → isChunk p = false) (h : Sanitizes s t) :
      Sanitizes (b :: s) (0x3F :: t)

/-- No chunk starts at a lead byte that announces `n` more bytes when fewer are left or one of the
next `n` is no continuation byte. -/
lemma isChunk_eq_false_of_cut {c : UInt8} {rest : List UInt8} {n : ℕ}
    (hn : announcedLength c = n + 1)
    (h : rest.length < n ∨ ∃ d ∈ rest.take n, isContinuation d = false) :
    ∀ p, p <+: c :: rest → isChunk p = false := by
  intro p hp
  cases p with
  | nil => rfl
  | cons b q =>
    obtain ⟨rfl, hq⟩ := List.cons_prefix_cons.mp hp
    by_contra hchunk
    rw [Bool.not_eq_false, isChunk_iff] at hchunk
    obtain ⟨-, hlen, hcont⟩ := hchunk
    -- The chunk would consist of `c` and exactly the next `n` bytes.
    have hqn : q.length = n := by omega
    have htake : rest.take n = q := by rw [← hqn, ← List.prefix_iff_eq_take.mp hq]
    rcases h with h | ⟨d, hd, hbad⟩
    · exact absurd hq.length_le (by omega)
    · rw [htake] at hd
      rw [hcont d hd] at hbad
      exact Bool.noConfusion hbad

lemma ascii_iff {c : UInt8} : c < 0x80 ↔ c ≤ 0x7F := by
  rw [UInt8.lt_iff_toNat_lt, UInt8.le_iff_toNat_le]
  exact Nat.lt_succ_iff

lemma not_ascii_iff {c : UInt8} : ¬ c < 0x80 ↔ 0x7F < c := by
  rw [ascii_iff, UInt8.not_le]

section Lead

variable {c : UInt8} (hc : ¬ c < 0x80)

include hc

lemma announcedLength_eq_two (h2 : c &&& 0xE0 = 0xC0) : announcedLength c = 2 := by
  rw [announcedLength_eq_bits, if_neg hc, if_pos h2]

lemma announcedLength_eq_three (h2 : ¬ c &&& 0xE0 = 0xC0) (h3 : c &&& 0xF0 = 0xE0) :
    announcedLength c = 3 := by
  rw [announcedLength_eq_bits, if_neg hc, if_neg h2, if_pos h3]

lemma announcedLength_eq_four (h2 : ¬ c &&& 0xE0 = 0xC0) (h3 : ¬ c &&& 0xF0 = 0xE0)
    (h4 : c &&& 0xF8 = 0xF0) : announcedLength c = 4 := by
  rw [announcedLength_eq_bits, if_neg hc, if_neg h2, if_neg h3, if_pos h4]

end Lead

/-- Every run of the loop is a derivation. -/
theorem sanitizes_sanitizeUtf8String (s : List UInt8) : Sanitizes s (sanitizeUtf8String s) := by
  -- The cases are the branches of the loop: for each announced length a chunk, a bad continuation
  -- byte, and a string that ends too early.
  fun_induction sanitizeUtf8String s with
  | case1 => exact .nil
  | case2 c rest hc ih => exact .ascii (ascii_iff.mp hc) ih
  | case3 c hc h2 c₁ tail h₁ ih =>
    have hlen := announcedLength_eq_two hc h2
    rw [hasContinuationBits_eq] at h₁
    exact .chunk (p := [c, c₁]) (isChunk_iff.mpr (by simp [hlen, h₁])) ih
  | case4 c hc h2 c₁ tail h₁ ih =>
    have hlen := announcedLength_eq_two hc h2
    rw [hasContinuationBits_eq, Bool.not_eq_true] at h₁
    exact .reject (not_ascii_iff.mp hc) (isChunk_eq_false_of_cut hlen (.inr ⟨c₁, by simp, h₁⟩)) ih
  | case5 c hc h2 =>
    have hlen := announcedLength_eq_two hc h2
    exact .reject (not_ascii_iff.mp hc) (isChunk_eq_false_of_cut hlen (.inl (by simp))) .nil
  | case6 c hc h2 h3 c₁ c₂ tail h₁ ih =>
    have hlen := announcedLength_eq_three hc h2 h3
    simp only [hasContinuationBits_eq, Bool.and_eq_true] at h₁
    exact .chunk (p := [c, c₁, c₂]) (isChunk_iff.mpr (by simp [hlen, h₁])) ih
  | case7 c hc h2 h3 c₁ c₂ tail h₁ ih =>
    have hlen := announcedLength_eq_three hc h2 h3
    simp only [hasContinuationBits_eq, Bool.not_eq_true, Bool.and_eq_false_iff] at h₁
    refine .reject (not_ascii_iff.mp hc) (isChunk_eq_false_of_cut hlen (.inr ?_)) ih
    simpa using h₁
  | case8 c hc h2 h3 short hshort ih =>
    have hlen := announcedLength_eq_three hc h2 h3
    refine .reject (not_ascii_iff.mp hc) (isChunk_eq_false_of_cut hlen (.inl ?_)) ih
    match short, hshort with
    | [], _ | [_], _ => simp
    | c₁ :: c₂ :: tail, hshort => exact (hshort c₁ c₂ tail rfl).elim
  | case9 c hc h2 h3 h4 c₁ c₂ c₃ tail h₁ ih =>
    have hlen := announcedLength_eq_four hc h2 h3 h4
    simp only [hasContinuationBits_eq, Bool.and_eq_true] at h₁
    exact .chunk (p := [c, c₁, c₂, c₃]) (isChunk_iff.mpr (by simp [hlen, h₁])) ih
  | case10 c hc h2 h3 h4 c₁ c₂ c₃ tail h₁ ih =>
    have hlen := announcedLength_eq_four hc h2 h3 h4
    simp only [hasContinuationBits_eq, Bool.not_eq_true, Bool.and_eq_false_iff] at h₁
    refine .reject (not_ascii_iff.mp hc) (isChunk_eq_false_of_cut hlen (.inr ?_)) ih
    simpa [or_assoc] using h₁
  | case11 c hc h2 h3 h4 short hshort ih =>
    have hlen := announcedLength_eq_four hc h2 h3 h4
    refine .reject (not_ascii_iff.mp hc) (isChunk_eq_false_of_cut hlen (.inl ?_)) ih
    match short, hshort with
    | [], _ | [_], _ | [_, _], _ => simp
    | c₁ :: c₂ :: c₃ :: tail, hshort => exact (hshort c₁ c₂ c₃ tail rfl).elim
  | case12 c rest hc h2 h3 h4 ih =>
    have hlen : announcedLength c = 0 := by
      rw [announcedLength_eq_bits, if_neg hc, if_neg h2, if_neg h3, if_neg h4]
    refine .reject (not_ascii_iff.mp hc) (fun p hp => ?_) ih
    cases p with
    | nil => rfl
    | cons b q =>
      rw [(List.cons_prefix_cons.mp hp).1, isChunk, hlen]
      rfl

/-- A chunk in front is copied. -/
lemma sanitizeUtf8String_chunk {p : List UInt8} (hp : isChunk p = true) (s : List UInt8) :
    sanitizeUtf8String (p ++ s) = p ++ sanitizeUtf8String s := by
  match p with
  | [] => exact absurd hp (by simp [isChunk])
  | [b] =>
    rw [isChunk_iff] at hp
    simp only [List.length_nil] at hp
    omega
  | [b, c₁] | [b, c₁, c₂] | [b, c₁, c₂, c₃] =>
    obtain ⟨-, hlen, hcont⟩ := isChunk_iff.mp hp
    simp only [List.length_cons, List.length_nil, announcedLength_eq_bits] at hlen
    -- The announced length tells which of the loop's tests is the one that holds.
    split_ifs at hlen <;> try omega
    rw [sanitizeUtf8String.eq_def]
    simp_all [hasContinuationBits_eq]
  | b :: c₁ :: c₂ :: c₃ :: c₄ :: q =>
    obtain ⟨-, hlen, -⟩ := isChunk_iff.mp hp
    simp only [announcedLength, List.length_cons] at hlen
    split_ifs at hlen <;> omega

lemma sanitizeUtf8String_ascii {b : UInt8} (hb : b ≤ 0x7F) (s : List UInt8) :
    sanitizeUtf8String (b :: s) = sanitizeAscii b :: sanitizeUtf8String s := by
  rw [sanitizeUtf8String.eq_def]
  exact if_pos (ascii_iff.mpr hb)

lemma sanitizeAscii_eq_self {b : UInt8} (h : isStrippedControl b = false) :
    sanitizeAscii b = b := by
  refine if_pos ?_
  simp only [isStrippedControl, Bool.and_eq_false_iff, decide_eq_false_iff_not, UInt8.not_lt,
    bne_eq_false_iff_eq, or_assoc] at h
  exact h

lemma sanitizeAscii_le {b : UInt8} (hb : b ≤ 0x7F) : sanitizeAscii b ≤ 0x7F := by
  rw [sanitizeAscii]
  split_ifs
  · exact hb
  · decide

@[simp]
lemma sanitizeAscii_idem (b : UInt8) : sanitizeAscii (sanitizeAscii b) = sanitizeAscii b := by
  by_cases h : b ≥ 0x20 ∨ b = 0x0A ∨ b = 0x09 ∨ b = 0x0D
  · rw [show sanitizeAscii b = b from if_pos h, show sanitizeAscii b = b from if_pos h]
  · rw [show sanitizeAscii b = 0x20 from if_neg h]
    decide

/-- An ASCII byte in front changes nothing. -/
lemma wellFormed_ascii_cons {b : UInt8} (hb : b ≤ 0x7F) (s : List UInt8) :
    WellFormed (b :: s) ↔ WellFormed s :=
  wellFormed_character_append (p := [b]) (by simpa [isCharacter] using hb) s

namespace Sanitizes

variable {s t : List UInt8}

/-- A byte at which no lax chunk starts can be left out. -/
theorem noLaxChunk_cons_iff {b : UInt8} (hno : ∀ l, l <+: b :: s → isLaxChunk l = false) :
    (∀ l, l <:+: b :: s → isLaxChunk l = false) ↔ ∀ l, l <:+: s → isLaxChunk l = false := by
  constructor
  · intro hlax l hl
    exact hlax l (hl.trans (List.suffix_cons b s).isInfix)
  · intro hlax l hl
    rcases List.infix_cons_iff.mp hl with hpre | hinf
    · exact hno l hpre
    · exact hlax l hinf

/-- So can a character. -/
theorem noLaxChunk_append_iff {p : List UInt8} (hp : isChunk p = true)
    (hchar : isCharacter p = true) :
    (∀ l, l <:+: p ++ s → isLaxChunk l = false) ↔ ∀ l, l <:+: s → isLaxChunk l = false := by
  constructor
  · intro hlax l hl
    exact hlax l (hl.trans (List.suffix_append p s).isInfix)
  · intro hlax l hl
    by_contra hl'
    rw [Bool.not_eq_false] at hl'
    rcases (isLaxChunk_infix_append hp hl').mp hl with rfl | hinf
    · rw [(isLaxChunk_iff.mp hl').2] at hchar
      exact Bool.false_ne_true hchar
    · rw [hlax l hinf] at hl'
      exact Bool.false_ne_true hl'

/-- The output is strict UTF-8 exactly when no lax chunk stands in the input. -/
theorem wellFormed_iff (h : Sanitizes s t) :
    WellFormed t ↔ ∀ l, l <:+: s → isLaxChunk l = false := by
  induction h with
  | nil => simp [isLaxChunk]
  | @ascii b s t hb h ih =>
    rw [wellFormed_ascii_cons (sanitizeAscii_le hb), ih]
    -- No lax chunk starts at an ASCII byte.
    have hb' : b ≤ 0xBF := UInt8.le_trans hb (by decide)
    refine (noLaxChunk_cons_iff fun l hpre => ?_).symm
    cases l with
    | nil => rfl
    | cons a l =>
      rw [(List.cons_prefix_cons.mp hpre).1]
      exact not_isLaxChunk_cons hb' l
  | @chunk p s t hp h ih =>
    cases hchar : isCharacter p with
    | true => rw [wellFormed_character_append hchar, ih, noLaxChunk_append_iff hp hchar]
    | false =>
      -- The chunk is lax itself, and the loop has copied it.
      have hlaxp : isLaxChunk p = true := isLaxChunk_iff.mpr ⟨hp, hchar⟩
      refine iff_of_false ?_ fun hlax => ?_
      · cases p with
        | nil => exact absurd hp (by simp [isChunk])
        | cons b q => exact not_wellFormed_append (isChunk_iff.mp hp).2.1 hchar t
      · rw [hlax p (List.prefix_append p s).isInfix] at hlaxp
        exact Bool.false_ne_true hlaxp
  | @reject b s t hb hno h ih =>
    rw [wellFormed_ascii_cons (by decide), ih]
    refine (noLaxChunk_cons_iff fun l hpre => ?_).symm
    by_contra hl'
    rw [Bool.not_eq_false, isLaxChunk_iff, hno l hpre] at hl'
    exact Bool.false_ne_true hl'.1

/-- Well-formed text without control characters is its own output. -/
theorem eq_of_wellFormed (h : Sanitizes s t) (hs : WellFormed s)
    (hctrl : ∀ b ∈ s, isStrippedControl b = false) : t = s := by
  induction h with
  | nil => rfl
  | @ascii b s t hb h ih =>
    rw [ih ((wellFormed_ascii_cons hb s).mp hs) fun c hc => hctrl c (List.mem_cons_of_mem b hc),
      sanitizeAscii_eq_self (hctrl b List.mem_cons_self)]
  | @chunk p s t hp h ih =>
    have hchar : isCharacter p = true := by
      by_contra hchar
      rw [Bool.not_eq_true] at hchar
      cases p with
      | nil => exact absurd hp (by simp [isChunk])
      | cons b q => exact not_wellFormed_append (isChunk_iff.mp hp).2.1 hchar s hs
    rw [ih ((wellFormed_character_append hchar s).mp hs)
      fun c hc => hctrl c (List.mem_append_right p hc)]
  | @reject b s t hb hno h ih =>
    -- The character at the head of well-formed text would be a chunk.
    obtain ⟨p, hp, hpre⟩ := exists_character_of_wellFormed hs
    exact absurd (isChunk_of_isCharacter hb hp) (by rw [hno _ hpre]; exact Bool.false_ne_true)

/-- An output is left alone by a second pass. -/
theorem sanitize_output (h : Sanitizes s t) : sanitizeUtf8String t = t := by
  induction h with
  | nil => rfl
  | ascii hb h ih => rw [sanitizeUtf8String_ascii (sanitizeAscii_le hb), sanitizeAscii_idem, ih]
  | chunk hp h ih => rw [sanitizeUtf8String_chunk hp, ih]
  | reject hb hno h ih =>
    rw [sanitizeUtf8String_ascii (by decide), ih]
    rfl

end Sanitizes

/-- The output of `sanitize_utf8_string` is strict UTF-8, well-formed text without control
characters is left alone and a second pass changes nothing, exactly when no lax chunk stands in
the input; only the first of the three can fail. -/
theorem sanitizeUtf8String_wellFormed_iff (s : List UInt8) :
    (WellFormed (sanitizeUtf8String s) ∧
        (WellFormed s → (∀ b ∈ s, isStrippedControl b = false) → sanitizeUtf8String s = s) ∧
        sanitizeUtf8String (sanitizeUtf8String s) = sanitizeUtf8String s ↔
      ∀ l, l <:+: s → isLaxChunk l = false) ∧
    (WellFormed s → (∀ b ∈ s, isStrippedControl b = false) → sanitizeUtf8String s = s) ∧
    sanitizeUtf8String (sanitizeUtf8String s) = sanitizeUtf8String s := by
  have hrun := sanitizes_sanitizeUtf8String s
  have hident := hrun.eq_of_wellFormed
  have hidem := hrun.sanitize_output
  refine ⟨?_, hident, hidem⟩
  rw [← hrun.wellFormed_iff]
  exact ⟨fun h => h.1, fun h => ⟨h, hident, hidem⟩⟩

/-- The overlong form `C0 80` passes through and is not UTF-8. -/
theorem overlongNul_not_wellFormed : ¬ WellFormed (sanitizeUtf8String [0xC0, 0x80]) := by
  rw [show sanitizeUtf8String [0xC0, 0x80] = [0xC0, 0x80] ++ [] by decide]
  exact not_wellFormed_append (by decide) (by decide) []

end Lace.LLM
