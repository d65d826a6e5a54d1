import Mathlib.Tactic.ByContra
import Lace.Library.Regex
import Lace.Library.Strip

/-!
# Looking up methods by name

A function of the IR is looked for in the CPG under its own name and under variants of it: with the
prefix of a system call exchanged or taken off, and without the suffixes that the compiler appends.
The two kinds of variants are made from the same name and not from each other.

A name is a list of characters here.

## Main definitions

* `syscallNameVariants`, `demangleVariants`, `allNameCandidates`: the variants;
* `findMethodsByName`: the lookup.

## Main results

* `mem_allNameCandidates_iff`: which decorated names have their base among the candidates.
-/

namespace Lace.CPG

open Library RegularExpression

/-- Names are compared by their characters. -/
local instance lawfulBEqName : LawfulBEq (List Char) := inferInstance

/-! ### The variants -/

/-- `\d`. -/
def digits : List Char := "0123456789".toList

/-- `\w`: the characters of an identifier. -/
def wordChars : List Char :=
  "abcdefghijklmnopqrstuvwxyzABCDEFGHIJKLMNOPQRSTUVWXYZ0123456789_".toList

/-- One suffix of `kSuffix`. -/
def suffixExpr : RegularExpression Char :=
  char '.' *
    (wordExpr "llvm.".toList * plusExpr (classExpr wordChars) +
      wordExpr "part.".toList * plusExpr (classExpr digits) +
      wordExpr "isra.".toList * plusExpr (classExpr digits) +
      wordExpr "constprop.".toList * plusExpr (classExpr digits) +
      wordExpr "cold".toList + plusExpr (classExpr digits))

/-- `kSuffix`, up to its anchor: a chain of suffixes. -/
def kSuffix : RegularExpression Char := plusExpr suffixExpr

/-- The two words of `kPrefix`. -/
def kPrefix : List (List Char) := ["__llvm.", "local_"].map String.toList

/-- The replacement of `kPrefix`, which is anchored at the start. -/
def cutPrefix (s : List Char) : List Char :=
  match kPrefix.find? fun p => p.isPrefixOf s with
  | some p => s.drop p.length
  | none => s

/-- `CPG::demangleVariants`: the names under which a method may be listed, its decorations taken
off. -/
def demangleVariants (name : List Char) : List (List Char) :=
  let s := cutEnd kSuffix name
  let p := cutPrefix s
  name :: ((if s ≠ name then [s] else []) ++ if p ≠ s then [p] else [])

/-- `kPrefixes`: the prefixes that the macros for system calls put in front of a name. -/
def kPrefixes : List (List Char) :=
  ["__x64_sys_", "__ia32_sys_", "__arm64_sys_", "__arm_sys_", "__riscv_sys_", "__powerpc_sys_",
    "__se_sys_", "__do_sys_", "SyS_", "sys_"].map String.toList

/-- `CPG::syscallNameVariants`: the names that a system call may go by. -/
def syscallNameVariants (name : List Char) : List (List Char) :=
  let base := (stripOnce kPrefixes name).getD name
  name :: ((if base ≠ name then [base] else []) ++
    (kPrefixes.map (· ++ base)).filter (· ≠ name))

/-- `CPG::allNameCandidates`: all names that a method is looked up by, each once. -/
def allNameCandidates (name : List Char) : List (List Char) :=
  (demangleVariants name).foldl (fun out v => if v ∈ out then out else out ++ [v])
    (syscallNameVariants name)

/-! ### The lookup -/

/-- `Node` of type `Method`: the fields that the lookup reads. -/
structure MethodNode where
  /-- `getName`. -/
  name : List Char
  /-- `properties["CODE"]`. -/
  code : List Char
  /-- `outCFGEdges`: the types of the nodes that they lead to. -/
  outCFG : List (List Char)
  deriving DecidableEq, Repr

/-- `isStubMethodNode`: nothing but an edge to the return. -/
def MethodNode.isStub (m : MethodNode) : Bool := m.outCFG = ["Method_return".toList]

/-- The node has a body. -/
def MethodNode.hasBody (m : MethodNode) : Bool := m.code ≠ "<empty>".toList && !m.isStub

/-- `CPG::findMethodsByName`, on the nodes of type `Method`. -/
def findMethodsByName (methodNodes : List MethodNode) (name : List Char) : List MethodNode :=
  methodNodes.filter fun m => m.name ∈ allNameCandidates name && m.hasBody

/-! ### The condition -/

/-- The chain of suffixes is not part of a longer one that reaches into the base name. -/
def WholeChain (b s : List Char) : Prop :=
  ∀ b₁ b₂, b = b₁ ++ b₂ → b₂ ++ s ∈ kSuffix.matches' → b₂ = []

variable {name b p s v : List Char}

/-! ### Membership -/

theorem mem_foldl_addNew {out vs : List (List Char)} :
    v ∈ vs.foldl (fun out v => if v ∈ out then out else out ++ [v]) out ↔ v ∈ out ∨ v ∈ vs := by
  induction vs generalizing out with
  | nil => simp
  | cons u vs ih =>
    rw [List.foldl_cons, ih]
    split_ifs with hu
    · rw [List.mem_cons]
      constructor
      · tauto
      · rintro (h | rfl | h)
        · exact Or.inl h
        · exact Or.inl hu
        · exact Or.inr h
    · simp only [List.mem_append, List.mem_cons, List.not_mem_nil, or_false, or_assoc]

theorem mem_allNameCandidates : v ∈ allNameCandidates name ↔
    v ∈ syscallNameVariants name ∨ v ∈ demangleVariants name :=
  mem_foldl_addNew

/-- The variants of a name by its prefix. -/
theorem mem_syscallNameVariants : v ∈ syscallNameVariants name ↔
    v = name ∨ v = (stripOnce kPrefixes name).getD name ∨
      ∃ q ∈ kPrefixes, v = q ++ (stripOnce kPrefixes name).getD name := by
  rw [syscallNameVariants]
  generalize (stripOnce kPrefixes name).getD name = base
  have hsecond : v ∈ (if base ≠ name then [base] else []) ↔ v = base ∧ base ≠ name := by
    split_ifs with h
    · simp [h]
    · simp [h]
  simp only [List.mem_cons, List.mem_append, hsecond, List.mem_filter, List.mem_map,
    decide_eq_true_eq]
  constructor
  · rintro (rfl | ⟨rfl, -⟩ | ⟨⟨q, hq, rfl⟩, -⟩)
    · exact Or.inl rfl
    · exact Or.inr (Or.inl rfl)
    · exact Or.inr (Or.inr ⟨q, hq, rfl⟩)
  · intro h
    -- A candidate that is left out is the name itself.
    by_cases hv : v = name
    · exact Or.inl hv
    · rcases h with rfl | rfl | ⟨q, hq, rfl⟩
      · exact Or.inl rfl
      · exact Or.inr (Or.inl ⟨rfl, hv⟩)
      · exact Or.inr (Or.inr ⟨⟨q, hq, rfl⟩, hv⟩)

/-- The variants of a name by its suffixes. -/
theorem mem_demangleVariants : v ∈ demangleVariants name ↔
    v = name ∨ v = cutEnd kSuffix name ∨ v = cutPrefix (cutEnd kSuffix name) := by
  rw [demangleVariants]
  generalize cutEnd kSuffix name = u
  generalize cutPrefix u = w
  have hsecond : v ∈ (if u ≠ name then [u] else []) ↔ v = u ∧ u ≠ name := by
    split_ifs with h
    · simp [h]
    · simp [h]
  have hthird : v ∈ (if w ≠ u then [w] else []) ↔ v = w ∧ w ≠ u := by
    split_ifs with h
    · simp [h]
    · simp [h]
  rw [List.mem_cons, List.mem_append, hsecond, hthird]
  constructor
  · tauto
  · rintro (h | rfl | rfl)
    · exact Or.inl h
    · by_cases hv : v = name
      · exact Or.inl hv
      · exact Or.inr (Or.inl ⟨rfl, hv⟩)
    · by_cases hv : v = u
      · by_cases hname : u = name
        · exact Or.inl (hv.trans hname)
        · exact Or.inr (Or.inl ⟨hv, hname⟩)
      · exact Or.inr (Or.inr ⟨rfl, hv⟩)

/-! ### Suffix chains -/

/-- A suffix starts with a dot. -/
theorem head?_suffix {t : List Char} (ht : t ∈ suffixExpr.matches') : t.head? = some '.' := by
  obtain ⟨a, rfl, b, -, rfl⟩ := Language.mem_mul.mp ht
  rfl

theorem head?_chain {t : List Char} (ht : t ∈ kSuffix.matches') : t.head? = some '.' :=
  head?_plusExpr (fun _ => head?_suffix) ht

/-- What is cut off at the end does not reach into a beginning without dots. -/
theorem prefix_cutEnd (hp : '.' ∉ p) : p <+: cutEnd kSuffix (p ++ v) := by
  obtain ⟨t, hl, ht, -⟩ := exists_cutEnd kSuffix (p ++ v)
  rcases List.prefix_or_prefix_of_prefix (List.prefix_append p v) ⟨t, hl.symm⟩ with h | ⟨r, hr⟩
  · exact h
  · -- Otherwise the match would start inside the beginning.
    have hboth : cutEnd kSuffix (p ++ v) ++ (r ++ v) = cutEnd kSuffix (p ++ v) ++ t := by
      rw [← List.append_assoc, hr, ← hl]
    have hsplit : r ++ v = t := List.append_cancel_left hboth
    rcases r with - | ⟨c, r⟩
    · rw [List.append_nil] at hr
      rw [hr]
    · rcases ht with rfl | ht
      · cases hsplit
      · have hdot := head?_chain ht
        rw [← hsplit, List.cons_append, List.head?_cons] at hdot
        exact absurd (hr ▸ List.mem_append_right _ (Option.some.inj hdot ▸ List.mem_cons_self)) hp

/-! ### Decorated names -/

/-- No prefix of a system call contains a dot, begins another one, or begins with a word of
`kPrefix`. -/
theorem kPrefixes_props : ∀ q ∈ kPrefixes, '.' ∉ q ∧ q ≠ [] ∧
    ∀ w ∈ kPrefix, ¬w <+: q ∧ ¬q <+: w := by
  decide

theorem prefixFree_kPrefixes : PrefixFree kPrefixes := by decide

/-- A name that starts with the prefix of a system call starts with no word of `kPrefix`. -/
theorem cutPrefix_of_prefix {q : List Char} (hq : q ∈ kPrefixes) (h : q <+: v) :
    cutPrefix v = v := by
  rw [cutPrefix, List.find?_eq_none.mpr]
  intro w hw hpre
  obtain ⟨-, -, hwords⟩ := kPrefixes_props q hq
  rcases List.prefix_or_prefix_of_prefix (List.isPrefixOf_iff_prefix.mp hpre) h with hwq | hqw
  · exact (hwords w hw).1 hwq
  · exact (hwords w hw).2 hqw

/-- What is cut off in front makes a name shorter, if anything is. -/
theorem length_cutPrefix_lt (h : cutPrefix v ≠ v) : (cutPrefix v).length < v.length := by
  rw [cutPrefix] at h ⊢
  split
  · rename_i w hw
    have hlen : 0 < w.length ∧ w.length ≤ v.length := by
      have hmem := List.mem_of_find?_eq_some hw
      have htest := List.find?_some hw
      have hpre := List.isPrefixOf_iff_prefix.mp htest
      refine ⟨?_, hpre.length_le⟩
      have hwords : ∀ w ∈ kPrefix, 0 < w.length := by decide
      exact hwords w hmem
    rw [List.length_drop]
    omega
  · rename_i hnone
    rw [hnone] at h
    exact absurd rfl h

/-- With a prefix in front the suffixes do not lead to the base. -/
theorem notMem_demangleVariants (hp : p ∈ kPrefixes) (hb : ¬p <+: b) :
    b ∉ demangleVariants (p ++ v) := by
  obtain ⟨hdot, -, -⟩ := kPrefixes_props p hp
  have hpre : p <+: cutEnd kSuffix (p ++ v) := prefix_cutEnd hdot
  rw [mem_demangleVariants, cutPrefix_of_prefix hp hpre]
  rintro (rfl | rfl | rfl)
  · exact hb (List.prefix_append p v)
  · exact hb hpre
  · exact hb hpre

/-- Something in front makes a name different. -/
theorem ne_append_append {q : List Char} (hq : q ≠ []) : b ≠ q ++ (b ++ s) := by
  intro h
  have hlen := congrArg List.length h
  have hpos : 0 < q.length := List.length_pos_iff.mpr hq
  rw [List.length_append, List.length_append] at hlen
  omega

/-- The prefix of a system call is taken off, if something is behind it. -/
theorem mem_syscallNameVariants_prefix (hp : p ∈ kPrefixes) :
    b ∈ syscallNameVariants (p ++ (b ++ s)) ↔ s = [] ∧ b ≠ [] := by
  have hne : ∀ q ∈ kPrefixes, q ≠ [] := fun q hq => (kPrefixes_props q hq).2.1
  by_cases hnil : b ++ s = []
  · obtain ⟨rfl, rfl⟩ := List.append_eq_nil_iff.mp hnil
    -- The prefix alone is not stripped.
    have hbare : Bare kPrefixes p := by
      rintro q hq x rfl
      have hsame := prefixFree_kPrefixes q hq _ hp (List.prefix_append q x)
      simpa using hsame
    rw [List.append_nil, List.append_nil, mem_syscallNameVariants, stripOnce_eq_none.mpr hbare]
    simp [(hne p hp).symm, hne p hp]
  · have hcancel : b = b ++ s ↔ s = [] ∧ b ≠ [] := by
      constructor
      · intro h
        have hs : s = [] := by simpa using h
        exact ⟨hs, by simpa [hs] using hnil⟩
      · rintro ⟨rfl, -⟩
        rw [List.append_nil]
    rw [mem_syscallNameVariants, stripOnce_append prefixFree_kPrefixes hp hnil, Option.getD_some,
      ← hcancel]
    constructor
    · rintro (h | h | ⟨q, hq, h⟩)
      · exact absurd h (ne_append_append (hne p hp))
      · exact h
      · exact absurd h (ne_append_append (hne q hq))
    · exact fun h => Or.inr (Or.inl h)

/-- A base without a prefix stays as it is, also with suffixes. -/
theorem stripOnce_base (hb : ∀ q ∈ kPrefixes, ¬q <+: b) (hs : ∀ c, s.head? = some c → c = '.') :
    stripOnce kPrefixes (b ++ s) = none := by
  rw [stripOnce_eq_none]
  intro q hq x hl
  exfalso
  rcases List.prefix_or_prefix_of_prefix (List.prefix_append b s) ⟨x, hl.symm⟩ with ⟨r, rfl⟩ | h
  · rw [List.append_assoc] at hl
    have hsplit := List.append_cancel_left hl
    rcases r with - | ⟨c, r⟩
    · exact hb _ hq (by simp)
    · -- The prefix would contain the dot of the first suffix.
      have hdot := hs c (by rw [hsplit]; rfl)
      exact (kPrefixes_props _ hq).1 (by simp [hdot])
  · exact hb q hq h

/-- Without a prefix in front the base is found exactly if the suffixes are a whole chain. -/
theorem mem_allNameCandidates_suffix (hb : ∀ q ∈ kPrefixes, ¬q <+: b)
    (hend : ∀ t ∈ suffixExpr.matches', ¬t <:+ b) (hs : s ∈ suffixExpr.star.matches') :
    b ∈ allNameCandidates (b ++ s) ↔ WholeChain b s := by
  rcases mem_star_iff.mp hs with rfl | hchain
  · -- Without suffixes the name is the base, in which no chain ends.
    rw [List.append_nil, mem_allNameCandidates, mem_syscallNameVariants]
    refine iff_of_true (Or.inl (Or.inl rfl)) ?_
    rintro b₁ b₂ rfl hmatch
    rw [List.append_nil] at hmatch
    obtain ⟨t, ht, hsuffix⟩ := exists_suffix_plusExpr hmatch
    exact absurd (hsuffix.trans (List.suffix_append b₁ b₂)) (hend t ht)
  · have hhead : s.head? = some '.' := head?_chain hchain
    have hsne : s ≠ [] := by
      rintro rfl
      cases hhead
    have hself : b ≠ b ++ s := by simpa using hsne
    have hstrip : stripOnce kPrefixes (b ++ s) = none :=
      stripOnce_base hb fun c hc => by simpa [hhead] using hc.symm
    have hcut : cutEnd kSuffix (b ++ s) = b ↔ WholeChain b s := cutEnd_eq_iff hchain
    rw [mem_allNameCandidates, mem_syscallNameVariants, mem_demangleVariants, hstrip,
      Option.getD_none, ← hcut]
    constructor
    · rintro ((h | h | ⟨q, hq, h⟩) | h | h | h)
      · exact absurd h hself
      · exact absurd h hself
      · exact absurd h (ne_append_append (kPrefixes_props q hq).2.1)
      · exact absurd h hself
      · exact h.symm
      · by_contra hne
        -- What is left without the suffixes is no longer than the base.
        obtain ⟨t, hl, -, hmax⟩ := exists_cutEnd kSuffix (b ++ s)
        have hle := hmax s hchain (List.suffix_append b s)
        have hlen := congrArg List.length hl
        rw [List.length_append, List.length_append] at hlen
        by_cases hsame : cutPrefix (cutEnd kSuffix (b ++ s)) = cutEnd kSuffix (b ++ s)
        · exact hne (hsame ▸ h.symm)
        · have hlt := length_cutPrefix_lt hsame
          rw [← h] at hlt
          omega
    · exact fun h => Or.inr (Or.inr (Or.inl h.symm))

/-- The base of a decorated name is among the candidates exactly if the name has no prefix, or has
no suffixes and a base, and the suffixes are a whole chain. -/
theorem mem_candidates_decorated (hp : p = [] ∨ p ∈ kPrefixes) (hb : ∀ q ∈ kPrefixes, ¬q <+: b)
    (hend : ∀ t ∈ suffixExpr.matches', ¬t <:+ b) (hs : s ∈ suffixExpr.star.matches') :
    b ∈ allNameCandidates (p ++ (b ++ s)) ↔ (p = [] ∨ s = [] ∧ b ≠ []) ∧ WholeChain b s := by
  rcases hp with rfl | hp
  · rw [List.nil_append, mem_allNameCandidates_suffix hb hend hs]
    simp
  · have hpne : p ≠ [] := (kPrefixes_props p hp).2.1
    rw [mem_allNameCandidates, mem_syscallNameVariants_prefix hp]
    constructor
    · rintro (⟨rfl, hne⟩ | h)
      · exact ⟨Or.inr ⟨rfl, hne⟩, (mem_allNameCandidates_suffix hb hend hs).mp
          (mem_allNameCandidates.mpr (Or.inl (by simp [syscallNameVariants])))⟩
      · exact absurd h (notMem_demangleVariants hp (hb p hp))
    · rintro ⟨h | h, -⟩
      · exact absurd h hpne
      · exact Or.inl h

/-- The base of a decorated name is among the candidates, and its method is found, exactly if the
name has no prefix, or has no suffixes and a base, and the suffixes are a whole chain. -/
theorem decoratedName_iff (p b s : List Char) (hp : p = [] ∨ p ∈ kPrefixes)
    (hb : ∀ q ∈ kPrefixes, ¬q <+: b) (hend : ∀ t ∈ suffixExpr.matches', ¬t <:+ b)
    (hs : s ∈ suffixExpr.star.matches') :
    (b ∈ allNameCandidates (p ++ (b ++ s)) ↔ (p = [] ∨ s = [] ∧ b ≠ []) ∧ WholeChain b s) ∧
    ∀ methodNodes, ∀ m ∈ methodNodes, m.name = b → m.hasBody = true →
      (m ∈ findMethodsByName methodNodes (p ++ (b ++ s)) ↔
        (p = [] ∨ s = [] ∧ b ≠ []) ∧ WholeChain b s) := by
  refine ⟨mem_candidates_decorated hp hb hend hs, ?_⟩
  rintro methodNodes m hm rfl hbody
  rw [← mem_candidates_decorated hp hb hend hs, findMethodsByName, List.mem_filter]
  simp [hm, hbody]

/-- A name without dots ends with no suffix. -/
theorem not_suffix_of_notMem (h : '.' ∉ b) : ∀ t ∈ suffixExpr.matches', ¬t <:+ b := by
  intro t ht hsuffix
  exact h (hsuffix.mem (List.mem_of_mem_head? (head?_suffix ht)))

theorem cold_isSuffix : ".cold".toList ∈ suffixExpr.star.matches' :=
  (rmatch_iff_matches' _ _).mp (by decide +kernel)

/-- The cold part of a system call carries both decorations, and its base is not found. -/
theorem coldRead_missed : ¬∀ p b s, (p = [] ∨ p ∈ kPrefixes) → (∀ q ∈ kPrefixes, ¬q <+: b) →
    (∀ t ∈ suffixExpr.matches', ¬t <:+ b) → s ∈ suffixExpr.star.matches' →
      b ∈ allNameCandidates (p ++ (b ++ s)) := by
  intro h
  have hmem := h "__x64_sys_".toList "read".toList ".cold".toList (by decide) (by decide)
    (not_suffix_of_notMem (by decide)) cold_isSuffix
  revert hmem
  decide +kernel

/-- The cold part of a function that is no system call is found. -/
theorem coldHandler_found : "handler".toList ∈ allNameCandidates "handler.cold".toList :=
  (decoratedName_iff [] "handler".toList ".cold".toList (Or.inl rfl) (by decide)
    (not_suffix_of_notMem (by decide)) cold_isSuffix).1.mpr ⟨Or.inl rfl, by
      intro b₁ b₂ hb hmatch
      by_contra hne
      -- A longer chain would start with a letter of the base.
      have hhead := head?_chain hmatch
      rw [List.head?_append_of_ne_nil _ hne] at hhead
      have hmem : '.' ∈ "handler".toList :=
        hb ▸ List.mem_append_right _ (List.mem_of_mem_head? hhead)
      exact absurd hmem (by decide)⟩

end Lace.CPG
