import Mathlib.Data.List.DropRight
import Mathlib.Data.List.Basic
import Mathlib.Tactic.ByContra
import Lace.Library.Strip

/-!
# Configured entry points

The roots that an analyst configures are compared with function names by their cores.
`normalizeCore` takes the signature and the namespace off a name, makes it lower case, and strips
the prefixes of system calls and then underscores. The scan for the entries of the standard thread
APIs has a copy of it, `normCore`, without the step for the namespace.

A name is a list of characters here.

## Main definitions

* `normalizeCore`, `normCore`: the two normalizations;
* `Config.load`, `Config.isMatch`: the configuration and `manualentry::matches`;
* `scanSeeds`: the functions from which the entry scan starts.

## Main results

* `normalizeCore_idem_iff`: when a core is its own core;
* `normCore_eq_iff`: when the copy gives the same core;
* `canonical_iff`: both, and the functions that a configured root matches.
-/

namespace Lace.ManualEntry

open Library

/-- Names are compared by their characters. -/
local instance lawfulBEqName : LawfulBEq (List Char) := inferInstance

/-! ### The normalizations -/

/-- `kPrefixes`. -/
def kPrefixes : List (List Char) :=
  ["__x64_sys_", "__x32_sys_", "__ia32_sys_", "__arm64_sys_", "__arm_sys_", "__mips_sys_",
    "__riscv_sys_", "__s390x_sys_", "__s390_sys_", "__powerpc64_sys_", "__powerpc_sys_",
    "__se_compat_sys_", "__se_sys_", "__do_compat_sys_", "__do_sys_", "__sys_", "compat_sys_",
    "sys_", "syscall_"].map String.toList

/-- `kPfx`, the copy of `normCore`. -/
def kPfx : List (List Char) :=
  ["__x64_sys_", "__x32_sys_", "__ia32_sys_", "__arm64_sys_", "__arm_sys_", "__mips_sys_",
    "__riscv_sys_", "__s390x_sys_", "__s390_sys_", "__powerpc64_sys_", "__powerpc_sys_",
    "__se_compat_sys_", "__se_sys_", "__do_compat_sys_", "__do_sys_", "__sys_", "compat_sys_",
    "sys_", "syscall_"].map String.toList

theorem nil_notMem_kPrefixes : [] ∉ kPrefixes := by decide

theorem nil_notMem_kPfx : [] ∉ kPfx := by decide

/-- The name up to the first parenthesis. -/
def cutSignature (n : List Char) : List Char := n.takeWhile (· ≠ '(')

/-- The name behind the last `::`. -/
def cutNamespace (n : List Char) : List Char := (afterLast "::".toList n).getD n

/-- `std::tolower` of every character, in the C locale. -/
def toLower (n : List Char) : List Char := n.map Char.toLower

/-- The last loop: the name without the underscores in front. -/
def trimUnderscores (n : List Char) : List Char := n.dropWhile (· = '_')

/-- `manualentry::normalizeCore`: the core of a name, in which all spellings of one entry should
agree. -/
def normalizeCore (n : List Char) : List Char :=
  trimUnderscores
    (stripAll kPrefixes nil_notMem_kPrefixes (toLower (cutNamespace (cutSignature n))))

/-- `normCore` of `getStandardThreadApiEntryInfos`. -/
def normCore (n : List Char) : List Char :=
  trimUnderscores (stripAll kPfx nil_notMem_kPfx (toLower (cutSignature n)))

/-! ### The configuration -/

/-- The characters that `trim` takes off. -/
def isBlank (c : Char) : Bool := c ∈ [' ', '\t', '\r', '\n']

/-- `detail::trim`: the text without the blanks around it. -/
def trim (s : List Char) : List Char := (s.dropWhile isBlank).rdropWhile isBlank

/-- The token or the line is empty, or a comment. -/
def isSkipped (t : List Char) : Bool := t.isEmpty || t.head? = some '#'

/-- `detail::splitInto`: the tokens between commas and slashes. -/
def splitInto (raw : List Char) : List (List Char) :=
  (((raw.map fun ch => if ch = '/' then ',' else ch).splitOn ',').map trim).filter
    fun t => !isSkipped t

/-- `manualentry::Config`: what the user declared about the entries. -/
structure Config where
  /-- `enabled`. -/
  enabled : Bool
  /-- `selfRace`. -/
  selfRace : Bool
  /-- `roots`. -/
  roots : List (List Char)
  /-- `cores`. -/
  cores : List (List Char)
  deriving DecidableEq, Repr

/-- `detail::load`, from the lines of the file `LACE_ENTRYPOINTS_FILE`, if it is set, and the
variables `LACE_ENTRYPOINTS` and `LACE_SELF_RACE`. -/
def Config.load (file : Option (List (List Char))) (entryPoints selfRace : Option (List Char)) :
    Config :=
  let fromFile := (file.getD []).flatMap fun line =>
    if isSkipped (trim line) then [] else splitInto (trim line)
  let toks := if fromFile.isEmpty then (entryPoints.map splitInto).getD [] else fromFile
  { enabled := !toks.isEmpty
    selfRace := selfRace.any fun v =>
      trim v ∈ ["1", "true", "TRUE", "yes"].map String.toList
    roots := toks.eraseDups
    cores := toks.map normalizeCore }

/-- `manualentry::matches`: whether a function is one of the declared entries. -/
def Config.isMatch (c : Config) (fnName : List Char) : Bool :=
  if !c.enabled || fnName.isEmpty then false else normalizeCore fnName ∈ c.cores

/-- `llvm::Function`: the fields that the seeding reads. -/
structure ModuleFunction where
  /-- `getName`, empty where the function has none. -/
  name : List Char
  /-- `isDeclaration`. -/
  isDeclaration : Bool
  deriving DecidableEq, Repr

/-- The functions from which `getStandardThreadApiEntryInfos` searches the calls. -/
def scanSeeds (configuredRoots : List (List Char)) (functions : List ModuleFunction) :
    List ModuleFunction :=
  functions.filter fun F =>
    !F.isDeclaration && !F.name.isEmpty && normCore F.name ∈ configuredRoots.map normCore

/-! ### The condition -/

/-- The name in front of the signature has a namespace. -/
def Qualified (n : List Char) : Prop := "::".toList <:+: cutSignature n

/-- Behind a chain of prefixes there are underscores, then a prefix without underscores in front,
and then the rest of the name; and the underscores with the prefix are no prefix themselves. -/
def HidesPrefix (n : List Char) : Prop :=
  ∃ (ps : List (List Char)) (k : ℕ) (p x : List Char),
    (∀ q ∈ ps, q ∈ kPrefixes) ∧ p ∈ kPrefixes ∧ p.head? ≠ some '_' ∧ x ≠ [] ∧
    n = ps.flatten ++ (List.replicate (k + 1) '_' ++ (p ++ x)) ∧
    List.replicate (k + 1) '_' ++ p ∉ kPrefixes

instance (n : List Char) : Decidable (Qualified n) :=
  inferInstanceAs (Decidable (_ <:+: _))

variable {n m x : List Char}

/-! ### The steps -/

/-- Nothing but the character itself becomes a character in front of the letters. -/
theorem toLower_eq_iff {c d : Char} (hd : d.val < 65) : c.toLower = d ↔ c = d := by
  unfold Char.toLower
  split
  · rename_i hc
    have hupper : 65 ≤ c.val ∧ c.val ≤ 90 := hc
    constructor
    · rintro rfl
      have hval : c.val + 32 < 65 := hd
      grind
    · rintro rfl
      grind
  · rfl

/-- Lower case keeps the separators of namespaces. -/
theorem infix_toLower_iff : "::".toList <:+: toLower n ↔ "::".toList <:+: n := by
  constructor
  · intro h
    obtain ⟨l, hl, heq⟩ := List.infix_map_iff.mp h
    have hcolon : ∀ c : Char, c.toLower = ':' → c = ':' := fun c => (toLower_eq_iff (by decide)).mp
    have hlen : l.length = 2 := by simpa using (congrArg List.length heq).symm
    obtain ⟨a, b, rfl⟩ := List.length_eq_two.mp hlen
    -- Both characters of the separator were colons before.
    obtain ⟨ha, hb⟩ : ':' = a.toLower ∧ ':' = b.toLower := by simpa using heq
    rwa [hcolon a ha.symm, hcolon b hb.symm] at hl
  · intro h
    exact h.map Char.toLower

/-- A name that every step in front of the prefixes leaves as it is. -/
structure Plain (n : List Char) : Prop where
  /-- There is no signature. -/
  signature : '(' ∉ n
  /-- There is no namespace. -/
  qualifier : ¬"::".toList <:+: n
  /-- There are no capitals. -/
  lower : toLower n = n

/-- A suffix of a plain name is plain. -/
theorem Plain.of_suffix (h : Plain n) (hm : m <:+ n) : Plain m where
  signature hmem := h.signature (hm.mem hmem)
  qualifier hsep := h.qualifier (hsep.trans hm.isInfix)
  lower := by
    obtain ⟨l, rfl⟩ := hm
    have hlower : toLower l ++ toLower m = l ++ m := by
      rw [toLower, toLower, ← List.map_append]
      exact h.lower
    exact List.append_inj_right hlower (List.length_map _)

/-- Cutting the namespace leaves a suffix. -/
theorem cutNamespace_suffix : cutNamespace n <:+ n := by
  rw [cutNamespace]
  cases h : afterLast "::".toList n with
  | none => exact List.suffix_rfl
  | some x => exact suffix_of_afterLast h

/-- No namespace is left after the cut. -/
theorem not_infix_cutNamespace : ¬"::".toList <:+: cutNamespace n := by
  rw [cutNamespace]
  cases h : afterLast "::".toList n with
  | none => exact (afterLast_eq_none (by decide)).mp h
  | some x => exact not_infix_of_afterLast (by decide) h

/-- A name without a namespace is not cut. -/
theorem cutNamespace_eq_self (h : ¬"::".toList <:+: n) : cutNamespace n = n := by
  rw [cutNamespace, (afterLast_eq_none (by decide)).mpr h, Option.getD_none]

/-- A name without a parenthesis is not cut. -/
theorem cutSignature_of_notMem (h : '(' ∉ n) : cutSignature n = n := by
  rw [cutSignature, List.takeWhile_eq_self_iff]
  intro c hc
  rw [decide_eq_true_eq]
  exact fun hparen => h (hparen ▸ hc)

/-- No parenthesis is left after the cut. -/
theorem notMem_cutSignature : '(' ∉ cutSignature n := by
  intro h
  simpa using List.mem_takeWhile_imp h

/-- What the prefixes are stripped from is plain. -/
theorem plain_toLower_cutNamespace (n : List Char) :
    Plain (toLower (cutNamespace (cutSignature n))) where
  signature hmem := by
    obtain ⟨c, hc, hparen⟩ := List.mem_map.mp hmem
    rw [toLower_eq_iff (by decide)] at hparen
    exact notMem_cutSignature (hparen ▸ cutNamespace_suffix.mem hc)
  qualifier := by
    rw [infix_toLower_iff]
    exact not_infix_cutNamespace
  lower := by
    rw [toLower, toLower, List.map_map]
    refine List.map_congr_left fun c _ => ?_
    show c.toLower.toLower = c.toLower
    unfold Char.toLower
    grind

/-- Of a plain name only prefixes and underscores are taken off. -/
theorem normalizeCore_of_plain (h : Plain n) :
    normalizeCore n = trimUnderscores (stripAll kPrefixes nil_notMem_kPrefixes n) := by
  rw [normalizeCore, cutSignature_of_notMem h.signature, cutNamespace_eq_self h.qualifier,
    h.lower]

/-- A core is a part of the name. -/
theorem normalizeCore_suffix : normalizeCore n <:+ toLower (cutNamespace (cutSignature n)) :=
  (List.dropWhile_suffix _).trans stripAll_suffix

/-- A trimmed name starts with no underscore. -/
theorem head?_trimUnderscores : (trimUnderscores n).head? ≠ some '_' := by
  intro h
  have hfirst := List.head?_dropWhile_not (· = '_') n
  rw [trimUnderscores] at h
  rw [h] at hfirst
  simp at hfirst

/-! ### The cores of cores -/

/-- A name that does not start with an underscore loses none. -/
theorem trimUnderscores_eq_self (h : n.head? ≠ some '_') : trimUnderscores n = n := by
  cases n with
  | nil => rfl
  | cons c n => exact List.dropWhile_cons_of_neg (by simpa using h)

/-- A core is its own core exactly if no prefix can be stripped from it. -/
theorem normalizeCore_core_iff :
    normalizeCore (normalizeCore n) = normalizeCore n ↔ Bare kPrefixes (normalizeCore n) := by
  have hplain : Plain (normalizeCore n) :=
    (plain_toLower_cutNamespace n).of_suffix normalizeCore_suffix
  rw [normalizeCore_of_plain hplain]
  constructor
  · intro h
    -- Neither step makes the core shorter.
    have hsuffix : normalizeCore n <:+ stripAll kPrefixes nil_notMem_kPrefixes (normalizeCore n) := by
      conv_lhs => rw [← h]
      exact List.dropWhile_suffix _
    exact stripAll_eq_self_iff.mp (stripAll_suffix.eq_of_length_le hsuffix.length_le)
  · intro h
    rw [stripAll_of_bare h]
    exact trimUnderscores_eq_self head?_trimUnderscores

/-- No entry of the table begins another one. -/
theorem prefixFree_kPrefixes : PrefixFree kPrefixes := by decide

/-- An entry that starts with an underscore starts with two, and what follows them is no other
beginning of an entry without underscores in front than that entry. -/
theorem underscored_kPrefixes : ∀ q ∈ kPrefixes, q.head? = some '_' →
    q = '_' :: '_' :: q.drop 2 ∧ q.drop 2 ≠ [] ∧ (q.drop 2).head? ≠ some '_' ∧
      ∀ p ∈ kPrefixes, p.head? ≠ some '_' → q.drop 2 <+: p ∨ p <+: q.drop 2 → p = q.drop 2 := by
  decide

/-- Underscores in front of an entry hide it, if they do not make up an entry with it. -/
theorem bare_underscores {k : ℕ} {p : List Char} (hp : p ∈ kPrefixes) (hhead : p.head? ≠ some '_')
    (hnot : List.replicate (k + 1) '_' ++ p ∉ kPrefixes) :
    Bare kPrefixes (List.replicate (k + 1) '_' ++ (p ++ x)) := by
  intro q hq z heq
  exfalso
  have hpne : p ≠ [] := fun h => nil_notMem_kPrefixes (h ▸ hp)
  have hqne : q ≠ [] := fun h => nil_notMem_kPrefixes (h ▸ hq)
  have hqhead : q.head? = some '_' := by
    have hfirst := congrArg List.head? heq
    rw [List.head?_append_of_ne_nil _ hqne] at hfirst
    simpa [List.replicate_succ] using hfirst.symm
  obtain ⟨hq', hrest, hresthead, hsame⟩ := underscored_kPrefixes q hq hqhead
  generalize q.drop 2 = q' at hq' hrest hresthead hsame
  subst hq'
  -- The entry has two underscores, so there are exactly two in front of `p`.
  rcases k with - | - | k
  · -- One underscore: `p` would start with the second one.
    have htail : p ++ x = '_' :: (q' ++ z) := by simpa [List.replicate_succ] using heq
    apply hhead
    rw [← List.head?_append_of_ne_nil _ hpne, htail, List.head?_cons]
  · have htail : p ++ x = q' ++ z := by simpa [List.replicate_succ] using heq
    have hcomp : q' <+: p ∨ p <+: q' :=
      List.prefix_or_prefix_of_prefix (htail ▸ List.prefix_append q' z) (List.prefix_append p x)
    exact hnot (hsame p hp hhead hcomp ▸ hq)
  · -- Three underscores: the rest of the entry would start with one.
    have htail : '_' :: (List.replicate k '_' ++ (p ++ x)) = q' ++ z := by
      simpa [List.replicate_succ] using heq
    apply hresthead
    rw [← List.head?_append_of_ne_nil _ hrest, ← htail, List.head?_cons]

/-- Trimming takes off exactly the leading underscores. -/
theorem trimUnderscores_append {k : ℕ} (h : m.head? ≠ some '_') :
    trimUnderscores (List.replicate k '_' ++ m) = m := by
  rw [trimUnderscores, List.dropWhile_append_of_pos (by simp), ← trimUnderscores,
    trimUnderscores_eq_self h]

/-- The underscores that are taken off. -/
theorem exists_underscores (n : List Char) :
    ∃ k, n = List.replicate k '_' ++ trimUnderscores n := by
  refine ⟨(n.takeWhile (· = '_')).length, ?_⟩
  have hall : n.takeWhile (· = '_') = List.replicate (n.takeWhile (· = '_')).length '_' := by
    rw [List.eq_replicate_iff]
    exact ⟨rfl, fun c hc => by simpa using List.mem_takeWhile_imp hc⟩
  rw [← hall, trimUnderscores, List.takeWhile_append_dropWhile]

/-- What is left after the prefixes and the underscores starts with a prefix exactly if the name
hides one. -/
theorem not_bare_trim_iff :
    ¬Bare kPrefixes (trimUnderscores (stripAll kPrefixes nil_notMem_kPrefixes n)) ↔
      HidesPrefix n := by
  constructor
  · intro h
    obtain ⟨ps, hps, hn, hbare⟩ := exists_chain kPrefixes nil_notMem_kPrefixes n
    obtain ⟨k, hk⟩ := exists_underscores (stripAll kPrefixes nil_notMem_kPrefixes n)
    have hhead : (trimUnderscores (stripAll kPrefixes nil_notMem_kPrefixes n)).head? ≠ some '_' :=
      head?_trimUnderscores
    generalize stripAll kPrefixes nil_notMem_kPrefixes n = y at h hn hbare hk hhead
    generalize trimUnderscores y = r at h hk hhead
    subst hk
    simp only [Bare, not_forall] at h
    obtain ⟨p, hp, x, rfl, hx⟩ := h
    have hpne : p ≠ [] := fun hnil => nil_notMem_kPrefixes (hnil ▸ hp)
    rw [List.head?_append_of_ne_nil _ hpne] at hhead
    rcases k with - | k
    · -- Without underscores the prefix would have been stripped.
      exact absurd (hbare p hp x rfl) hx
    · refine ⟨ps, k, p, x, hps, hp, hhead, hx, hn, fun hmem => hx ?_⟩
      exact hbare _ hmem x (List.append_assoc _ _ _).symm
  · rintro ⟨ps, k, p, x, hps, hp, hhead, hx, rfl, hnot⟩ hbare
    have hpne : p ≠ [] := fun hnil => nil_notMem_kPrefixes (hnil ▸ hp)
    have hleft : stripAll kPrefixes nil_notMem_kPrefixes
        (ps.flatten ++ (List.replicate (k + 1) '_' ++ (p ++ x))) =
          List.replicate (k + 1) '_' ++ (p ++ x) :=
      stripAll_flatten prefixFree_kPrefixes hps (by simp) (bare_underscores hp hhead hnot)
    rw [hleft, trimUnderscores_append (by rwa [List.head?_append_of_ne_nil _ hpne])] at hbare
    exact hx (hbare p hp x rfl)

/-- A core is its own core exactly if the name hides no prefix. -/
theorem normalizeCore_idem_iff : normalizeCore (normalizeCore n) = normalizeCore n ↔
    ¬HidesPrefix (toLower (cutNamespace (cutSignature n))) := by
  rw [normalizeCore_core_iff, ← not_bare_trim_iff, not_not]
  rfl

/-! ### The copy -/

/-- What stands in front of a namespace without colons can be taken off. -/
theorem infix_of_append (hn : ':' ∉ n) (h : "::".toList <:+: n ++ m) : "::".toList <:+: m := by
  induction n with
  | nil => exact h
  | cons c n ih =>
    rw [List.mem_cons, not_or] at hn
    rw [List.cons_append, List.infix_cons_iff] at h
    rcases h with hpre | hinfix
    · exact absurd (List.cons_prefix_cons.mp hpre).1 hn.1
    · exact ih hn.2 hinfix

/-- The copy keeps a namespace. -/
theorem infix_normCore (h : Qualified n) : "::".toList <:+: normCore n := by
  have hlower : "::".toList <:+: toLower (cutSignature n) := infix_toLower_iff.mpr h
  obtain ⟨ps, hps, hn, -⟩ := exists_chain kPfx nil_notMem_kPfx (toLower (cutSignature n))
  obtain ⟨k, hk⟩ := exists_underscores (stripAll kPfx nil_notMem_kPfx (toLower (cutSignature n)))
  have htable : ∀ p ∈ kPfx, ':' ∉ p := by decide
  have hchain : ':' ∉ ps.flatten := by
    intro hmem
    obtain ⟨p, hp, hc⟩ := List.mem_flatten.mp hmem
    exact htable p (hps p hp) hc
  rw [hn] at hlower
  have hleft := infix_of_append hchain hlower
  rw [hk] at hleft
  exact infix_of_append (by simp) hleft

/-- The copy gives the same core exactly if there is no namespace. -/
theorem normCore_eq_iff : normCore n = normalizeCore n ↔ ¬Qualified n := by
  constructor
  · intro h hqualified
    have hinfix := infix_normCore hqualified
    rw [h] at hinfix
    exact ((plain_toLower_cutNamespace n).of_suffix normalizeCore_suffix).qualifier hinfix
  · intro h
    rw [normCore, normalizeCore, cutNamespace_eq_self h]
    rfl

/-! ### Configured roots -/

/-- The cores of a configuration are those of its roots. -/
theorem mem_cores_load {file : Option (List (List Char))}
    {entryPoints selfRace : Option (List Char)} :
    m ∈ (Config.load file entryPoints selfRace).cores ↔
      ∃ r ∈ (Config.load file entryPoints selfRace).roots, normalizeCore r = m := by
  simp [Config.load]

/-- A configuration with a root is enabled. -/
theorem enabled_load {file : Option (List (List Char))}
    {entryPoints selfRace : Option (List Char)}
    (h : n ∈ (Config.load file entryPoints selfRace).roots) :
    (Config.load file entryPoints selfRace).enabled = true := by
  simp only [Config.load, List.mem_eraseDups] at h ⊢
  simpa using List.ne_nil_of_mem h

/-- Without namespaces a configured root matches the same functions in the entry scan. -/
theorem mem_scanSeeds_iff {file : Option (List (List Char))}
    {entryPoints selfRace : Option (List Char)} {functions : List ModuleFunction}
    {F : ModuleFunction}
    (hroots : ∀ r ∈ (Config.load file entryPoints selfRace).roots, ¬Qualified r)
    (hF : ¬Qualified F.name) :
    F ∈ scanSeeds (Config.load file entryPoints selfRace).roots functions ↔
      F ∈ functions ∧ F.isDeclaration = false ∧
        (Config.load file entryPoints selfRace).isMatch F.name = true := by
  -- Both compare the core of the name with the cores of the roots.
  have hcores : normCore F.name ∈
      (Config.load file entryPoints selfRace).roots.map normCore ↔
        normalizeCore F.name ∈ (Config.load file entryPoints selfRace).cores := by
    rw [mem_cores_load, List.mem_map, normCore_eq_iff.mpr hF]
    refine exists_congr fun r => and_congr_right fun hr => ?_
    rw [normCore_eq_iff.mpr (hroots r hr)]
  rw [scanSeeds, List.mem_filter, Config.isMatch]
  simp only [Bool.and_eq_true, Bool.not_eq_true', decide_eq_true_eq, hcores]
  refine and_congr_right fun _ => ?_
  rw [and_assoc]
  refine and_congr_right fun _ => ?_
  constructor
  · rintro ⟨hname, hmem⟩
    obtain ⟨r, hr, -⟩ := mem_cores_load.mp hmem
    simpa [enabled_load hr, hname] using hmem
  · intro h
    split_ifs at h with hskip
    rw [Bool.or_eq_true, not_or, Bool.not_eq_true, Bool.not_eq_true] at hskip
    exact ⟨hskip.2, by simpa using h⟩

/-- A core is its own core, and the copy gives the same core, exactly if the name has no namespace
and hides no prefix; and configured roots without namespaces match the same functions in the entry
scan. -/
theorem canonical_iff (s : List Char) :
    ((normalizeCore (normalizeCore s) = normalizeCore s ∧ normCore s = normalizeCore s) ↔
      ¬Qualified s ∧ ¬HidesPrefix (toLower (cutSignature s))) ∧
    ∀ file entryPoints selfRace functions F,
      (∀ r ∈ (Config.load file entryPoints selfRace).roots, ¬Qualified r) → ¬Qualified F.name →
        (F ∈ scanSeeds (Config.load file entryPoints selfRace).roots functions ↔
          F ∈ functions ∧ F.isDeclaration = false ∧
            (Config.load file entryPoints selfRace).isMatch F.name = true) := by
  refine ⟨?_, fun _ _ _ _ _ hroots hF => mem_scanSeeds_iff hroots hF⟩
  rw [normCore_eq_iff, normalizeCore_idem_iff, and_comm]
  refine and_congr_right fun h => ?_
  rw [cutNamespace_eq_self h]

/-- The underscore in front of `__sys_` leaves a name whose core has a prefix again. -/
theorem sysSendmsg_not_canonical : ¬∀ s : List Char,
    normalizeCore (normalizeCore s) = normalizeCore s ∧ normCore s = normalizeCore s := by
  intro h
  have hidem := (h "___sys_sendmsg".toList).1
  revert hidem
  decide +kernel

/-- The root `SyS_keyctl` is found under its name in the IR. -/
theorem keyctl_scanned :
    ⟨"__x64_sys_keyctl".toList, false⟩ ∈
      scanSeeds (Config.load none (some "SyS_keyctl / poll".toList) none).roots
        [⟨"__x64_sys_keyctl".toList, false⟩] :=
  ((canonical_iff []).2 none (some "SyS_keyctl / poll".toList) none _ _ (by decide +kernel)
    (by decide +kernel)).mpr ⟨List.mem_singleton_self _, rfl, by decide +kernel⟩

end Lace.ManualEntry
