import Mathlib.Data.List.Basic
import Mathlib.Data.List.Infix
import Mathlib.Data.List.TakeWhile

/-!
# POSIX paths

A path is a sequence of names between separators, with or without a separator in front and at the
end. Its lexically normal form has no `.`, and a `..` only in front of a relative path.

## Main definitions

* `PosixPath`, `PosixPath.parse`, `PosixPath.toText`: paths and their texts;
* `PosixPath.elements`, `PosixPath.filename`: what an iteration over a path gives, and its last name;
* `PosixPath.lexicallyNormal`: the normal form.

## Main results

* `PosixPath.parse_toText`: a path can be read back;
* `PosixPath.filename_parse`: the last name of a text is what stands behind the last separator;
* `PosixPath.lexicallyNormal_idem`: the normal form is its own normal form.
-/

namespace Lace.Library

/-- A path, by its names. -/
@[ext]
structure PosixPath where
  /-- There is a separator in front. -/
  isAbsolute : Bool
  /-- The names. -/
  names : List (List Char)
  /-- There is a separator behind the last name. -/
  isDirectory : Bool
  /-- No name is empty. -/
  nil_notMem : [] ∉ names
  /-- No name contains a separator. -/
  sep_notMem : ∀ n ∈ names, '/' ∉ n
  /-- A separator behind the last name needs a name. -/
  names_ne_nil : isDirectory = true → names ≠ []
  deriving DecidableEq

namespace PosixPath

/-! ### Texts -/

section Texts

/-- No piece of a split contains the symbol that is split at. -/
theorem notMem_of_mem_splitOn {a : Char} {s n : List Char} (hn : n ∈ s.splitOn a) : a ∉ n := by
  induction s generalizing n with
  | nil =>
    rw [List.splitOn_nil, List.mem_singleton] at hn
    rw [hn]
    exact List.not_mem_nil
  | cons c s ih =>
    rw [List.splitOn_cons_eq_if_modifyHead] at hn
    split at hn
    · rcases List.mem_cons.mp hn with rfl | hn
      · exact List.not_mem_nil
      · exact ih hn
    · rename_i hc
      -- The symbol goes to the first piece.
      cases hsplit : s.splitOn a with
      | nil => exact absurd hsplit (List.splitOn_ne_nil a s)
      | cons m rest =>
        rw [hsplit] at hn ih
        rw [List.modifyHead_cons] at hn
        rcases List.mem_cons.mp hn with rfl | hn
        · have hm := ih List.mem_cons_self
          rw [List.mem_cons, not_or]
          exact ⟨fun heq => hc (by simp [heq]), hm⟩
        · exact ih (List.mem_cons_of_mem m hn)

/-- The path of a text. -/
def parse (s : List Char) : PosixPath where
  isAbsolute := s.head? = some '/'
  names := (s.splitOn '/').filter (· ≠ [])
  isDirectory := (s.splitOn '/').filter (· ≠ []) ≠ [] && (s.splitOn '/').getLast? = some []
  nil_notMem := by simp
  sep_notMem _ hn := notMem_of_mem_splitOn (List.mem_of_mem_filter hn)
  names_ne_nil h := of_decide_eq_true (Bool.and_eq_true_iff.mp h).1

variable (p : PosixPath)

/-- The names, with an empty one for a separator at the end. -/
def segments : List (List Char) := p.names ++ if p.isDirectory then [[]] else []

/-- The text of a path. -/
def toText : List Char :=
  (if p.isAbsolute then ['/'] else []) ++ ['/'].intercalate p.segments

/-- What an iteration over the path gives. -/
def elements : List (List Char) := (if p.isAbsolute then [['/']] else []) ++ p.segments

/-- The last name, empty behind a separator. -/
def filename : List Char := p.segments.getLast?.getD []

variable {p} {q : PosixPath}

/-- A segment holds no separator. -/
theorem sep_notMem_segments : ∀ n ∈ p.segments, '/' ∉ n := by
  intro n hn
  rcases List.mem_append.mp hn with hn | hn
  · exact p.sep_notMem n hn
  · split_ifs at hn
    · rw [List.mem_singleton.mp hn]
      exact List.not_mem_nil
    · cases hn

/-- A path has no segment exactly if it has no name. -/
theorem segments_eq_nil_iff : p.segments = [] ↔ p.names = [] := by
  rw [segments, List.append_eq_nil_iff]
  refine and_iff_left_of_imp fun hnames => ?_
  rw [if_neg]
  exact fun hdir => p.names_ne_nil hdir hnames

/-- The text of a path starts as its first name does. -/
theorem head?_intercalate {n : List Char} (hn : n ≠ []) (ns : List (List Char)) :
    (['/'].intercalate (n :: ns)).head? = n.head? := by
  cases ns with
  | nil => rw [List.intercalate_singleton]
  | cons m ns => rw [List.intercalate_cons_cons, List.append_assoc, List.head?_append_of_ne_nil _ hn]

/-- A relative path does not start with a separator. -/
theorem head?_intercalate_segments : (['/'].intercalate p.segments).head? ≠ some '/' := by
  cases hnames : p.names with
  | nil =>
    rw [segments_eq_nil_iff.mpr hnames]
    simp
  | cons n ns =>
    have hn : n ≠ [] := fun h => p.nil_notMem (by rw [hnames, h]; exact List.mem_cons_self)
    have hsep := p.sep_notMem n (by rw [hnames]; exact List.mem_cons_self)
    rw [segments, hnames, List.cons_append, head?_intercalate hn]
    exact fun h => hsep (List.mem_of_mem_head? h)

/-- The names are the segments that are not empty. -/
theorem filter_segments : p.segments.filter (· ≠ []) = p.names := by
  have hnames : p.names.filter (· ≠ []) = p.names := by
    rw [List.filter_eq_self]
    intro n hn
    rw [decide_eq_true_eq]
    exact fun h => p.nil_notMem (h ▸ hn)
  rw [segments, List.filter_append, hnames]
  split_ifs
  · simp
  · simp

/-- The pieces of a text. -/
theorem splitOn_toText : p.toText.splitOn '/' =
    (if p.isAbsolute then [[]] else []) ++ if p.segments = [] then [[]] else p.segments := by
  have hrest : (['/'].intercalate p.segments).splitOn '/' =
      if p.segments = [] then [[]] else p.segments := by
    split_ifs with hnil
    · rw [hnil]
      rfl
    · exact List.splitOn_intercalate '/' sep_notMem_segments hnil
  rw [toText, ← hrest]
  cases p.isAbsolute
  · rfl
  · exact List.splitOn_append_cons_self [] _

/-- A path can be read back. -/
theorem parse_toText (p : PosixPath) : parse p.toText = p := by
  -- Between the separators stand the names, and the root leaves an empty piece.
  have hpieces : (p.toText.splitOn '/').filter (· ≠ []) = p.names := by
    have hroot : (if p.isAbsolute then [[]] else [] : List (List Char)).filter (· ≠ []) = [] := by
      split_ifs <;> rfl
    rw [splitOn_toText, List.filter_append, hroot, List.nil_append]
    split_ifs with hnil
    · rw [segments_eq_nil_iff.mp hnil]
      rfl
    · exact filter_segments
  ext1
  · show decide (p.toText.head? = some '/') = p.isAbsolute
    rw [toText]
    cases p.isAbsolute
    · exact decide_eq_false head?_intercalate_segments
    · rfl
  · exact hpieces
  · show (decide ((p.toText.splitOn '/').filter (· ≠ []) ≠ []) &&
      decide ((p.toText.splitOn '/').getLast? = some [])) = p.isDirectory
    rw [hpieces, splitOn_toText]
    by_cases hnames : p.names = []
    · -- Without names there is no separator at the end.
      cases hdir : p.isDirectory
      · simp [hnames]
      · exact absurd hnames (p.names_ne_nil hdir)
    · have hne : p.segments ≠ [] := fun h => hnames (segments_eq_nil_iff.mp h)
      rw [if_neg hne, List.getLast?_append_of_ne_nil _ hne, segments]
      cases hdir : p.isDirectory
      · -- The last name is not empty.
        have hlast : p.names.getLast? ≠ some [] := fun h =>
          p.nil_notMem (List.mem_of_getLast? h)
        simp [hlast]
      · simp [hnames]

/-- Paths with the same last element have the same last name. -/
theorem filename_eq_of_getLast? (h : p.elements.getLast? = q.elements.getLast?) :
    p.filename = q.filename := by
  have hlast : ∀ r : PosixPath, r.elements.getLast? =
      if r.segments = [] then if r.isAbsolute then some ['/'] else none
      else r.segments.getLast? := by
    intro r
    rw [elements]
    by_cases hnil : r.segments = []
    · rw [if_pos hnil, hnil, List.append_nil]
      cases r.isAbsolute <;> rfl
    · rw [if_neg hnil]
      exact List.getLast?_append_of_ne_nil _ hnil
  -- The root is no name, since no name contains a separator.
  have hroot : ∀ r : PosixPath, r.segments.getLast? ≠ some ['/'] := fun r hr =>
    sep_notMem_segments _ (List.mem_of_getLast? hr) List.mem_cons_self
  rw [hlast, hlast] at h
  rw [filename, filename]
  by_cases hp : p.segments = []
  · by_cases hq : q.segments = []
    · rw [hp, hq]
    · rw [if_pos hp, if_neg hq] at h
      split_ifs at h
      · exact absurd h.symm (hroot q)
      · exact absurd (List.getLast?_eq_none_iff.mp h.symm) hq
  · by_cases hq : q.segments = []
    · rw [if_neg hp, if_pos hq] at h
      split_ifs at h
      · exact absurd h (hroot p)
      · exact absurd (List.getLast?_eq_none_iff.mp h) hp
    · rw [if_neg hp, if_neg hq] at h
      rw [h]

/-- The piece behind the last separator. -/
theorem getLast?_splitOn (a : Char) (s : List Char) :
    (s.splitOn a).getLast? = some (s.reverse.takeWhile (· ≠ a)).reverse := by
  have hfree : a ∉ (s.reverse.takeWhile (· ≠ a)).reverse := by
    intro h
    simpa using List.mem_takeWhile_imp (List.mem_reverse.mp h)
  have hs : s = (s.reverse.dropWhile (· ≠ a)).reverse ++ (s.reverse.takeWhile (· ≠ a)).reverse := by
    rw [← List.reverse_append, List.takeWhile_append_dropWhile, List.reverse_reverse]
  generalize (s.reverse.takeWhile (· ≠ a)).reverse = last at hfree hs ⊢
  cases hrest : s.reverse.dropWhile (· ≠ a) with
  | nil =>
    rw [hrest, List.reverse_nil, List.nil_append] at hs
    rw [hs, List.splitOn_eq_singleton hfree]
    rfl
  | cons c rest =>
    -- What is dropped ends with the separator.
    have hc : c = a := by
      have := List.head?_dropWhile_not (· ≠ a) s.reverse
      rw [hrest] at this
      simpa using this
    rw [hrest, List.reverse_cons, hc, List.append_assoc, List.singleton_append] at hs
    rw [hs, List.splitOn_append_cons_self, List.splitOn_eq_singleton hfree, List.getLast?_concat]

/-- The last name of the path of a text is what stands behind the last separator. -/
theorem filename_parse (s : List Char) :
    (parse s).filename = (s.reverse.takeWhile (· ≠ '/')).reverse := by
  have hlast := getLast?_splitOn '/' s
  generalize (s.reverse.takeWhile (· ≠ '/')).reverse = last at hlast
  rw [filename, segments]
  by_cases hnil : last = []
  · subst hnil
    -- The path is a directory, or has no names.
    by_cases hnames : (parse s).names = []
    · have hdir : (parse s).isDirectory = false :=
        Bool.eq_false_iff.mpr fun h => (parse s).names_ne_nil h hnames
      rw [hnames, hdir]
      rfl
    · have hdir : (parse s).isDirectory = true := by
        rw [parse, Bool.and_eq_true]
        exact ⟨decide_eq_true hnames, decide_eq_true hlast⟩
      rw [hdir, if_pos rfl, List.getLast?_concat]
      rfl
  · have hdir : (parse s).isDirectory = false := by
      simp [parse, hlast, hnil]
    rw [hdir]
    obtain ⟨init, hinit⟩ := List.getLast?_eq_some_iff.mp hlast
    simp [parse, hinit, hnil]

end Texts

/-! ### The normal form -/

section Normal

/-- The name of the directory itself. -/
def dot : List Char := ['.']

/-- The name of the directory above. -/
def dotdot : List Char := ['.', '.']

/-- Go up: drop the last name, which comes first. -/
def up (isAbsolute : Bool) : List (List Char) → List (List Char)
  | [] => if isAbsolute then [] else [dotdot]
  | top :: rest => if top = dotdot then dotdot :: top :: rest else rest

/-- Enter a name. -/
def push (isAbsolute : Bool) (stack : List (List Char)) (n : List Char) : List (List Char) :=
  if n = dot then stack else if n = dotdot then up isAbsolute stack else n :: stack

variable {isAbsolute : Bool} {n : List Char} {ns st : List (List Char)}

/-- Going up leaves earlier names, or adds a step up. -/
theorem mem_up (h : n ∈ up isAbsolute st) : n = dotdot ∨ n ∈ st := by
  cases st with
  | nil =>
    rw [up] at h
    split_ifs at h
    · cases h
    · exact Or.inl (List.mem_singleton.mp h)
  | cons top rest =>
    rw [up] at h
    split_ifs at h
    · exact List.mem_cons.mp h
    · exact Or.inr (List.mem_cons_of_mem top h)

/-- Nothing but names of the path and `..` is left. -/
theorem mem_foldl_push (h : n ∈ ns.foldl (push isAbsolute) st) :
    n = dotdot ∨ n ∈ st ∨ n ∈ ns := by
  induction ns generalizing st with
  | nil => exact Or.inr (Or.inl h)
  | cons m ns ih =>
    rcases ih h with h | h | h
    · exact Or.inl h
    · rw [push] at h
      split_ifs at h
      · exact Or.inr (Or.inl h)
      · exact (mem_up h).imp_right Or.inl
      · rcases List.mem_cons.mp h with rfl | h
        · exact Or.inr (Or.inr List.mem_cons_self)
        · exact Or.inr (Or.inl h)
    · exact Or.inr (Or.inr (List.mem_cons_of_mem m h))

/-- A name that is not special. -/
def IsProper (n : List Char) : Prop := n ≠ dot ∧ n ≠ dotdot

/-- Proper names behind `..`, which a path from the root does not have. -/
def InForm (isAbsolute : Bool) (st : List (List Char)) : Prop :=
  ∃ proper k, st = proper ++ List.replicate k dotdot ∧ (∀ n ∈ proper, IsProper n) ∧
    (isAbsolute = true → k = 0)

/-- A proper name is put on the stack. -/
theorem push_of_isProper (h : IsProper n) : push isAbsolute st n = n :: st := by
  rw [push, if_neg h.1, if_neg h.2]

/-- Going up keeps the normal form. -/
theorem InForm.up (h : InForm isAbsolute st) : InForm isAbsolute (up isAbsolute st) := by
  obtain ⟨proper, k, rfl, hproper, habs⟩ := h
  rcases proper with - | ⟨top, rest⟩
  · rcases k with - | k
    · -- Above the root there is nothing.
      cases isAbsolute
      · exact ⟨[], 1, rfl, by simp, nofun⟩
      · exact ⟨[], 0, rfl, by simp, fun _ => rfl⟩
    · exact ⟨[], k + 2, rfl, by simp, fun h => absurd (habs h) (Nat.succ_ne_zero k)⟩
  · obtain ⟨htop, hrest⟩ := List.forall_mem_cons.mp hproper
    rw [List.cons_append, PosixPath.up, if_neg htop.2]
    exact ⟨rest, k, rfl, hrest, habs⟩

/-- Reading one name keeps the normal form. -/
theorem InForm.push (h : InForm isAbsolute st) (n : List Char) :
    InForm isAbsolute (push isAbsolute st n) := by
  rw [PosixPath.push]
  split_ifs with hdot hdotdot
  · exact h
  · exact h.up
  · obtain ⟨proper, k, rfl, hproper, habs⟩ := h
    exact ⟨n :: proper, k, rfl, List.forall_mem_cons.mpr ⟨⟨hdot, hdotdot⟩, hproper⟩, habs⟩

/-- Reading all names keeps the normal form. -/
theorem InForm.foldl_push (h : InForm isAbsolute st) (ns : List (List Char)) :
    InForm isAbsolute (ns.foldl (PosixPath.push isAbsolute) st) := by
  induction ns generalizing st with
  | nil => exact h
  | cons n ns ih => exact ih (h.push n)

/-- Proper names are all entered. -/
theorem foldl_push_proper (h : ∀ n ∈ ns, IsProper n) :
    ns.foldl (push isAbsolute) st = ns.reverse ++ st := by
  induction ns generalizing st with
  | nil => rfl
  | cons n ns ih =>
    obtain ⟨hn, hns⟩ := List.forall_mem_cons.mp h
    rw [List.foldl_cons, push_of_isProper hn, ih hns]
    simp

/-- So are the `..` in front of a relative path. -/
theorem foldl_push_dotdot (j k : ℕ) :
    (List.replicate k dotdot).foldl (push false) (List.replicate j dotdot) =
      List.replicate (j + k) dotdot := by
  induction k generalizing j with
  | zero => rfl
  | succ k ih =>
    have hpush : push false (List.replicate j dotdot) dotdot = List.replicate (j + 1) dotdot := by
      cases j <;> rfl
    rw [List.replicate_succ, List.foldl_cons, hpush, ih]
    congr 1
    omega

/-- What is in form is entered as it is. -/
theorem InForm.foldl_reverse (h : InForm isAbsolute st) :
    st.reverse.foldl (PosixPath.push isAbsolute) [] = st := by
  obtain ⟨proper, k, rfl, hproper, habs⟩ := h
  have hfront : (List.replicate k dotdot).foldl (PosixPath.push isAbsolute) [] =
      List.replicate k dotdot := by
    cases isAbsolute
    · simpa using foldl_push_dotdot 0 k
    · rw [habs rfl]
      rfl
  rw [List.reverse_append, List.reverse_replicate, List.foldl_append, hfront,
    foldl_push_proper fun n hn => hproper n (List.mem_reverse.mp hn), List.reverse_reverse]

variable (p : PosixPath)

/-- The names that are left, the last one first. -/
def stack : List (List Char) := p.names.foldl (push p.isAbsolute) []

/-- The normal form. A path with nothing left is the directory itself; a path that ends with a
special name is a directory, unless it goes up only. -/
def lexicallyNormal : PosixPath :=
  if p.stack = [] ∧ p.isAbsolute = false ∧ p.names ≠ [] then
    { isAbsolute := false
      names := [dot]
      isDirectory := false
      nil_notMem := by decide
      sep_notMem := by decide
      names_ne_nil := nofun }
  else
    { isAbsolute := p.isAbsolute
      names := p.stack.reverse
      isDirectory := (p.isDirectory || p.names.getLast? ∈ [some dot, some dotdot]) &&
        p.stack.head?.any (· ≠ dotdot)
      nil_notMem := by
        intro h
        rcases mem_foldl_push (List.mem_reverse.mp h) with h | h | h
        · cases h
        · cases h
        · exact p.nil_notMem h
      sep_notMem := by
        intro n h
        rcases mem_foldl_push (List.mem_reverse.mp h) with rfl | h | h
        · decide
        · cases h
        · exact p.sep_notMem n h
      names_ne_nil := by
        intro h hnil
        rw [List.reverse_eq_nil_iff.mp hnil] at h
        simp at h }

variable {p}

/-- What is left of a path is in normal form. -/
theorem inForm_stack : InForm p.isAbsolute p.stack :=
  InForm.foldl_push ⟨[], 0, rfl, by simp, fun _ => rfl⟩ p.names

/-- The directory itself is never left. -/
theorem head?_stack_ne : p.stack.head? ≠ some dot := by
  obtain ⟨proper, k, hst, hproper, -⟩ := inForm_stack (p := p)
  rw [hst]
  rcases proper with - | ⟨top, rest⟩
  · cases k with
    | zero => nofun
    | succ k =>
      rw [List.nil_append, List.replicate_succ, List.head?_cons]
      decide
  · rw [List.cons_append, List.head?_cons]
    exact fun h => (hproper top List.mem_cons_self).1 (Option.some.inj h)

/-- A path whose names are left as they are, and that is no directory behind `..`, is normal. -/
theorem lexicallyNormal_eq_self (hstack : p.stack = p.names.reverse)
    (hdir : p.names.getLast? = some dotdot → p.isDirectory = false) : p.lexicallyNormal = p := by
  have hlast : p.names.getLast? = p.stack.head? := by rw [hstack, List.head?_reverse]
  have hcond : ¬(p.stack = [] ∧ p.isAbsolute = false ∧ p.names ≠ []) := by
    rintro ⟨hnil, -, hne⟩
    exact hne (List.reverse_eq_nil_iff.mp (hstack ▸ hnil))
  rw [lexicallyNormal, if_neg hcond]
  ext1
  · rfl
  · show p.stack.reverse = p.names
    rw [hstack, List.reverse_reverse]
  · show ((p.isDirectory || decide (p.names.getLast? ∈ [some dot, some dotdot])) &&
      p.stack.head?.any (· ≠ dotdot)) = p.isDirectory
    rw [← hlast]
    cases htop : p.names.getLast? with
    | none =>
      -- Without names the path is no directory.
      cases hp : p.isDirectory
      · rfl
      · exact absurd (List.getLast?_eq_none_iff.mp htop) (p.names_ne_nil hp)
    | some n =>
      have hdot : n ≠ dot := by
        rintro rfl
        exact head?_stack_ne (hlast ▸ htop)
      by_cases hdotdot : n = dotdot
      · subst hdotdot
        rw [hdir htop]
        rfl
      · simp [hdot, hdotdot]

/-- The normal form is its own normal form. -/
theorem lexicallyNormal_idem : p.lexicallyNormal.lexicallyNormal = p.lexicallyNormal := by
  by_cases hcond : p.stack = [] ∧ p.isAbsolute = false ∧ p.names ≠ []
  · -- The path is the directory itself.
    have hdot : p.lexicallyNormal.names = [dot] ∧ p.lexicallyNormal.isAbsolute = false ∧
        p.lexicallyNormal.isDirectory = false := by
      rw [lexicallyNormal, if_pos hcond]
      exact ⟨rfl, rfl, rfl⟩
    obtain ⟨hnames, habs, hdir⟩ := hdot
    generalize p.lexicallyNormal = q at hnames habs hdir
    have hq : q.stack = [] ∧ q.isAbsolute = false ∧ q.names ≠ [] := by
      refine ⟨?_, habs, by simp [hnames]⟩
      rw [stack, hnames]
      rfl
    rw [lexicallyNormal, if_pos hq]
    ext1
    · exact habs.symm
    · exact hnames.symm
    · exact hdir.symm
  · apply lexicallyNormal_eq_self
    · rw [lexicallyNormal, if_neg hcond, stack]
      dsimp only
      rw [inForm_stack.foldl_reverse, List.reverse_reverse]
    · rw [lexicallyNormal, if_neg hcond]
      dsimp only
      intro hlast
      rw [List.getLast?_reverse] at hlast
      rw [hlast]
      simp

end Normal

end PosixPath

end Lace.Library
