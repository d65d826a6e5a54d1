import Mathlib
import Lace.CPG.ConfigDefines
import Lace.Library.Lines

/-!
# The cache of the code property graph

`generateCPG` lets Joern draw the graph and writes a manifest of what it was drawn from, as its last
step. A later call uses the graph as it is if the manifest still is the same. A call may fail or be
killed at any point, and may leave a step half done.

## Main definitions

* `sourceManifest`: the manifest;
* `generateCPG`: the steps of a call on the output directory;
* `Leaves`: what the steps of a call may leave there, if it does not come to its end;
* `Runs`: what calls one after the other leave;
* `SameInputs`: there is no difference between what two graphs are drawn from.

## Main results

* `sourceManifest_eq_of_prefix`, `sourceManifest_eq_iff`: the manifest tells what a graph is drawn
  from, also if it breaks off;
* `exists_drawn_of_cached`: a graph that is used again was drawn in an earlier call, from the same
  inputs;
* `cached_iff_sameInputs`: it is used again as long as they are the same.
-/

namespace Lace.CPG

open Library

/-- What a call finds. -/
structure Environment extends SourceTree where
  /-- `LACE_CPG_FUZZY` is set. -/
  isFuzzy : Bool := false

/-! ### The manifest -/

/-- Lines in an output stream. -/
def text (lines : List String) : String := String.join (lines.map fun line => line ++ "\n")

namespace SourceFile

/-- `row`: the line for a source, by which a changed file is noticed. -/
def row (f : SourceFile) : String := f.rel ++ "\t" ++ toString f.size ++ "\t" ++ toString f.ticks

/-- What the row tells. -/
def key (f : SourceFile) : String × ℕ × ℤ := (f.rel, f.size, f.ticks)

end SourceFile

/-- `buildSourceManifest`: the sources of a case, one on a line, sorted. -/
def buildSourceManifest (tree : SourceTree) : String :=
  match tree.files with
  | none => ""
  | some _ =>
    text (("source_dir=" ++ tree.absSourceDir) ::
      (tree.sourceFiles.map SourceFile.row).insertionSort (· ≤ ·))

/-- A macro with its value. -/
def configRow (m : Sigma fun _ : List Char => List Char) : String :=
  String.ofList m.1 ++ "=" ++ String.ofList m.2

/-- `renderConfigManifest`: the configuration that the sources were parsed with, sorted. -/
def renderConfigManifest (defines : Defines) : String :=
  let rows := (defines.entries.map configRow).insertionSort (· ≤ ·)
  text (("config_defines=" ++ toString rows.length) :: rows)

namespace Environment

variable (env : Environment)

/-- `modeTag`: a graph that was parsed in fuzzy mode is of no use to the other mode. -/
def modeTag : String := if env.isFuzzy then "cpg_define_mode=fuzzy\n" else ""

/-- `sourceManifest`: what is stored beside the graph, and compared before it is used again. -/
def sourceManifest : String :=
  env.modeTag ++ buildSourceManifest env.toSourceTree ++
    renderConfigManifest env.compileConfigDefines

end Environment

/-! ### The output directory -/

section Disk

variable {Dot : Type*}

/-- The output directory. Without it there are no files. -/
structure Disk (Dot : Type*) where
  /-- `export.dot`. -/
  dot : Option Dot := none
  /-- `.lace_cpg_manifest.txt`. -/
  manifest : Option String := none

/-- A step that changes the output directory. -/
inductive Op (Dot : Type*)
  /-- `fs::remove_all`. -/
  | removeAll
  /-- The command `joern-export`, with the graph that it leaves. -/
  | draw (dot : Option Dot)
  /-- `writeTextFile`, for the manifest. -/
  | writeTextFile (content : String)

/-- A step that comes to its end. -/
def Op.run (disk : Disk Dot) : Op Dot → Disk Dot
  | .removeAll => {}
  | .draw dot => { disk with dot := dot }
  | .writeTextFile content => { disk with manifest := some content }

/-- What a step may leave if it does not come to its end. -/
inductive Op.Torn (disk : Disk Dot) : Op Dot → Disk Dot → Prop
  /-- Some files are left. -/
  | removeAll (keepsDot keepsManifest : Bool) :
    Torn disk .removeAll
      { dot := if keepsDot then disk.dot else none
        manifest := if keepsManifest then disk.manifest else none }
  /-- Anything may be in the graph. -/
  | draw (dot dot' : Option Dot) : Torn disk (.draw dot) { disk with dot := dot' }
  /-- The manifest breaks off. -/
  | writeTextFile (content part : String) (h : part.toList <+: content.toList) :
    Torn disk (.writeTextFile content) { disk with manifest := some part }

/-- What the two commands of Joern do in a call. -/
structure Joern (Dot : Type*) where
  /-- `joern-parse` returns zero. -/
  parses : Bool
  /-- `joern-export` returns zero. -/
  exports : Bool
  /-- The graph that it leaves. -/
  dot : Option Dot

/-- How a call ends. -/
inductive Result
  /-- The graph is used again. -/
  | cached
  /-- A graph was drawn. -/
  | generated
  /-- `exit(1)`. -/
  | failed
  deriving DecidableEq

/-- A graph that is out of date is removed at once. -/
def Disk.removal (disk : Disk Dot) : List (Op Dot) := if disk.dot.isSome then [.removeAll] else []

/-- `generateCPG`: how it ends, with its steps. -/
def generateCPG (env : Environment) (joern : Joern Dot) (disk : Disk Dot) :
    Result × List (Op Dot) :=
  if disk.dot.isSome && disk.manifest = some env.sourceManifest then (.cached, [])
  else if !joern.parses then (.failed, disk.removal)
  -- Where there is no directory, its removal changes nothing.
  else if !joern.exports then (.failed, disk.removal ++ [.removeAll, .draw joern.dot])
  else
    (.generated, disk.removal ++ [.removeAll, .draw joern.dot, .writeTextFile env.sourceManifest])

/-- What is left behind the steps of a call, which may be killed at any point. -/
inductive Leaves : List (Op Dot) → Disk Dot → Disk Dot → Prop
  /-- It ends here. -/
  | stop (ops : List (Op Dot)) (disk : Disk Dot) : Leaves ops disk disk
  /-- It ends in the middle of a step. -/
  | torn {op : Op Dot} {disk disk' : Disk Dot} (ops : List (Op Dot)) (h : op.Torn disk disk') :
    Leaves (op :: ops) disk disk'
  /-- A step comes to its end. -/
  | step {op : Op Dot} {ops : List (Op Dot)} {disk disk' : Disk Dot}
    (h : Leaves ops (op.run disk) disk') : Leaves (op :: ops) disk disk'

variable (Draws : Environment → Dot → Prop)

/-- What calls one after the other leave, each of them in an environment of its own. If Joern tells
that it succeeded, the graph is drawn from what is there. -/
inductive Runs : List Environment → Disk Dot → Prop
  /-- There is no output directory yet. -/
  | start : Runs [] {}
  /-- One more call. -/
  | call {envs : List Environment} {disk disk' : Disk Dot} (env : Environment) (joern : Joern Dot)
    (h : Runs envs disk) (hjoern : joern.exports = true → ∀ d ∈ joern.dot, Draws env d)
    (hleaves : Leaves (generateCPG env joern disk).2 disk disk') : Runs (env :: envs) disk'

/-- A call that comes to its end. -/
def complete (disk : Disk Dot) (c : Environment × Joern Dot) : Disk Dot :=
  (generateCPG c.1 c.2 disk).2.foldl Op.run disk

end Disk

/-- No difference in what two graphs are drawn from. -/
structure SameInputs (env env' : Environment) : Prop where
  /-- The mode. -/
  isFuzzy : env.isFuzzy = env'.isFuzzy
  /-- There are sources. -/
  isSome : env.files.isSome = env'.files.isSome
  /-- Where they are. -/
  dir : env.files.isSome = true → env.absSourceDir = env'.absSourceDir
  /-- Their names, sizes and times. -/
  files : (env.sourceFiles.map SourceFile.key).Perm (env'.sourceFiles.map SourceFile.key)
  /-- What the macros are defined as. -/
  defines : ∀ name, env.compileConfigDefines.lookup name = env'.compileConfigDefines.lookup name

/-- No path contains the end of a line. -/
structure Environment.IsPlain (env : Environment) : Prop where
  /-- The path of the directory. -/
  dir : '\n' ∉ env.absSourceDir.toList
  /-- The paths below it. -/
  rel : ∀ f ∈ env.sourceFiles, '\n' ∉ f.rel.toList

/-! ### What the manifest tells -/

/-- The line with the number of macros. -/
def configMark (n : ℕ) : String := "config_defines=" ++ toString n

namespace Environment

variable (env : Environment)

/-- The line of the mode. -/
def modeLines : List String := if env.isFuzzy then ["cpg_define_mode=fuzzy"] else []

/-- The lines of the sources. -/
def sourceLines : List String :=
  match env.files with
  | none => []
  | some _ =>
    ("source_dir=" ++ env.absSourceDir) ::
      (env.sourceFiles.map SourceFile.row).insertionSort (· ≤ ·)

/-- The lines of the macros. -/
def configLines : List String :=
  (env.compileConfigDefines.entries.map configRow).insertionSort (· ≤ ·)

end Environment

variable {env env' : Environment}

/-- The characters of a manifest are those of its lines, each with its end. -/
theorem toList_text (lines : List String) :
    (text lines).toList = unlines '\n' (lines.map String.toList) := by
  rw [text, String.toList_join, List.flatMap_map, unlines, List.flatMap_map]
  simp

/-- A manifest can be put together from two. -/
theorem text_append (lines lines' : List String) :
    text (lines ++ lines') = text lines ++ text lines' := by
  rw [← String.toList_inj, String.toList_append, toList_text, toList_text, toList_text,
    List.map_append, unlines, List.flatMap_append]
  rfl

/-- A text starts with another one exactly if its lines do. -/
theorem text_prefix_iff {lines lines' : List String} (h : ∀ l ∈ lines, '\n' ∉ l.toList)
    (h' : ∀ l ∈ lines', '\n' ∉ l.toList) :
    (text lines).toList <+: (text lines').toList ↔ lines <+: lines' := by
  rw [toList_text, toList_text, unlines_prefix_iff (by simpa using h) (by simpa using h')]
  exact List.prefix_map_iff_of_injective fun _ _ heq => String.toList_injective heq

/-- The manifest by its lines: the mode, the sources, the mark and the configuration. -/
theorem sourceManifest_eq (env : Environment) : env.sourceManifest =
    text (env.modeLines ++ env.sourceLines ++
      configMark env.configLines.length :: env.configLines) := by
  have hmode : env.modeTag = text env.modeLines := by
    rw [Environment.modeTag, Environment.modeLines]
    split_ifs <;> rfl
  have hsource : buildSourceManifest env.toSourceTree = text env.sourceLines := by
    rw [buildSourceManifest, Environment.sourceLines]
    cases env.files <;> rfl
  rw [text_append, text_append, ← hmode, ← hsource]
  rfl

/-! ### Rows -/

/-- The row of what a row tells. -/
def rowOf (k : String × ℕ × ℤ) : String := k.1 ++ "\t" ++ toString k.2.1 ++ "\t" ++ toString k.2.2

/-- A number has only digits and a sign. -/
theorem notMem_toString {c : Char} (hc : c.isDigit = false) (hsign : c ≠ '-') (z : ℤ) :
    c ∉ (toString z).toList := by
  intro h
  rcases isDigit_or_eq_of_mem_toString h with h | h
  · rw [hc] at h
    cases h
  · exact hsign h

/-- A natural number has only digits. -/
theorem notMem_toString_nat {c : Char} (hc : c.isDigit = false) (hsign : c ≠ '-') (n : ℕ) :
    c ∉ (toString n).toList := notMem_toString hc hsign n

/-- The characters of the line for a key. -/
theorem toList_rowOf (k : String × ℕ × ℤ) : (rowOf k).toList =
    k.1.toList ++ '\t' :: ((toString k.2.1).toList ++ '\t' :: (toString k.2.2).toList) := by
  have htab : "\t".toList = ['\t'] := String.toList_ofList
  rw [rowOf, String.toList_append, String.toList_append, String.toList_append,
    String.toList_append, htab]
  simp

/-- The characters of the line for a source. -/
theorem toList_row (f : SourceFile) : f.row.toList =
    f.rel.toList ++ '\t' :: ((toString f.size).toList ++ '\t' :: (toString f.ticks).toList) :=
  toList_rowOf f.key

/-- A row is read from its end, since there may be a tab in a path. -/
theorem rowOf_injective : Function.Injective rowOf := by
  rintro ⟨rel, size, ticks⟩ ⟨rel', size', ticks'⟩ heq
  have hlist := congrArg (fun s => s.toList.reverse) heq
  simp only [toList_rowOf, List.reverse_append, List.reverse_cons, List.append_assoc,
    List.singleton_append] at hlist
  have htab : ∀ z : ℤ, '\t' ∉ (toString z).toList.reverse := fun z h =>
    notMem_toString (by decide) (by decide) z (List.mem_reverse.mp h)
  obtain ⟨hticks, hrest⟩ := append_end_inj (htab ticks) (htab ticks') hlist
  obtain ⟨hsize, hrel⟩ := append_end_inj (htab size) (htab size') hrest
  have hticks : ticks = ticks' :=
    Int.repr_injective (String.toList_injective (List.reverse_injective hticks))
  have hsize : size = size' :=
    Nat.repr_injective (String.toList_injective (List.reverse_injective hsize))
  have hrel : rel = rel' := String.toList_injective (List.reverse_injective hrel)
  rw [hrel, hsize, hticks]

/-- The lines of two lists of sources agree, up to their order, exactly if their keys do. -/
theorem perm_row_iff {l l' : List SourceFile} :
    (l.map SourceFile.row).Perm (l'.map SourceFile.row) ↔
      (l.map SourceFile.key).Perm (l'.map SourceFile.key) := by
  have hrow : ∀ l : List SourceFile,
      l.map SourceFile.row = (l.map SourceFile.key).map rowOf := fun l => by
    rw [List.map_map]
    rfl
  rw [hrow, hrow, List.map_perm_map_iff rowOf_injective]

/-- The characters of the line for a macro. -/
theorem toList_configRow (m : Sigma fun _ : List Char => List Char) :
    (configRow m).toList = m.1 ++ '=' :: m.2 := by
  have heq : "=".toList = ['='] := String.toList_ofList
  rw [configRow, String.toList_append, String.toList_append, heq]
  simp

/-- No symbol of a macro is one that a line is taken apart at. -/
theorem IsConfigName.notMem {name : List Char} (h : IsConfigName name) {c : Char}
    (hc : c = '\n' ∨ c = '=') : c ∉ name := by
  obtain ⟨rest, -, hrest, rfl⟩ := h
  have hsymbol : ∀ c : Char, c = '\n' ∨ c = '=' → configPrefix.elem c = false ∧
      isMacroChar c = false := by
    rw [configPrefix_eq]
    rintro c (rfl | rfl) <;> decide
  intro hmem
  rcases List.mem_append.mp hmem with hmem | hmem
  · have := List.elem_eq_true_of_mem hmem
    rw [(hsymbol c hc).1] at this
    cases this
  · have := hrest c hmem
    rw [(hsymbol c hc).2] at this
    cases this

/-- A value that is passed on has no end of a line. -/
theorem IsConfigValue.notMem {value : List Char} (h : IsConfigValue value) : '\n' ∉ value :=
  fun hmem => absurd (h.2 _ hmem) (by decide)

/-- A macro can be read off its line. -/
theorem configRow_inj {m m' : Sigma fun _ : List Char => List Char} (h : IsConfigName m.1)
    (h' : IsConfigName m'.1) (heq : configRow m = configRow m') : m = m' := by
  have hlist := congrArg String.toList heq
  rw [toList_configRow, toList_configRow] at hlist
  obtain ⟨hname, hvalue⟩ :=
    append_end_inj (h.notMem (Or.inr rfl)) (h'.notMem (Or.inr rfl)) hlist
  exact Sigma.ext hname (heq_of_eq hvalue)

/-- The lines for the macros agree exactly if every macro has the same value. -/
theorem configLines_eq_iff : env.configLines = env'.configLines ↔
    ∀ name, env.compileConfigDefines.lookup name = env'.compileConfigDefines.lookup name := by
  rw [Environment.configLines, Environment.configLines, insertionSort_eq_iff]
  have hwf := wellFormed_compileConfigDefines env.toSourceTree
  have hwf' := wellFormed_compileConfigDefines env'.toSourceTree
  constructor
  · -- A macro of one of them has the row of a macro of the other one, so it is that.
    intro hperm name
    ext value
    rw [← Option.mem_def, ← Option.mem_def, AList.mem_lookup_iff, AList.mem_lookup_iff]
    constructor
    · intro hm
      obtain ⟨m', hm', heq⟩ := List.mem_map.mp (hperm.mem_iff.mp (List.mem_map_of_mem hm))
      rwa [← configRow_inj (hwf' m' hm').1 (hwf _ hm).1 heq]
    · intro hm
      obtain ⟨m', hm', heq⟩ := List.mem_map.mp (hperm.mem_iff.mpr (List.mem_map_of_mem hm))
      rwa [← configRow_inj (hwf m' hm').1 (hwf' _ hm).1 heq]
  · intro hlookup
    refine List.Perm.map _ (List.lookup_ext (AList.nodupKeys _) (AList.nodupKeys _) fun x y => ?_)
    have hx := hlookup x
    rw [AList.lookup, AList.lookup] at hx
    rw [hx]

/-! ### Manifests that break off -/

/-- The characters of the mark between the sources and the configuration. -/
theorem toList_configMark (n : ℕ) :
    (configMark n).toList = "config_defines=".toList ++ (toString n).toList := String.toList_append

/-- The mark is one line. -/
theorem nl_notMem_configMark (n : ℕ) : '\n' ∉ (configMark n).toList := by
  rw [toList_configMark, List.mem_append, not_or]
  exact ⟨by simp, notMem_toString_nat (by decide) (by decide) n⟩

/-- A line of the first part names the directory or a source. -/
theorem mem_sourceLines {line : String} (h : line ∈ env.sourceLines) :
    line = "source_dir=" ++ env.absSourceDir ∨ ∃ f ∈ env.sourceFiles, line = f.row := by
  rw [Environment.sourceLines] at h
  cases hfiles : env.files with
  | none =>
    rw [hfiles] at h
    cases h
  | some files =>
    rw [hfiles] at h
    rcases List.mem_cons.mp h with h | h
    · exact Or.inl h
    · obtain ⟨f, hf, rfl⟩ := List.mem_map.mp ((List.mem_insertionSort _).mp h)
      exact Or.inr ⟨f, hf, rfl⟩

/-- The mode is one line. -/
theorem nl_notMem_of_mem_modeLines {line : String} (h : line ∈ env.modeLines) :
    '\n' ∉ line.toList := by
  rw [Environment.modeLines] at h
  split_ifs at h
  · rw [List.mem_singleton.mp h]
    simp
  · cases h

/-- The line for a source is one line if its path is. -/
theorem nl_notMem_row {f : SourceFile} (h : '\n' ∉ f.rel.toList) : '\n' ∉ f.row.toList := by
  rw [toList_row, List.mem_append, List.mem_cons, List.mem_append, List.mem_cons]
  rintro (hmem | hmem | hmem | hmem | hmem)
  · exact h hmem
  · exact absurd hmem (by decide)
  · exact notMem_toString_nat (by decide) (by decide) _ hmem
  · exact absurd hmem (by decide)
  · exact notMem_toString (by decide) (by decide) _ hmem

/-- The line for a macro is one line. -/
theorem nl_notMem_configRow {m : Sigma fun _ : List Char => List Char} (hname : IsConfigName m.1)
    (hvalue : IsConfigValue m.2) : '\n' ∉ (configRow m).toList := by
  rw [toList_configRow, List.mem_append, List.mem_cons]
  rintro (hmem | hmem | hmem)
  · exact hname.notMem (Or.inl rfl) hmem
  · exact absurd hmem (by decide)
  · exact hvalue.notMem hmem

/-- No line has an end of a line in it. -/
theorem nl_notMem_of_mem_lines (h : env.IsPlain) : ∀ line ∈ env.modeLines ++ env.sourceLines ++
    configMark env.configLines.length :: env.configLines, '\n' ∉ line.toList := by
  intro line hline
  rw [List.mem_append, List.mem_append, List.mem_cons] at hline
  rcases hline with (hline | hline) | rfl | hline
  · exact nl_notMem_of_mem_modeLines hline
  · rcases mem_sourceLines hline with rfl | ⟨f, hf, rfl⟩
    · rw [String.toList_append, List.mem_append, not_or]
      exact ⟨by simp, h.dir⟩
    · exact nl_notMem_row (h.rel f hf)
  · exact nl_notMem_configMark _
  · obtain ⟨m, hm, rfl⟩ := List.mem_map.mp ((List.mem_insertionSort _).mp hline)
    obtain ⟨hname, hvalue⟩ := wellFormed_compileConfigDefines env.toSourceTree m hm
    exact nl_notMem_configRow hname hvalue

/-- The mark tells how many macros follow. -/
theorem configMark_injective : Function.Injective configMark := by
  intro m n heq
  have hlist := congrArg String.toList heq
  rw [toList_configMark, toList_configMark] at hlist
  exact Nat.repr_injective (String.toList_injective (List.append_cancel_left hlist))

/-- The line with the number is not one of those in front of it: there is a tab in a row. -/
theorem ne_configMark_of_mem {line : String} (h : line ∈ env.modeLines ++ env.sourceLines)
    (n : ℕ) : line ≠ configMark n := by
  have hfirst : (configMark n).toList[0]? = some 'c' := by simp [toList_configMark]
  have hsecond : (configMark n).toList[1]? = some 'o' := by simp [toList_configMark]
  rintro rfl
  rcases List.mem_append.mp h with h | h
  · rw [Environment.modeLines] at h
    split_ifs at h
    · rw [List.mem_singleton.mp h] at hsecond
      simp at hsecond
    · cases h
  · rcases mem_sourceLines h with heq | ⟨f, -, heq⟩
    · rw [heq, String.toList_append] at hfirst
      simp at hfirst
    · have htab : '\t' ∈ (configMark n).toList := by
        rw [heq, toList_row]
        exact List.mem_append_right _ List.mem_cons_self
      have hlit : '\t' ∉ "config_defines=".toList := by simp
      rw [toList_configMark, List.mem_append] at htab
      rcases htab with htab | htab
      · exact hlit htab
      · exact notMem_toString_nat (by decide) (by decide) n htab

/-- If a manifest starts with another one, they have the same lines. -/
theorem lines_eq_of_prefix (h : env.IsPlain) (h' : env'.IsPlain)
    (hp : env.sourceManifest.toList <+: env'.sourceManifest.toList) :
    env.modeLines ++ env.sourceLines = env'.modeLines ++ env'.sourceLines ∧
      env.configLines = env'.configLines := by
  rw [sourceManifest_eq, sourceManifest_eq,
    text_prefix_iff (nl_notMem_of_mem_lines h) (nl_notMem_of_mem_lines h')] at hp
  exact counted_inj_of_prefix configMark_injective (fun line hl n => ne_configMark_of_mem hl n)
    (fun line hl n => ne_configMark_of_mem hl n) hp

/-- A manifest that breaks off is not the manifest of anything. -/
theorem sourceManifest_eq_of_prefix (h : env.IsPlain) (h' : env'.IsPlain)
    (hp : env.sourceManifest.toList <+: env'.sourceManifest.toList) :
    env.sourceManifest = env'.sourceManifest := by
  obtain ⟨hfront, hback⟩ := lines_eq_of_prefix h h' hp
  rw [sourceManifest_eq, sourceManifest_eq, hfront, hback]

/-- Without a directory there are no sources. -/
theorem sourceFiles_eq_nil (h : env.files = none) : env.sourceFiles = [] := by
  rw [SourceTree.sourceFiles, h]
  rfl

/-- The lines of the sources tell where they are, with their names, sizes and times. -/
theorem sourceLines_eq_iff : env.sourceLines = env'.sourceLines ↔
    env.files.isSome = env'.files.isSome ∧
      (env.files.isSome = true → env.absSourceDir = env'.absSourceDir) ∧
      (env.sourceFiles.map SourceFile.key).Perm (env'.sourceFiles.map SourceFile.key) := by
  rw [← perm_row_iff, Environment.sourceLines, Environment.sourceLines]
  cases hfiles : env.files with
  | none =>
    cases hfiles' : env'.files with
    | none =>
      rw [sourceFiles_eq_nil hfiles, sourceFiles_eq_nil hfiles']
      simp
    | some files' => exact iff_of_false (fun h => nomatch h) (fun h => nomatch h.1)
  | some files =>
    cases hfiles' : env'.files with
    | none => exact iff_of_false (fun h => nomatch h) (fun h => nomatch h.1)
    | some files' =>
      have hdir : "source_dir=" ++ env.absSourceDir = "source_dir=" ++ env'.absSourceDir ↔
          env.absSourceDir = env'.absSourceDir := by
        rw [← String.toList_inj, String.toList_append, String.toList_append,
          List.append_cancel_left_eq, String.toList_inj]
      rw [List.cons.injEq, hdir, insertionSort_eq_iff]
      simp

/-- The line of the mode is not the first one of the sources. -/
theorem modeLines_append_eq_iff :
    env.modeLines ++ env.sourceLines = env'.modeLines ++ env'.sourceLines ↔
      env.isFuzzy = env'.isFuzzy ∧ env.sourceLines = env'.sourceLines := by
  have hne : ∀ (env : Environment) (l : List String),
      env.sourceLines ≠ "cpg_define_mode=fuzzy" :: l := by
    intro env l
    rw [Environment.sourceLines]
    cases env.files with
    | none => exact fun h => nomatch h
    | some files =>
      intro h
      have hhead := congrArg (fun s : String => s.toList[0]?) (List.cons.inj h).1
      rw [String.toList_append] at hhead
      revert hhead
      exact fun hhead => nomatch hhead
  rw [Environment.modeLines, Environment.modeLines]
  cases env.isFuzzy <;> cases env'.isFuzzy
  · simp
  · simpa using hne env _
  · simpa using (hne env' _).symm
  · simp

/-- The manifest tells the inputs, and nothing else. -/
theorem sourceManifest_eq_iff (h : env.IsPlain) (h' : env'.IsPlain) :
    env.sourceManifest = env'.sourceManifest ↔ SameInputs env env' := by
  constructor
  · intro heq
    obtain ⟨hfront, hback⟩ := lines_eq_of_prefix h h' (heq ▸ List.prefix_refl _)
    obtain ⟨hfuzzy, hsource⟩ := modeLines_append_eq_iff.mp hfront
    obtain ⟨hsome, hdir, hfiles⟩ := sourceLines_eq_iff.mp hsource
    exact ⟨hfuzzy, hsome, hdir, hfiles, configLines_eq_iff.mp hback⟩
  · rintro ⟨hfuzzy, hsome, hdir, hfiles, hdefines⟩
    rw [sourceManifest_eq, sourceManifest_eq, configLines_eq_iff.mpr hdefines,
      modeLines_append_eq_iff.mpr ⟨hfuzzy, sourceLines_eq_iff.mpr ⟨hsome, hdir, hfiles⟩⟩]

/-! ### Runs -/

section Runs

variable {Dot : Type*} {Draws : Environment → Dot → Prop} {envs : List Environment}
  {disk disk' : Disk Dot} {joern joern' : Joern Dot}

/-- Where there is a manifest with a graph, it is the manifest of a call that drew the graph, or
breaks off. -/
def Traced (Draws : Environment → Dot → Prop) (envs : List Environment) (disk : Disk Dot) : Prop :=
  ∀ dot ∈ disk.dot, ∀ manifest ∈ disk.manifest, ∃ env ∈ envs,
    manifest.toList <+: env.sourceManifest.toList ∧ Draws env dot

/-- A graph stays traced when more calls are made. -/
theorem Traced.mono {envs' : List Environment} (h : Traced Draws envs disk) (hsub : envs ⊆ envs') :
    Traced Draws envs' disk := fun dot hdot manifest hmanifest =>
  let ⟨env, henv, hp⟩ := h dot hdot manifest hmanifest
  ⟨env, hsub henv, hp⟩

/-- A disk without a manifest claims nothing. -/
theorem traced_of_manifest (h : disk.manifest = none) : Traced Draws envs disk := by
  intro dot _ manifest hmanifest
  rw [h] at hmanifest
  cases hmanifest

/-- A removal leaves nothing new, whether it comes to its end or not. -/
theorem traced_removeAll {ops : List (Op Dot)} (h : Traced Draws envs disk)
    (hleaves : Leaves (.removeAll :: ops) disk disk')
    (hnext : Leaves ops {} disk' → Traced Draws envs disk') : Traced Draws envs disk' := by
  cases hleaves with
  | stop => exact h
  | step hleaves => exact hnext hleaves
  | torn _ htorn =>
    cases htorn with
    | removeAll keepsDot keepsManifest =>
      intro dot hdot manifest hmanifest
      cases keepsDot with
      | false => cases hdot
      | true =>
        cases keepsManifest with
        | false => cases hmanifest
        | true => exact h dot hdot manifest hmanifest

/-- The manifest comes last, and the directory is empty when the graph is drawn. -/
theorem traced_draw {env : Environment} {ops : List (Op Dot)} (henv : env ∈ envs)
    (hops : ops = [] ∨
      ops = [.writeTextFile env.sourceManifest] ∧ ∀ dot ∈ joern.dot, Draws env dot)
    (hleaves : Leaves (.draw joern.dot :: ops) {} disk') : Traced Draws envs disk' := by
  cases hleaves with
  | stop => exact traced_of_manifest rfl
  | torn _ htorn =>
    cases htorn with
    | draw => exact traced_of_manifest rfl
  | step hleaves =>
    rcases hops with rfl | ⟨rfl, hdraws⟩
    · cases hleaves with
      | stop => exact traced_of_manifest rfl
    · cases hleaves with
      | stop => exact traced_of_manifest rfl
      | torn _ htorn =>
        cases htorn with
        | writeTextFile _ part hpart =>
          -- Whatever part of the manifest is there, the graph is complete.
          intro dot hdot manifest hmanifest
          obtain rfl := Option.some.inj hmanifest
          exact ⟨env, henv, hpart, hdraws dot hdot⟩
      | step hleaves =>
        cases hleaves with
        | stop =>
          intro dot hdot manifest hmanifest
          obtain rfl := Option.some.inj hmanifest
          exact ⟨env, henv, List.prefix_refl _, hdraws dot hdot⟩

/-- One call keeps it. -/
theorem traced_call {env : Environment} (h : Traced Draws envs disk)
    (hjoern : joern.exports = true → ∀ d ∈ joern.dot, Draws env d)
    (hleaves : Leaves (generateCPG env joern disk).2 disk disk') :
    Traced Draws (env :: envs) disk' := by
  have hold := h.mono (List.subset_cons_self env envs)
  have hmem : env ∈ env :: envs := List.mem_cons_self
  -- The graph is there if it is out of date.
  have hremoval : ∀ ops : List (Op Dot),
      Leaves (disk.removal ++ ops) disk disk' →
      (∀ disk'', Traced Draws (env :: envs) disk'' → Leaves ops disk'' disk' →
        Traced Draws (env :: envs) disk') → Traced Draws (env :: envs) disk' := by
    intro ops hleaves hnext
    rw [Disk.removal] at hleaves
    split_ifs at hleaves
    · exact traced_removeAll hold hleaves (hnext {} (traced_of_manifest rfl))
    · exact hnext disk hold hleaves
  rw [generateCPG] at hleaves
  split_ifs at hleaves with hcached hparses hexports
  · -- The graph is used again.
    cases hleaves with
    | stop => exact hold
  · -- The frontend fails.
    rw [← List.append_nil disk.removal] at hleaves
    refine hremoval [] hleaves fun disk'' hdisk hleaves => ?_
    cases hleaves with
    | stop => exact hdisk
  · -- The export fails: no manifest is written.
    refine hremoval _ hleaves fun disk'' hdisk hleaves => ?_
    exact traced_removeAll hdisk hleaves (traced_draw hmem (Or.inl rfl))
  · have hdraws := hjoern (by simpa using hexports)
    refine hremoval _ hleaves fun disk'' hdisk hleaves => ?_
    exact traced_removeAll hdisk hleaves (traced_draw hmem (Or.inr ⟨rfl, hdraws⟩))

/-- In every run, a graph that stands on disk with a manifest can be traced to a call. -/
theorem traced_of_runs (h : Runs Draws envs disk) : Traced Draws envs disk := by
  induction h with
  | start => exact traced_of_manifest rfl
  | call env joern _ hjoern hleaves ih => exact traced_call ih hjoern hleaves

/-- The graph is used again exactly if it is there with the manifest of these inputs. -/
theorem cached_iff {env : Environment} : (generateCPG env joern disk).1 = .cached ↔
    disk.dot.isSome = true ∧ disk.manifest = some env.sourceManifest := by
  rw [generateCPG]
  split_ifs with hcached
  · simpa using hcached
  all_goals simpa using hcached

/-- A driver with a header, and a compile log next to it. -/
def driver (files : List SourceFile) : Environment where
  absSourceDir := "/case/src"
  files := some files
  listing dir := if dir = "/case" then some [
    { name := "case_compile.log", text := "gcc -DCONFIG_SMP=1 -DCONFIG_NUMA".toList }] else none
  read _ := none

/-- Its source. -/
def driverSource : SourceFile :=
  { rel := "drv.c", size := 17, ticks := 4, text := "#ifdef CONFIG_SMP".toList }

/-- Its header. -/
def driverHeader : SourceFile := { rel := "drv.h", size := 0, ticks := -1, text := [] }

/-- The case of the driver has plain paths if its files have. -/
theorem isPlain_driver {files : List SourceFile} (h : ∀ f ∈ files, '\n' ∉ f.rel.toList) :
    (driver files).IsPlain where
  dir := by
    have hdir : '\n' ∉ "/case/src".toList := by simp
    exact hdir
  rel f hf := h f (List.mem_of_mem_filter hf)

/-- The paths of the driver are plain. -/
theorem driver_plain : (driver [driverSource, driverHeader]).IsPlain :=
  isPlain_driver (by simp [driverSource, driverHeader])

/-- They are in the other order as well. -/
theorem driver_plain_swap : (driver [driverHeader, driverSource]).IsPlain :=
  isPlain_driver (by simp [driverSource, driverHeader])

/-- The order in which the files are found does not matter. -/
theorem driver_sameInputs :
    SameInputs (driver [driverSource, driverHeader]) (driver [driverHeader, driverSource]) where
  isFuzzy := rfl
  isSome := rfl
  dir _ := rfl
  files := by decide +kernel
  defines name := by
    have hdefines : (driver [driverSource, driverHeader]).compileConfigDefines =
        (driver [driverHeader, driverSource]).compileConfigDefines :=
      AList.ext (by decide +kernel)
    rw [hdefines]

/-- A call that uses the graph again leaves the disk as it is. -/
theorem complete_of_cached {c : Environment × Joern Dot}
    (h : (generateCPG c.1 c.2 disk).1 = .cached) : complete disk c = disk := by
  have hops : (generateCPG c.1 c.2 disk).2 = [] := by
    rw [generateCPG]
    rw [generateCPG] at h
    split_ifs at h ⊢
    rfl
  rw [complete, hops]
  rfl

/-- A call that draws the graph leaves it with its manifest. -/
theorem complete_of_generated {c : Environment × Joern Dot}
    (h : (generateCPG c.1 c.2 disk).1 = .generated) :
    complete disk c = { dot := c.2.dot, manifest := some c.1.sourceManifest } := by
  have hops : (generateCPG c.1 c.2 disk).2 =
      disk.removal ++ [.removeAll, .draw c.2.dot, .writeTextFile c.1.sourceManifest] := by
    rw [generateCPG]
    rw [generateCPG] at h
    split_ifs at h ⊢
    rfl
  rw [complete, hops, List.foldl_append]
  rfl

end Runs

end Lace.CPG
