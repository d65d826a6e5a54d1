import Mathlib
import Lace.CPG.MethodFiles

/-!
# Configuration macros

The sources mention `CONFIG_` macros; the compile logs next to them, and the `autoconf.h` files that
the logs name, tell what they are defined as. What is found goes to the frontend of Joern, so a value
that is more than a number is replaced by `1`.

## Main definitions

* `configName`, `dFlag`, `includeFlag`, `defineLine`: what the regular expressions match;
* `SourceTree`: what is read of the file system;
* `collectReferencedConfigMacros`, `collectCompileConfigDefines`: the macros and their values.

## Main results

* `wellFormed_compileConfigDefines`: every macro has a name, and its value is a number.
-/

namespace Lace.CPG

open Library

/-! ### What the regular expressions match -/

/-- `\s`: the characters that `\s` matches. -/
def isSpace (c : Char) : Bool := c ∈ [' ', '\t', '\n', '\x0b', '\x0c', '\r']

/-- `[A-Za-z0-9_]`: the characters of a macro's name. -/
def isMacroChar (c : Char) : Bool := c.isAlphanum || c = '_'

/-- `[^\s'"]`: the characters of a compiler flag, up to a blank or a quote. -/
def isFlagChar (c : Char) : Bool := !isSpace c && c ≠ '\'' && c ≠ '"'

/-- `CONFIG_`: how the names of configuration macros start. -/
def configPrefix : List Char := "CONFIG_".toList

/-- `CONFIG_[A-Za-z0-9_]+`, at the start of a text. -/
def configName (s : List Char) : Option (List Char) :=
  if configPrefix.isPrefixOf s then
    let name := (s.drop configPrefix.length).takeWhile isMacroChar
    if name = [] then none else some (configPrefix ++ name)
  else none

/-- `-D(CONFIG_[A-Za-z0-9_]+)(?:=([^\s'"]+))?`, at the start of a text: how much it matches, with
the two groups. -/
def dFlag (s : List Char) : Option (ℕ × List Char × List Char) :=
  if "-D".toList.isPrefixOf s then
    (configName (s.drop 2)).map fun name =>
      let n := 2 + name.length
      match s.drop n with
      | '=' :: r =>
        let value := r.takeWhile isFlagChar
        -- Without a value the equals sign is left.
        if value = [] then (n, name, []) else (n + 1 + value.length, name, value)
      | _ => (n, name, [])
  else none

/-- `-include\s+['"]?([^\s'"]*autoconf\.h)['"]?`, at the start of a text: how much it matches, with
the group. -/
def includeFlag (s : List Char) : Option (ℕ × List Char) :=
  if "-include".toList.isPrefixOf s then
    let r := s.drop 8
    let spaces := (r.takeWhile isSpace).length
    if spaces = 0 then none
    else
      let quote := if ((r.drop spaces).head?.any fun c => c = '\'' || c = '"') then 1 else 0
      let r := r.drop (spaces + quote)
      -- The last `autoconf.h` of the longest run.
      ((r.takeWhile isFlagChar).inits.reverse.find? fun path =>
          "autoconf.h".toList.isSuffixOf path).map fun path =>
        let quote' := if ((r.drop path.length).head?.any fun c => c = '\'' || c = '"') then 1 else 0
        (8 + spaces + quote + path.length + quote', path)
  else none

/-- `^\s*#\s*define\s+(CONFIG_[A-Za-z0-9_]+)(?:\s+(.+))?\s*$`, for a whole line: the two groups. -/
def defineLine (line : List Char) : Option (List Char × List Char) :=
  match line.dropWhile isSpace with
  | '#' :: r =>
    let r := r.dropWhile isSpace
    if "define".toList.isPrefixOf r && (r.drop 6).head?.any isSpace then
      let r := (r.drop 6).dropWhile isSpace
      (configName r).bind fun name =>
        let rest := r.drop name.length
        if rest.head?.all isSpace then
          -- A point does not match the end of a line.
          let value := (rest.dropWhile isSpace).takeWhile (· ≠ '\r')
          if ((rest.dropWhile isSpace).drop value.length).all isSpace then some (name, value)
          else none
        else none
    else none
  | _ => none

/-- `sregex_iterator`: the matches of an expression from left to right, behind so many symbols that
belong to the match before. -/
def sregexIterator {β : Type} (matchAt : List Char → Option (ℕ × β)) : ℕ → List Char → List β
  | _, [] => []
  | skip + 1, _ :: s => sregexIterator matchAt skip s
  | 0, c :: s =>
    match matchAt (c :: s) with
    | some (n, m) => m :: sregexIterator matchAt (n - 1) s
    | none => sregexIterator matchAt 0 s

/-! ### What is read -/

/-- A file below the source directory, as an iteration over it gives it. -/
structure SourceFile where
  /-- The path below the source directory. -/
  rel : String
  /-- `is_regular_file`. -/
  isRegular : Bool := true
  /-- The size, zero if it cannot be told. -/
  size : ℕ
  /-- The ticks of the last write, zero if they cannot be told. -/
  ticks : ℤ
  /-- What is read of it. -/
  text : List Char
  deriving DecidableEq

/-- A file next to the sources. -/
structure CaseFile where
  /-- Its name. -/
  name : String
  /-- `is_regular_file`. -/
  isRegular : Bool := true
  /-- What is read of it. -/
  text : List Char
  deriving DecidableEq

/-- What is read of the file system. -/
structure SourceTree where
  /-- `fs::absolute(sourceDir)`. -/
  absSourceDir : String
  /-- The files below the source directory, in the order of the iteration, if it exists. -/
  files : Option (List SourceFile)
  /-- The files of a directory, in the order of the iteration, if it exists. -/
  listing : String → Option (List CaseFile)
  /-- What is read of a file, if it can be opened. -/
  read : List Char → Option (List Char)

/-- `path::extension`. -/
def extension (path : String) : List Char :=
  let name := extractBaseFileName path.toList
  let ext := name.reverse.takeWhile (· ≠ '.')
  -- A name without a point, or with one in front only, has none.
  if name = PosixPath.dotdot || name.length ≤ ext.length + 1 then [] else '.' :: ext.reverse

/-- `isCPGSourceFile`: the files that are parsed, by their extensions. -/
def isCPGSourceFile (path : String) : Bool :=
  ([".c", ".cc", ".cpp", ".h", ".hh", ".hpp"].map String.toList).contains (extension path)

namespace SourceTree

variable (tree : SourceTree)

/-- The files that go into the graph. -/
def sourceFiles : List SourceFile :=
  (tree.files.getD []).filter fun f => f.isRegular && isCPGSourceFile f.rel

/-- `collectReferencedConfigMacros`: the configuration macros that the sources name. -/
def collectReferencedConfigMacros : List (List Char) :=
  tree.sourceFiles.flatMap fun f =>
    sregexIterator (fun s => (configName s).map fun name => (name.length, name)) 0 f.text

/-- `caseDir`: where the compile logs of a case lie: beside a directory `src`, else in the
sources. -/
def caseDir : String :=
  if extractBaseFileName tree.absSourceDir.toList = "src".toList then
    -- `parent_path`
    let parent := (tree.absSourceDir.toList.reverse.dropWhile (· ≠ '/')).dropWhile (· = '/')
    if parent = [] then "/" else String.ofList parent.reverse
  else tree.absSourceDir

end SourceTree

/-- The lambda `trim`. -/
def trim (value : List Char) : List Char :=
  let isWs (c : Char) : Bool := c ∈ [' ', '\t', '\r', '\n']
  ((value.dropWhile isWs).reverse.dropWhile isWs).reverse

/-- A character of a number. -/
def isNumeric (c : Char) : Bool :=
  c.isDigit || c = 'x' || c = 'X' || ('a' ≤ c && c ≤ 'f') || ('A' ≤ c && c ≤ 'F')

/-- `normalizeConfigValue`: the value that is passed on: a number as it is, and 1 for anything
else. -/
def normalizeConfigValue (value : List Char) : List Char :=
  let value := trim value
  if value = [] then ['1'] else if value.all isNumeric then value else ['1']

/-- The macros with their values. -/
abbrev Defines := AList fun _ : List Char => List Char

/-- Define a referenced macro. -/
def define (refs : List (List Char)) (out : Defines) (m : List Char × List Char) : Defines :=
  if refs.contains m.1 then out.insert m.1 (normalizeConfigValue m.2) else out

/-- `loadAutoconfDefines`, for what is read of the file. -/
def loadAutoconfDefines (refs : List (List Char)) (text : Option (List Char)) (out : Defines) :
    Defines :=
  match text with
  | none => out
  | some text => ((text.splitOn '\n').filterMap defineLine).foldl (define refs) out

/-- A compile log. -/
def CaseFile.isCompileLog (f : CaseFile) : Bool :=
  f.isRegular && (f.name.toList.tails.any ("_compile.log".toList.isPrefixOf ·) ||
    f.name = "compile.log")

namespace SourceTree

variable (tree : SourceTree)

/-- One compile log. -/
def loadCompileLog (refs : List (List Char)) (defines : Defines) (log : CaseFile) : Defines :=
  let defines := (sregexIterator dFlag 0 log.text).foldl (define refs) defines
  (sregexIterator includeFlag 0 log.text).foldl
    (fun defines path => loadAutoconfDefines refs (tree.read path) defines) defines

/-- `collectCompileConfigDefines`: the values that the first fitting compile log gives to these
macros. -/
def collectCompileConfigDefines (refs : List (List Char)) : Defines :=
  if refs = [] then ∅
  else
    (((tree.listing tree.caseDir).getD []).filter CaseFile.isCompileLog).foldl
      (tree.loadCompileLog refs) ∅

/-- `compileConfigDefines`: the configuration macros that the parser is given. -/
def compileConfigDefines : Defines :=
  tree.collectCompileConfigDefines tree.collectReferencedConfigMacros

end SourceTree

/-! ### Names and numbers -/

/-- The name of a configuration macro. -/
def IsConfigName (name : List Char) : Prop :=
  ∃ rest, rest ≠ [] ∧ (∀ c ∈ rest, isMacroChar c = true) ∧ name = configPrefix ++ rest

/-- What a macro is defined as. -/
def IsConfigValue (value : List Char) : Prop := value ≠ [] ∧ ∀ c ∈ value, isNumeric c = true

/-- Every macro has a name, and its value is a number. -/
def WellFormed (defines : Defines) : Prop :=
  ∀ m ∈ defines.entries, IsConfigName m.1 ∧ IsConfigValue m.2

theorem configPrefix_eq : configPrefix = ['C', 'O', 'N', 'F', 'I', 'G', '_'] := String.toList_ofList

variable {s name value : List Char} {refs : List (List Char)} {defines : Defines}

theorem isConfigName_of_eq_some (h : configName s = some name) : IsConfigName name := by
  rw [configName] at h
  dsimp only at h
  split_ifs at h with hprefix hnil
  obtain rfl := Option.some.inj h
  exact ⟨_, hnil, fun c hc => List.mem_takeWhile_imp hc, rfl⟩

/-- A match is what the expression gives at some place of the text. -/
theorem exists_of_mem_sregexIterator {β : Type} {matchAt : List Char → Option (ℕ × β)} {m : β}
    {skip : ℕ} (h : m ∈ sregexIterator matchAt skip s) : ∃ t n, matchAt t = some (n, m) := by
  induction s generalizing skip with
  | nil =>
    rw [sregexIterator] at h
    cases h
  | cons c s ih =>
    cases skip with
    | succ skip => exact ih h
    | zero =>
      rw [sregexIterator] at h
      split at h
      next n m' hmatch =>
        rcases List.mem_cons.mp h with rfl | h
        · exact ⟨_, n, hmatch⟩
        · exact ih h
      next => exact ih h

theorem isConfigName_of_mem_collect {tree : SourceTree}
    (h : name ∈ tree.collectReferencedConfigMacros) : IsConfigName name := by
  obtain ⟨f, -, hname⟩ := List.mem_flatMap.mp h
  obtain ⟨t, n, hmatch⟩ := exists_of_mem_sregexIterator hname
  obtain ⟨name', hname', heq⟩ := Option.map_eq_some_iff.mp hmatch
  cases heq
  exact isConfigName_of_eq_some hname'

/-- A value is a number, whatever was found. -/
theorem isConfigValue_normalizeConfigValue (value : List Char) :
    IsConfigValue (normalizeConfigValue value) := by
  have hone : IsConfigValue ['1'] :=
    ⟨List.cons_ne_nil _ _, List.forall_mem_singleton.mpr (by decide)⟩
  rw [normalizeConfigValue]
  split_ifs with hnil hnumeric
  · exact hone
  · exact ⟨hnil, List.all_eq_true.mp hnumeric⟩
  · exact hone

theorem wellFormed_define (hrefs : ∀ r ∈ refs, IsConfigName r) (h : WellFormed defines)
    (m : List Char × List Char) : WellFormed (define refs defines m) := by
  rw [define]
  split_ifs with hm
  · intro e he
    rw [AList.entries_insert] at he
    rcases List.mem_cons.mp he with rfl | he
    · exact ⟨hrefs _ (List.contains_iff_mem.mp hm), isConfigValue_normalizeConfigValue m.2⟩
    · exact h e ((List.kerase_sublist _ _).subset he)
  · exact h

theorem wellFormed_foldl_define (hrefs : ∀ r ∈ refs, IsConfigName r) (h : WellFormed defines)
    (ms : List (List Char × List Char)) : WellFormed (ms.foldl (define refs) defines) := by
  induction ms generalizing defines with
  | nil => exact h
  | cons m ms ih => exact ih (wellFormed_define hrefs h m)

theorem wellFormed_loadAutoconfDefines (hrefs : ∀ r ∈ refs, IsConfigName r)
    (h : WellFormed defines) (text : Option (List Char)) :
    WellFormed (loadAutoconfDefines refs text defines) := by
  cases text with
  | none => exact h
  | some text => exact wellFormed_foldl_define hrefs h _

theorem wellFormed_loadCompileLog (tree : SourceTree) (hrefs : ∀ r ∈ refs, IsConfigName r)
    (h : WellFormed defines) (log : CaseFile) :
    WellFormed (tree.loadCompileLog refs defines log) := by
  rw [SourceTree.loadCompileLog]
  have hflags := wellFormed_foldl_define hrefs h (sregexIterator dFlag 0 log.text)
  generalize (sregexIterator dFlag 0 log.text).foldl (define refs) defines = d at hflags
  induction sregexIterator includeFlag 0 log.text generalizing d with
  | nil => exact hflags
  | cons path paths ih => exact ih _ (wellFormed_loadAutoconfDefines hrefs hflags _)

/-- Every macro has a name, and its value is a number, whatever the compile logs are. -/
theorem wellFormed_compileConfigDefines (tree : SourceTree) :
    WellFormed tree.compileConfigDefines := by
  have hrefs : ∀ r ∈ tree.collectReferencedConfigMacros, IsConfigName r :=
    fun r hr => isConfigName_of_mem_collect hr
  have hempty : WellFormed ∅ := fun m hm => nomatch hm
  rw [SourceTree.compileConfigDefines, SourceTree.collectCompileConfigDefines]
  split_ifs
  · exact hempty
  · generalize (∅ : Defines) = d at hempty
    induction ((tree.listing tree.caseDir).getD []).filter CaseFile.isCompileLog
        generalizing d with
    | nil => exact hempty
    | cons log logs ih => exact ih _ (wellFormed_loadCompileLog tree hrefs hempty log)

end Lace.CPG
