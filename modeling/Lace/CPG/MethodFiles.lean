import Mathlib.Data.Finset.Insert
import Mathlib.Data.Finset.Lattice.Basic
import Lace.Library.PosixPath
import Lace.Library.Reorder

/-!
# Looking up the methods of a file

The CPG registers its methods under the files they are in. A request for a file that is not
registered is answered with the methods of the first registered file that is likely the same, in
the order of the hash map; if there is none, with those of all files with the same base name.

## Main definitions

* `extractBaseFileName`, `arePathsLikelySameFile`: the last name of a path, the comparison of two;
* `FileMap`, `FileMap.addMethod`: the registered files;
* `FileMap.getMethodsByFileName`: the lookup;
* `FileMap.Complete`: the lookup does not depend on the order, and misses no file.

## Main results

* `FileMap.complete_iff`: when the lookup is complete.
-/

namespace Lace

open Library

/-- `PathUtils::extractBaseFileName`: the name of a file, without its directories. -/
def extractBaseFileName (path : List Char) : List Char := (PosixPath.parse path).filename

/-- `PathUtils::arePathsLikelySameFile`: the elements agree from the end on, as far as both paths
go. -/
def arePathsLikelySameFile (path1 path2 : List Char) : Bool :=
  let p1 := (PosixPath.parse path1).lexicallyNormal
  let p2 := (PosixPath.parse path2).lexicallyNormal
  if p1.filename ≠ p2.filename then false
  else (p1.elements.reverse.zip p2.elements.reverse).all fun e => e.1 = e.2

namespace CPG

/-- A node of the type `Method`. -/
structure FileMethod where
  /-- `getIdString`, by a number. -/
  id : ℕ
  /-- `getFileName`. -/
  fileName : List Char
  deriving DecidableEq, Repr

/-- `CPGNodeSet`. -/
abbrev CPGNodeSet := Finset FileMethod

/-- `file2Methods`: the methods of the program under the files that define them. -/
structure FileMap where
  /-- The files with their methods, in the order of an iteration. -/
  entries : List (List Char × CPGNodeSet)
  /-- A file is registered once. -/
  nodup : (entries.map Prod.fst).Nodup
  /-- A method is registered under its file. -/
  fileName_eq : ∀ entry ∈ entries, ∀ m ∈ entry.2, m.fileName = entry.1
  /-- A file is registered with its first method. -/
  nonempty : ∀ entry ∈ entries, entry.2.Nonempty

/-- The name that is looked up: without leading dots, of which there are two at most. -/
def cutDots (fileName : List Char) : List Char :=
  if "..".toList.isPrefixOf fileName then fileName.drop 2
  else if ".".toList.isPrefixOf fileName then fileName.drop 1
  else fileName

namespace FileMap

/-- Nothing is registered. -/
def empty : FileMap := ⟨[], List.nodup_nil, nofun, nofun⟩

variable (M : FileMap)

/-- The part of `CPG::addNode` that registers a method. -/
def addMethod (m : FileMethod) : FileMap :=
  if hm : m.fileName ∈ M.entries.map Prod.fst then
    { entries := M.entries.map fun entry =>
        if entry.1 = m.fileName then (entry.1, insert m entry.2) else entry
      nodup := by
        rw [List.map_map]
        convert M.nodup using 2
        funext entry
        rw [Function.comp_apply]
        split_ifs <;> rfl
      fileName_eq := by
        rintro _ hentry m' hm'
        obtain ⟨entry, hmem, rfl⟩ := List.mem_map.mp hentry
        split_ifs at hm' ⊢ with heq
        · rcases Finset.mem_insert.mp hm' with rfl | hm'
          · exact heq.symm
          · exact M.fileName_eq entry hmem m' hm'
        · exact M.fileName_eq entry hmem m' hm'
      nonempty := by
        rintro _ hentry
        obtain ⟨entry, hmem, rfl⟩ := List.mem_map.mp hentry
        split_ifs
        · exact Finset.insert_nonempty m entry.2
        · exact M.nonempty entry hmem }
  else
    { entries := M.entries ++ [(m.fileName, {m})]
      nodup := by
        rw [List.map_append, List.map_singleton, List.nodup_append]
        refine ⟨M.nodup, List.nodup_singleton _, fun f hf f' hf' heq => hm ?_⟩
        rwa [heq, List.mem_singleton.mp hf'] at hf
      fileName_eq := by
        intro entry hentry m' hm'
        rcases List.mem_append.mp hentry with hentry | hentry
        · exact M.fileName_eq entry hentry m' hm'
        · rw [List.mem_singleton.mp hentry] at hm' ⊢
          rw [Finset.mem_singleton.mp hm']
      nonempty := by
        intro entry hentry
        rcases List.mem_append.mp hentry with hentry | hentry
        · exact M.nonempty entry hentry
        · rw [List.mem_singleton.mp hentry]
          exact Finset.singleton_nonempty m }

/-- The test of the second layer on an entry. -/
def isLikely (result : List Char) (entry : List Char × CPGNodeSet) : Bool :=
  !entry.1.isEmpty && arePathsLikelySameFile entry.1 result

/-- The fourth layer: the methods of the files with a base name. -/
def methodsByBaseName (base : List Char) : CPGNodeSet :=
  if base = [] then ∅
  else
    M.entries.foldl (fun aggregated entry =>
      if entry.1 ≠ [] ∧ extractBaseFileName entry.1 = base then aggregated ∪ entry.2
      else aggregated) ∅

/-- `CPG::getMethodsByFileName`: the methods of a file, looked up by the full text, then by a likely
match. -/
def getMethodsByFileName (fileName : List Char) : CPGNodeSet :=
  let result := cutDots fileName
  match M.entries.find? fun entry => entry.1 = result with
  | some entry => entry.2
  | none =>
    match M.entries.find? (isLikely result) with
    | some entry => entry.2
    | none => M.methodsByBaseName (extractBaseFileName result)

/-- A file of this name is registered. -/
def IsRegistered (file : List Char) : Prop := file ∈ M.entries.map Prod.fst

/-- The entries whose files are likely the same. -/
def accepted (file : List Char) : List (List Char × CPGNodeSet) :=
  M.entries.filter fun entry => arePathsLikelySameFile entry.1 file

/-- The methods of a request are the same in every order of the map; and if its file is not
registered, the methods of all files that are likely the same are among them. -/
structure Complete (fileName : List Char) : Prop where
  /-- The order of the map does not matter. -/
  reordered : ∀ M' : FileMap, M'.entries.Perm M.entries →
    M'.getMethodsByFileName fileName = M.getMethodsByFileName fileName
  /-- No file is missed. -/
  covers : ¬M.IsRegistered (cutDots fileName) → ∀ entry ∈ M.accepted (cutDots fileName),
    entry.2 ⊆ M.getMethodsByFileName fileName

/-- One registered file at most is likely the same, and it has a name. -/
structure Clear (file : List Char) : Prop where
  /-- The methods without a file do not count as a file. -/
  named : ∀ entry ∈ M.accepted file, entry.1 ≠ []
  /-- There is one file at most. -/
  unique : ∀ entry ∈ M.accepted file, ∀ entry' ∈ M.accepted file, entry.1 = entry'.1

variable {M} {M' : FileMap} {file fileName base : List Char} {entry : List Char × CPGNodeSet}
  {m : FileMethod}

theorem mem_accepted_iff : entry ∈ M.accepted file ↔
    entry ∈ M.entries ∧ arePathsLikelySameFile entry.1 file = true := List.mem_filter

theorem isLikely_iff : isLikely file entry = true ↔
    entry.1 ≠ [] ∧ arePathsLikelySameFile entry.1 file = true := by
  rw [isLikely, Bool.and_eq_true, Bool.not_eq_true', ← Bool.not_eq_true, List.isEmpty_iff]

/-- An entry is determined by its file. -/
theorem entry_eq {entry' : List Char × CPGNodeSet} (h : entry ∈ M.entries)
    (h' : entry' ∈ M.entries) (heq : entry.1 = entry'.1) : entry = entry' :=
  List.inj_on_of_nodup_map M.nodup h h' heq

theorem IsRegistered.perm (hperm : M'.entries.Perm M.entries) :
    M'.IsRegistered file ↔ M.IsRegistered file := (hperm.map Prod.fst).mem_iff

/-- The first layer finds a file that is registered. -/
theorem find?_eq_none_iff :
    (M.entries.find? fun entry => entry.1 = file) = none ↔ ¬M.IsRegistered file := by
  rw [List.find?_eq_none, IsRegistered, List.mem_map]
  constructor
  · rintro h ⟨entry, hentry, rfl⟩
    exact h entry hentry (decide_eq_true rfl)
  · intro h entry hentry hfile
    exact h ⟨entry, hentry, of_decide_eq_true hfile⟩

theorem mem_methodsByBaseName : m ∈ M.methodsByBaseName base ↔ base ≠ [] ∧
    ∃ entry ∈ M.entries, (entry.1 ≠ [] ∧ extractBaseFileName entry.1 = base) ∧ m ∈ entry.2 := by
  have hfold : ∀ (l : List (List Char × CPGNodeSet)) (s : CPGNodeSet),
      m ∈ l.foldl (fun aggregated entry =>
        if entry.1 ≠ [] ∧ extractBaseFileName entry.1 = base then aggregated ∪ entry.2
        else aggregated) s ↔
      m ∈ s ∨ ∃ entry ∈ l, (entry.1 ≠ [] ∧ extractBaseFileName entry.1 = base) ∧ m ∈ entry.2 := by
    intro l
    induction l with
    | nil => simp
    | cons entry l ih =>
      intro s
      rw [List.foldl_cons, ih, List.exists_mem_cons_iff]
      split_ifs with hentry
      · rw [Finset.mem_union, or_assoc, and_iff_right hentry]
      · simp only [hentry, false_and, false_or]
  rw [methodsByBaseName]
  split_ifs with hbase
  · simp [hbase]
  · rw [hfold]
    simp [hbase]

theorem methodsByBaseName_perm (hperm : M'.entries.Perm M.entries) :
    M'.methodsByBaseName base = M.methodsByBaseName base := by
  ext m
  simp only [mem_methodsByBaseName, hperm.mem_iff]

/-- The lookup of a file that is not registered. -/
theorem getMethodsByFileName_of_not (h : ¬M.IsRegistered (cutDots fileName)) :
    M.getMethodsByFileName fileName =
      ((M.entries.find? (isLikely (cutDots fileName))).map Prod.snd).getD
        (M.methodsByBaseName (extractBaseFileName (cutDots fileName))) := by
  rw [getMethodsByFileName, find?_eq_none_iff.mpr h]
  cases M.entries.find? (isLikely (cutDots fileName)) <;> rfl

/-- It finds no methods without a file. -/
theorem fileName_ne_nil (h : ¬M.IsRegistered (cutDots fileName))
    (hm : m ∈ M.getMethodsByFileName fileName) : m.fileName ≠ [] := by
  rw [getMethodsByFileName_of_not h] at hm
  cases hfind : M.entries.find? (isLikely (cutDots fileName)) with
  | some entry =>
    rw [hfind, Option.map_some, Option.getD_some] at hm
    rw [M.fileName_eq entry (List.mem_of_find?_eq_some hfind) m hm]
    exact (isLikely_iff.mp (List.find?_some hfind)).1
  | none =>
    rw [hfind, Option.map_none, Option.getD_none] at hm
    obtain ⟨-, entry, hentry, ⟨hne, -⟩, hm⟩ := mem_methodsByBaseName.mp hm
    rwa [M.fileName_eq entry hentry m hm]

/-- A file with a name that is likely the same stops the search at one such file. -/
theorem exists_find?_isLikely (hentry : entry ∈ M.accepted file) (hne : entry.1 ≠ []) :
    ∃ entry' ∈ M.accepted file, M.entries.find? (isLikely file) = some entry' := by
  obtain ⟨hmem, hlikely⟩ := mem_accepted_iff.mp hentry
  obtain ⟨entry', hfind⟩ : ∃ entry', M.entries.find? (isLikely file) = some entry' := by
    rw [← Option.isSome_iff_exists, List.find?_isSome]
    exact ⟨entry, hmem, isLikely_iff.mpr ⟨hne, hlikely⟩⟩
  exact ⟨entry', mem_accepted_iff.mpr ⟨List.mem_of_find?_eq_some hfind,
    (isLikely_iff.mp (List.find?_some hfind)).2⟩, hfind⟩

/-- If the lookup misses no file, the file is registered or one at most is likely the same. -/
theorem Complete.clear (h : M.Complete fileName) (hreg : ¬M.IsRegistered (cutDots fileName)) :
    M.Clear (cutDots fileName) := by
  have hnamed : ∀ entry ∈ M.accepted (cutDots fileName), entry.1 ≠ [] := by
    intro entry hentry hnil
    have hmem := (mem_accepted_iff.mp hentry).1
    obtain ⟨m, hm⟩ := M.nonempty entry hmem
    exact fileName_ne_nil hreg (h.covers hreg entry hentry hm)
      ((M.fileName_eq entry hmem m hm).trans hnil)
  refine ⟨hnamed, fun entry hentry entry' hentry' => ?_⟩
  obtain ⟨found, hfound, hfind⟩ := exists_find?_isLikely hentry (hnamed entry hentry)
  -- All files are the one that is found, since their methods are among its methods.
  have hfile : ∀ e ∈ M.accepted (cutDots fileName), e.1 = found.1 := by
    intro e he
    have hmem := (mem_accepted_iff.mp he).1
    obtain ⟨m, hm⟩ := M.nonempty e hmem
    have hm' := h.covers hreg e he hm
    rw [getMethodsByFileName_of_not hreg, hfind, Option.map_some, Option.getD_some] at hm'
    rw [← M.fileName_eq e hmem m hm,
      M.fileName_eq found (mem_accepted_iff.mp hfound).1 m hm']
  rw [hfile entry hentry, hfile entry' hentry']

/-- The lookup of a registered file does not depend on the order. -/
theorem reordered_of_isRegistered (h : M.IsRegistered (cutDots fileName))
    (hperm : M'.entries.Perm M.entries) :
    M'.getMethodsByFileName fileName = M.getMethodsByFileName fileName := by
  obtain ⟨entry, hentry⟩ :
      ∃ entry, (M.entries.find? fun entry => entry.1 = cutDots fileName) = some entry := by
    rw [← Option.ne_none_iff_exists']
    exact fun hnone => find?_eq_none_iff.mp hnone h
  have hfind := find?_key_perm M.nodup hperm (cutDots fileName)
  rw [getMethodsByFileName, getMethodsByFileName, hfind, hentry]

/-- Nor does that of a file that one registered file at most is likely the same as. -/
theorem Clear.reordered (h : M.Clear (cutDots fileName))
    (hreg : ¬M.IsRegistered (cutDots fileName)) (hperm : M'.entries.Perm M.entries) :
    M'.getMethodsByFileName fileName = M.getMethodsByFileName fileName := by
  have hfind : M'.entries.find? (isLikely (cutDots fileName)) =
      M.entries.find? (isLikely (cutDots fileName)) := by
    refine find?_perm_of_unique hperm fun entry hentry entry' hentry' hl hl' => ?_
    exact entry_eq hentry hentry' <|
      h.unique entry (mem_accepted_iff.mpr ⟨hentry, (isLikely_iff.mp hl).2⟩)
        entry' (mem_accepted_iff.mpr ⟨hentry', (isLikely_iff.mp hl').2⟩)
  have hreg' : ¬M'.IsRegistered (cutDots fileName) := mt (IsRegistered.perm hperm).mp hreg
  rw [getMethodsByFileName_of_not hreg', getMethodsByFileName_of_not hreg, hfind,
    methodsByBaseName_perm hperm]

/-- Nor does it miss that file. -/
theorem Clear.covers (h : M.Clear (cutDots fileName)) (hreg : ¬M.IsRegistered (cutDots fileName))
    (hentry : entry ∈ M.accepted (cutDots fileName)) :
    entry.2 ⊆ M.getMethodsByFileName fileName := by
  obtain ⟨found, hfound, hfind⟩ := exists_find?_isLikely hentry (h.named entry hentry)
  have heq : found = entry := entry_eq (mem_accepted_iff.mp hfound).1 (mem_accepted_iff.mp hentry).1
    (h.unique found hfound entry hentry)
  rw [getMethodsByFileName_of_not hreg, hfind, heq, Option.map_some, Option.getD_some]

/-- **The lookup is complete** exactly if the file is registered, or one registered file at most is
likely the same. -/
theorem complete_iff (M : FileMap) (fileName : List Char) :
    M.Complete fileName ↔ M.IsRegistered (cutDots fileName) ∨ M.Clear (cutDots fileName) := by
  by_cases hreg : M.IsRegistered (cutDots fileName)
  · refine iff_of_true ⟨fun M' => reordered_of_isRegistered hreg, ?_⟩ (Or.inl hreg)
    exact fun hreg' => absurd hreg hreg'
  · rw [or_iff_right hreg]
    refine ⟨fun h => h.clear hreg, fun h => ⟨fun M' => h.reordered hreg, fun _ entry => ?_⟩⟩
    exact h.covers hreg

/-- Two files that are likely `a.c`. -/
def twoFiles : FileMap :=
  (empty.addMethod ⟨1, "x/a.c".toList⟩).addMethod ⟨2, "y/a.c".toList⟩

/-- A request for `a.c` misses the second one. -/
theorem twoFiles_not_complete : ¬twoFiles.Complete "a.c".toList := by
  intro h
  have hreg : ¬twoFiles.IsRegistered (cutDots "a.c".toList) := by
    rw [IsRegistered]
    decide +kernel
  have hmem : ("y/a.c".toList, ({⟨2, "y/a.c".toList⟩} : CPGNodeSet)) ∈
      twoFiles.accepted (cutDots "a.c".toList) := by decide +kernel
  have hmiss : (⟨2, "y/a.c".toList⟩ : FileMethod) ∉
      twoFiles.getMethodsByFileName "a.c".toList := by decide +kernel
  exact hmiss (h.covers hreg _ hmem (Finset.mem_singleton_self _))

end FileMap

end CPG

end Lace
