import Mathlib.Data.Char
import Mathlib.Data.List.Lex
import Mathlib.Data.Prod.Lex
import Lace.CCPG.NodeLoc
import Lace.CPG.MethodFiles

/-!
# Locations as keys

A location is compared, hashed and ordered by its line and the last name of its path. The order goes
on to the whole normalized path where both agree; the comparison and the hash do not.

## Main definitions

* `NodeLoc.ofFile`: a location from the path of the target, a path and a line;
* `NodeLoc.eq`, `NodeLoc.lt`, `NodeLoc.hash`: comparison, order and hash;
* `NodeLoc.KeysConsistent`: what ordered and hashed containers need of the three.

## Main results

* `NodeLoc.lt_iff`: the order is lexicographic in the last name, the line and the path;
* `NodeLoc.eq_eq_same`: two locations of files are compared as elsewhere in the model;
* `NodeLoc.keysConsistent_iff`: when the three are consistent.
-/

namespace Lace

open Library

/-- `NodeLoc::normalizePath`: the path without `.`, `..` and doubled slashes. -/
def normalizePath (path : List Char) : List Char := (PosixPath.parse path).lexicallyNormal.toText

theorem parse_normalizePath (path : List Char) :
    PosixPath.parse (normalizePath path) = (PosixPath.parse path).lexicallyNormal :=
  PosixPath.parse_toText _

/-- A normalized path is left alone. -/
@[simp]
theorem normalizePath_idem (path : List Char) :
    normalizePath (normalizePath path) = normalizePath path := by
  rw [normalizePath, parse_normalizePath, PosixPath.lexicallyNormal_idem, normalizePath]

/-- `NodeLoc::splitPath`. -/
def splitPath (path : List Char) : List (List Char) := (path.splitOn '/').filter (· ≠ [])

/-- The search for the first part of the absolute path at which it goes over into the other one. -/
def overlapIndex (absParts relParts : List (List Char)) : Option ℕ :=
  (List.range absParts.length).find? fun i => (absParts.drop i).isPrefixOf relParts

/-- `NodeLoc::mergePaths`. The absolute path loses its first separator where it has a part. -/
def mergePaths (absolutePath relativePath : List Char) : List Char :=
  if (PosixPath.parse relativePath).isAbsolute then normalizePath relativePath
  else
    let absParts := splitPath absolutePath
    let relParts := splitPath relativePath
    let rest := match overlapIndex absParts relParts with
      | some i => relParts.drop (absParts.length - i)
      | none => relParts
    normalizePath (['/'].intercalate absParts ++ rest.flatMap ('/' :: ·))

/-- Merged paths are normalized. -/
theorem normalizePath_mergePaths (absolutePath relativePath : List Char) :
    normalizePath (mergePaths absolutePath relativePath) =
      mergePaths absolutePath relativePath := by
  rw [mergePaths]
  split_ifs <;> exact normalizePath_idem _

namespace NodeLoc

/-! ### The fields -/

/-- `NodeLoc::NodeLoc`, with the absolute path of the target. -/
def ofFile (targetAbsolutePath fileName : String) (lineNumber : ℤ) : NodeLoc where
  fileName := String.ofList (mergePaths targetAbsolutePath.toList fileName.toList)
  lineNumber := lineNumber

/-- `normalizedFileName`, which the constructor computes from `fileName`. -/
def normalizedFileName (loc : NodeLoc) : List Char := normalizePath loc.fileName.toList

/-- `NodeLoc::getBaseFileName`: the name of the file, without its directories. -/
def getBaseFileName (loc : NodeLoc) : List Char := extractBaseFileName loc.normalizedFileName

/-- `NodeLoc::arePathsLikelySameFile`, without normalizing. -/
def arePathsLikelySameFile (path1 path2 : List Char) : Bool :=
  let components1 := (PosixPath.parse path1).elements
  let components2 := (PosixPath.parse path2).elements
  if components1.isEmpty || components2.isEmpty then false
  else if components1.getLast? ≠ components2.getLast? then false
  else (components1.reverse.zip components2.reverse).all fun e => e.1 = e.2

/-! ### Comparison, order and hash -/

/-- `NodeLoc::operator==`: two locations are the same when the lines and the names of the files
are. -/
def eq (loc other : NodeLoc) : Bool :=
  if loc.lineNumber ≠ other.lineNumber then false
  else if arePathsLikelySameFile loc.normalizedFileName other.normalizedFileName then true
  else loc.getBaseFileName = other.getBaseFileName

/-- `NodeLoc::operator<`: the order of the maps over locations, which goes by name, line and
path. -/
def lt (loc other : NodeLoc) : Bool :=
  let base1 := loc.getBaseFileName
  let base2 := other.getBaseFileName
  if base1 ≠ base2 then base1 < base2
  else if loc.lineNumber ≠ other.lineNumber then loc.lineNumber < other.lineNumber
  else loc.normalizedFileName < other.normalizedFileName

/-- `NodeLocHash`, over the hashes of names and lines. -/
def hash (hashString : List Char → BitVec 64) (hashInt : ℤ → BitVec 64) (nl : NodeLoc) :
    BitVec 64 :=
  hashString nl.getBaseFileName ^^^ (hashInt nl.lineNumber <<< 1)

/-- The comparison is an equivalence that the hash respects; the order is a strict weak order; and
what it does not order is what compares equal. -/
structure KeysConsistent (a b c : NodeLoc) : Prop where
  /-- The comparison is reflexive. -/
  eq_refl : a.eq a = true
  /-- It is symmetric. -/
  eq_symm : a.eq b = true → b.eq a = true
  /-- It is transitive. -/
  eq_trans : a.eq b = true → b.eq c = true → a.eq c = true
  /-- The hash respects it. -/
  hash_eq : a.eq b = true → ∀ hashString hashInt, a.hash hashString hashInt =
    b.hash hashString hashInt
  /-- The order is irreflexive. -/
  lt_irrefl : a.lt a = false
  /-- It is asymmetric. -/
  lt_asymm : a.lt b = true → b.lt a = false
  /-- It is transitive. -/
  lt_trans : a.lt b = true → b.lt c = true → a.lt c = true
  /-- What it does not order is transitive. -/
  incomparable_trans : a.lt b = false → b.lt a = false → b.lt c = false → c.lt b = false →
    a.lt c = false ∧ c.lt a = false
  /-- What it does not order compares equal, and the other way around. -/
  incomparable_iff : (a.lt b = false ∧ b.lt a = false) ↔ a.eq b = true

variable {a b c : NodeLoc}

/-- Paths that are likely the same have the same last name. -/
theorem filename_eq_of_arePathsLikelySameFile {path1 path2 : List Char}
    (h : arePathsLikelySameFile path1 path2 = true) :
    extractBaseFileName path1 = extractBaseFileName path2 := by
  rw [arePathsLikelySameFile] at h
  split_ifs at h with hempty hlast
  exact PosixPath.filename_eq_of_getLast? (not_not.mp hlast)

/-- The comparison reads the line and the last name. -/
theorem eq_iff : a.eq b = true ↔
    a.lineNumber = b.lineNumber ∧ a.getBaseFileName = b.getBaseFileName := by
  rw [eq]
  split_ifs with hline hsame
  · simp [hline]
  · have hbase : a.getBaseFileName = b.getBaseFileName :=
      filename_eq_of_arePathsLikelySameFile hsame
    simp [not_not.mp hline, hbase]
  · simp [not_not.mp hline]

/-- What the order compares. -/
def key (loc : NodeLoc) : List Char ×ₗ ℤ ×ₗ List Char :=
  toLex (loc.getBaseFileName, toLex (loc.lineNumber, loc.normalizedFileName))

/-- The order is lexicographic. -/
theorem lt_iff : a.lt b = true ↔ a.key < b.key := by
  rw [key, key, Prod.Lex.toLex_lt_toLex, Prod.Lex.toLex_lt_toLex, lt]
  split_ifs with hbase hline
  · simp [hbase]
  · simp [not_not.mp hbase, hline]
  · simp [not_not.mp hbase, not_not.mp hline]

theorem lt_eq_false_iff : a.lt b = false ↔ b.key ≤ a.key := by
  rw [← Bool.not_eq_true, lt_iff, not_lt]

theorem key_eq_iff : a.key = b.key ↔ a.getBaseFileName = b.getBaseFileName ∧
    a.lineNumber = b.lineNumber ∧ a.normalizedFileName = b.normalizedFileName := by
  rw [key, key, toLex_inj, Prod.mk.injEq, toLex_inj, Prod.mk.injEq]

/-- What the order does not tell apart has the same key. -/
theorem incomparable_iff_key : (a.lt b = false ∧ b.lt a = false) ↔ a.key = b.key := by
  rw [lt_eq_false_iff, lt_eq_false_iff, and_comm]
  exact le_antisymm_iff.symm

/-- Locations that the order does not tell apart compare equal. -/
theorem eq_of_key_eq (h : a.key = b.key) : a.eq b = true :=
  eq_iff.mpr ⟨(key_eq_iff.mp h).2.1, (key_eq_iff.mp h).1⟩

/-- The hash respects the comparison. -/
theorem hash_eq_of_eq (h : a.eq b = true) (hashString : List Char → BitVec 64)
    (hashInt : ℤ → BitVec 64) : a.hash hashString hashInt = b.hash hashString hashInt := by
  obtain ⟨hline, hbase⟩ := eq_iff.mp h
  rw [hash, hash, hline, hbase]

/-! ### Locations of files -/

/-- The path of the location of a file is normalized already. -/
theorem normalizedFileName_ofFile (targetAbsolutePath fileName : String) (lineNumber : ℤ) :
    (ofFile targetAbsolutePath fileName lineNumber).normalizedFileName =
      mergePaths targetAbsolutePath.toList fileName.toList := by
  rw [normalizedFileName, ofFile, String.toList_ofList, normalizePath_mergePaths]

/-- Its last name is what stands behind the last separator. -/
theorem getBaseFileName_ofFile (targetAbsolutePath fileName : String) (lineNumber : ℤ) :
    (ofFile targetAbsolutePath fileName lineNumber).getBaseFileName =
      (ofFile targetAbsolutePath fileName lineNumber).baseFileName.toList := by
  rw [getBaseFileName, normalizedFileName_ofFile, extractBaseFileName, PosixPath.filename_parse,
    baseFileName, ofFile, String.toList_ofList, String.toList_ofList]

/-- The two comparisons of the model agree on the locations of files. -/
theorem eq_eq_same (targetAbsolutePath fileName fileName' : String) (line line' : ℤ) :
    (ofFile targetAbsolutePath fileName line).eq (ofFile targetAbsolutePath fileName' line') =
      (ofFile targetAbsolutePath fileName line).same
        (ofFile targetAbsolutePath fileName' line') := by
  rw [Bool.eq_iff_iff, eq_iff, same_iff, getBaseFileName_ofFile, getBaseFileName_ofFile,
    String.toList_inj]

/-! ### Consistency -/

/-- **Locations are consistent keys** exactly if two of them with the same line and the same last
name have the same path. -/
theorem keysConsistent_iff (a b c : NodeLoc) : KeysConsistent a b c ↔
    (a.lineNumber = b.lineNumber → a.getBaseFileName = b.getBaseFileName →
      a.normalizedFileName = b.normalizedFileName) := by
  constructor
  · intro h hline hbase
    have hkey := incomparable_iff_key.mp (h.incomparable_iff.mpr (eq_iff.mpr ⟨hline, hbase⟩))
    exact (key_eq_iff.mp hkey).2.2
  · intro h
    exact
      { eq_refl := eq_iff.mpr ⟨rfl, rfl⟩
        eq_symm := fun hab => eq_iff.mpr ⟨(eq_iff.mp hab).1.symm, (eq_iff.mp hab).2.symm⟩
        eq_trans := fun hab hbc => eq_iff.mpr
          ⟨(eq_iff.mp hab).1.trans (eq_iff.mp hbc).1, (eq_iff.mp hab).2.trans (eq_iff.mp hbc).2⟩
        hash_eq := hash_eq_of_eq
        lt_irrefl := lt_eq_false_iff.mpr le_rfl
        lt_asymm := fun hab => lt_eq_false_iff.mpr (lt_iff.mp hab).le
        lt_trans := fun hab hbc => lt_iff.mpr ((lt_iff.mp hab).trans (lt_iff.mp hbc))
        incomparable_trans := fun hab hba hbc hcb => incomparable_iff_key.mpr
          ((incomparable_iff_key.mp ⟨hab, hba⟩).trans (incomparable_iff_key.mp ⟨hbc, hcb⟩))
        incomparable_iff := by
          refine incomparable_iff_key.trans ⟨eq_of_key_eq, fun hab => ?_⟩
          obtain ⟨hline, hbase⟩ := eq_iff.mp hab
          exact key_eq_iff.mpr ⟨hbase, hline, h hline hbase⟩ }

/-- A file by its absolute and by its relative path. -/
theorem absolute_relative_not_consistent :
    ¬KeysConsistent (ofFile "/k" "/k/x.c" 1) (ofFile "/k" "x.c" 1) (ofFile "/k" "x.c" 1) := by
  intro h
  have hne : mergePaths "/k".toList "/k/x.c".toList ≠ mergePaths "/k".toList "x.c".toList := by
    decide +kernel
  have heq : (ofFile "/k" "/k/x.c" 1).eq (ofFile "/k" "x.c" 1) = true := by
    rw [eq_eq_same]
    decide +kernel
  refine hne ?_
  have hkey := incomparable_iff_key.mp (h.incomparable_iff.mpr heq)
  rw [← normalizedFileName_ofFile _ _ 1, ← normalizedFileName_ofFile _ _ 1]
  exact (key_eq_iff.mp hkey).2.2

end NodeLoc

end Lace
