import Mathlib.Data.List.Basic
import Lace.CCPG.Basic

/-!
# Source locations

`NodeLoc`: the file and the line of a node. Two locations count as equal when their lines are, and
the last components of their paths. `arePathsLikelySameFile`, which the comparison asks first, is
true only of paths that agree in the last component.

## Main definitions

* `NodeLoc`, `NodeLoc.same`: a location and its comparison.
-/

namespace Lace

/-- `NodeLoc`: the fields that are read here. -/
structure NodeLoc where
  /-- `getFileName`, merged with the path of the target and normalized. -/
  fileName : String
  /-- `getLineNumber`; not positive where the node has no line. -/
  lineNumber : ℤ
  deriving DecidableEq, Repr

namespace NodeLoc

/-- `getBaseFileName`: the last component of the path. -/
def baseFileName (loc : NodeLoc) : String :=
  String.ofList (loc.fileName.toList.reverse.takeWhile (· ≠ '/')).reverse

/-- `operator==`: the comparison that the maps over locations are searched with. -/
def same (loc loc' : NodeLoc) : Bool :=
  loc.lineNumber = loc'.lineNumber && loc.baseFileName = loc'.baseFileName

theorem same_iff {loc loc' : NodeLoc} : loc.same loc' = true ↔
    loc.lineNumber = loc'.lineNumber ∧ loc.baseFileName = loc'.baseFileName := by
  rw [same, Bool.and_eq_true, decide_eq_true_eq, decide_eq_true_eq]

@[simp]
theorem same_refl (loc : NodeLoc) : loc.same loc = true := same_iff.mpr ⟨rfl, rfl⟩

theorem same_comm {loc loc' : NodeLoc} (h : loc.same loc' = true) : loc'.same loc = true :=
  same_iff.mpr ⟨(same_iff.mp h).1.symm, (same_iff.mp h).2.symm⟩

theorem same_trans {loc loc' loc'' : NodeLoc} (h : loc.same loc' = true)
    (h' : loc'.same loc'' = true) : loc.same loc'' = true :=
  same_iff.mpr ⟨(same_iff.mp h).1.trans (same_iff.mp h').1,
    (same_iff.mp h).2.trans (same_iff.mp h').2⟩

end NodeLoc

end Lace
