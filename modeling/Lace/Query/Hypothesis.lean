import Mathlib.Data.List.Basic
import Lace.CCPG.Basic

/-!
# Hypotheses

What the model proposes and the verifier checks: nodes under role names, and constraints whose
arguments refer to them (`HypothesisVerifier.h`).

## Main definitions

* `JsonValue`: the argument values a constraint can carry;
* `VerificationConstraint`, `Hypothesis`: the types of the source;
* `Hypothesis.resolveNodeRef`: what an argument refers to.
-/

namespace Lace

/-- A JSON value, as far as arguments of constraints are told apart. -/
inductive JsonValue
  | null
  | bool (b : Bool)
  | int (n : ℤ)
  | str (s : String)
  /-- A floating-point number, by its value cut to an integer. -/
  | float (cut : ℤ)
  /-- An array or an object. -/
  | other
  deriving DecidableEq, Repr

/-- `VerificationConstraint`: a predicate and its arguments, a JSON object. -/
structure VerificationConstraint where
  /-- `predicate`. -/
  predicate : String
  /-- `args`. -/
  args : List (String × JsonValue)
  deriving DecidableEq, Repr

/-- `Hypothesis`: the fields that are read here. -/
structure Hypothesis where
  /-- `id`. -/
  id : String
  /-- `bug_category`. -/
  bugCategory : String
  /-- `nodes`: the node under each role name. -/
  nodes : List (String × NodeId)
  /-- `constraints`. -/
  constraints : List VerificationConstraint
  deriving DecidableEq, Repr

/-- `HypothesisVerifier::resolveNodeRef`: a node id, or the role name of one; `-1` if it is
neither. -/
def Hypothesis.resolveNodeRef (h : Hypothesis) : JsonValue → NodeId
  | .int n => n
  | .str ref => (h.nodes.lookup ref).getD (-1)
  | _ => -1

namespace VerificationConstraint

variable (c : VerificationConstraint)

/-- `args.value(key, json())`: an argument by its name; there is none by default. -/
def arg (key : String) : JsonValue :=
  (c.args.lookup key).getD .null

/-- `args.contains(key) ? args.at(key) : args.value(old, json())`: an argument with an older
name. -/
def argOr (key old : String) : JsonValue :=
  (c.args.lookup key).getD (c.arg old)

/-- `args.value(key, default)` for an integer: `get<int>` converts numbers and truth values, and
throws on anything else. -/
def intArg (key : String) (default : ℤ) : Option ℤ :=
  match c.args.lookup key with
  | none => some default
  | some (.int n) => some n
  | some (.float cut) => some cut
  | some (.bool b) => some (if b then 1 else 0)
  | some _ => none

/-- `args.value(key, default)` for a truth value; any other value throws. -/
def boolArg (key : String) (default : Bool) : Option Bool :=
  match c.args.lookup key with
  | none => some default
  | some (.bool b) => some b
  | some _ => none

end VerificationConstraint

end Lace
