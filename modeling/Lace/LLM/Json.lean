import Mathlib.Algebra.Group.Nat.Defs
import Mathlib.Data.Int.Notation
import Mathlib.Data.Nat.Notation

/-!
# The arguments of a tool call

JSON values as `nlohmann::json` holds them, and the accessors with which the agents read the
arguments of a call. An accessor that throws returns `none`.

## Main definitions

* `Json`: a value;
* `Json.field`, `Json.contains`: the members of an object;
* `Json.getString`, `Json.getBool`, `Json.getInt`: `get`;
* `Json.valueString`, `Json.valueBool`: `value` with a default;
* `Json.dump`: the text of a value.

## Main results

* `exists_of_mem_mapM`: reading a list element by element.
-/

namespace Lace.LLM

/-- A JSON value. The members of an object are in the order of their keys, each key once. -/
inductive Json
  | null
  | bool (b : Bool)
  /-- A signed or unsigned integer. -/
  | int (n : ℤ)
  /-- A floating-point number: its text, and its value cut to an integer. -/
  | float (text : String) (cut : ℤ)
  | str (s : String)
  | arr (elems : List Json)
  | obj (fields : List (String × Json))

namespace Json

/-- The member of an object under a key. -/
def field : Json → String → Option Json
  | .obj fields, key => fields.lookup key
  | _, _ => none

/-- `contains`: an object has a member of that name. -/
def contains (j : Json) (key : String) : Bool := (j.field key).isSome

/-- `is_object`: whether a value has members. -/
def isObject : Json → Bool
  | .obj _ => true
  | _ => false

/-- `get<int>` of an integer: the conversion keeps the low 32 bits. -/
def toInt32 (n : ℤ) : ℤ := Int.bmod n (2 ^ 32)

/-- `is_number_integer`, with the value read by `get<int>`. -/
def asInteger : Json → Option ℤ
  | .int n => some (toInt32 n)
  | _ => none

/-- `is_string`, with the string. -/
def asString : Json → Option String
  | .str s => some s
  | _ => none

/-- `is_array`, with the elements. -/
def asArray : Json → Option (List Json)
  | .arr elems => some elems
  | _ => none

/-- `get<std::string>`; it throws unless the value is a string. -/
def getString (j : Json) : Option String := j.asString

/-- `get<bool>`; it throws unless the value is a truth value. -/
def getBool : Json → Option Bool
  | .bool b => some b
  | _ => none

/-- `get<int>`; it throws unless the value is a number or a truth value. -/
def getInt : Json → Option ℤ
  | .int n => some (toInt32 n)
  | .float _ cut => some cut
  | .bool b => some (if b then 1 else 0)
  | _ => none

/-- `value(key, default)` for a string; it throws if the value is no object, or the member is no
string. -/
def valueString (j : Json) (key default : String) : Option String :=
  if j.isObject then
    match j.field key with
    | none => some default
    | some v => v.getString
  else none

/-- `value(key, default)` for a truth value. -/
def valueBool (j : Json) (key : String) (default : Bool) : Option Bool :=
  if j.isObject then
    match j.field key with
    | none => some default
    | some v => v.getBool
  else none

/-- A hexadecimal digit. -/
def hexDigit (n : ℕ) : Char := "0123456789abcdef".toList.getD n '0'

/-- `dump_escaped`, one character. -/
def escapeChar (c : Char) : List Char :=
  match c.toNat with
  | 0x08 => ['\\', 'b']
  | 0x09 => ['\\', 't']
  | 0x0A => ['\\', 'n']
  | 0x0C => ['\\', 'f']
  | 0x0D => ['\\', 'r']
  | 0x22 => ['\\', c]
  | 0x5C => ['\\', c]
  | n => if n ≤ 0x1F then ['\\', 'u', '0', '0', hexDigit (n / 16), hexDigit (n % 16)] else [c]

/-- A string in quotation marks. -/
def quote (s : String) : String := "\"" ++ String.ofList (s.toList.flatMap escapeChar) ++ "\""

mutual

/-- `dump` without indentation. -/
def dump : Json → String
  | .null => "null"
  | .bool b => if b then "true" else "false"
  | .int n => toString n
  | .float text _ => text
  | .str s => quote s
  | .arr elems => "[" ++ String.intercalate "," (dumpElems elems) ++ "]"
  | .obj fields => "\x7b" ++ String.intercalate "," (dumpFields fields) ++ "\x7d"

/-- The texts of the elements of an array. -/
def dumpElems : List Json → List String
  | [] => []
  | j :: elems => j.dump :: dumpElems elems

/-- The texts of the members of an object. -/
def dumpFields : List (String × Json) → List String
  | [] => []
  | (key, v) :: fields => (quote key ++ ":" ++ v.dump) :: dumpFields fields

end

example : (obj [("confidence", str "High"), ("n", arr [int 3, null])]).dump =
    "\x7b\"confidence\":\"High\",\"n\":[3,null]\x7d" := by
  decide +kernel

end Json

/-! ### Lists of arguments -/

/-- An element of a list that was read element by element was read from one of them. -/
theorem exists_of_mem_mapM {α β : Type} {f : α → Option β} {l : List α} {l' : List β}
    (h : l.mapM f = some l') {b : β} (hb : b ∈ l') : ∃ a ∈ l, f a = some b := by
  induction l generalizing l' with
  | nil =>
    cases h
    cases hb
  | cons a l ih =>
    rw [List.mapM_cons] at h
    simp only [Option.pure_def, Option.bind_eq_bind, Option.bind_eq_some_iff] at h
    obtain ⟨b', hb', l'', hl'', heq⟩ := h
    cases heq
    rcases List.mem_cons.mp hb with rfl | hb
    · exact ⟨a, List.mem_cons_self, hb'⟩
    · obtain ⟨a', ha', hfa'⟩ := ih hl'' hb
      exact ⟨a', List.mem_cons_of_mem a ha', hfa'⟩

end Lace.LLM
