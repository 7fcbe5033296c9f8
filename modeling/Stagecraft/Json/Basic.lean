import Stagecraft.Json.Number

/-!
# Documents

A document value is null, a truth value, a number, a text, a list or an
object. An object keeps its fields in the order of their first appearance.

* `Json`: the values.
* `Fields.get?`, `Fields.set`: a field of an object, and its replacement in place.
* `Fields.clear`: a field whose key stays behind with null.
* `Json.same`: equality up to the order of fields.
-/

namespace Stagecraft

open Json (Number)

/-- A document value. -/
inductive Json where
  | null
  | bool (b : Bool)
  | num (n : Number)
  | str (s : String)
  | arr (items : List Json)
  | obj (fields : List (String × Json))
deriving Inhabited, Repr, BEq

/-- The fields of an object, in order. -/
abbrev Fields := List (String × Json)

namespace Fields

def get? : Fields → String → Option Json
  | [], _ => none
  | (k, v) :: fs, key => if k = key then some v else get? fs key

/-- Sets a field: in place if the key is there, else at the end. -/
def set : Fields → String → Json → Fields
  | [], key, v => [(key, v)]
  | (k, w) :: fs, key, v => if k = key then (k, v) :: fs else (k, w) :: set fs key v

/-- Sets several fields, one after the other. -/
def setAll (fs : Fields) (entries : List (String × Json)) : Fields :=
  entries.foldl (fun fs e => fs.set e.1 e.2) fs

/-- Empties a field whose value is taken out; its key keeps the place. -/
def clear (fs : Fields) (key : String) : Fields :=
  if (fs.get? key).isSome then fs.set key .null else fs

def keys (fs : Fields) : List String := fs.map (·.1)

@[simp] theorem get?_set_self (fs : Fields) (key : String) (v : Json) :
    (fs.set key v).get? key = some v := by
  fun_induction set fs key v <;> simp_all [get?]

theorem get?_set_of_ne (fs : Fields) {key other : String} (v : Json) (h : other ≠ key) :
    (fs.set key v).get? other = fs.get? other := by
  fun_induction set fs key v <;> simp_all [get?, Ne.symm h]

/-- A present key moves nothing, and a new one goes to the end. -/
theorem keys_set (fs : Fields) (key : String) (v : Json) :
    (fs.set key v).keys = if key ∈ fs.keys then fs.keys else fs.keys ++ [key] := by
  fun_induction set fs key v <;> grind [keys]

end Fields

namespace Json

/-- The text of a text value. -/
def text? : Json → Option String
  | .str s => some s
  | _ => none

/-- The items of a list. -/
def items? : Json → Option (List Json)
  | .arr vs => some vs
  | _ => none

/-- The fields of an object. -/
def fields? : Json → Option Fields
  | .obj fs => some fs
  | _ => none

/-- A field of an object; other values have no fields. -/
def field? (v : Json) (key : String) : Option Json :=
  v.fields?.bind (·.get? key)

/-- An object, from entries of which a later one replaces an earlier one of its key. -/
def ofEntries (entries : List (String × Json)) : Json :=
  .obj (Fields.setAll [] entries)

/-- Numbers are the same as integers or as doubles; the two zeros of a double are the same. -/
def Number.same : Number → Number → Bool
  | .int a, .int b => a == b
  | .float x, .float y => x == y
  | _, _ => false

mutual

/-- Equality of values; the order of an object's fields does not count. -/
def same : Json → Json → Bool
  | .null, .null => true
  | .bool a, .bool b => a == b
  | .num a, .num b => a.same b
  | .str a, .str b => a == b
  | .arr as, .arr bs => sameItems as bs
  | .obj fs, .obj gs => fs.length == gs.length && sameFields fs gs
  | _, _ => false

/-- Equality of items, one by one. -/
def sameItems : List Json → List Json → Bool
  | [], [] => true
  | a :: as, b :: bs => same a b && sameItems as bs
  | _, _ => false

/-- Each field has a counterpart in `gs`. -/
def sameFields : List (String × Json) → List (String × Json) → Bool
  | [], _ => true
  | (k, v) :: fs, gs =>
    (match Fields.get? gs k with
      | some w => same v w
      | none => false) && sameFields fs gs

end

end Json

end Stagecraft
