import Stagecraft.Json.Basic

/-!
# Values as they stand in a text

A text can be well formed and still hold what no document value can be: a
number beyond the doubles, half of a surrogate pair, a key that stands twice,
lists nested without end. Whether that matters depends on the reader: a
document is refused, a record ignores the fields that it does not know.

* `Raw`: the tree of a well-formed text.
* `Raw.value?`: the document value, nested to a limit.
* `Raw.record?`: the fields of a record, in the order of their declaration.
-/

namespace Stagecraft.Json

/-- A value of a text; the missing parts have no meaning as a document. -/
inductive Raw where
  | null
  | bool (b : Bool)
  | num (n : Option Number)
  | str (s : Option String)
  | arr (items : List Raw)
  | obj (fields : List (Option String × Raw))
deriving Inhabited

namespace Raw

mutual

/-- The document value, with at most `depth` lists and objects inside each other.
Of a key that stands twice the first place and the last value count. -/
def value? (depth : Nat) : Raw → Option Json
  | .null => some .null
  | .bool b => some (.bool b)
  | .num n => n.map .num
  | .str s => s.map .str
  | .arr vs => match depth with
    | 0 => none
    | depth + 1 => (values? depth vs).map .arr
  | .obj fs => match depth with
    | 0 => none
    | depth + 1 => (entries? depth fs).map .ofEntries

/-- The values of a list of items. -/
def values? (depth : Nat) : List Raw → Option (List Json)
  | [] => some []
  | v :: vs => do
    let w ← value? depth v
    let ws ← values? depth vs
    some (w :: ws)

/-- The keys and values of the entries of an object. -/
def entries? (depth : Nat) : List (Option String × Raw) → Option (List (String × Json))
  | [] => some []
  | (k, v) :: fs => do
    let key ← k
    let w ← value? depth v
    let es ← entries? depth fs
    some ((key, w) :: es)

end

/-- The fields of a record: an object, which may hold other fields and none of
`keys` twice, or a list of the fields in their order, of which the last may be
left out. -/
def record? (keys : List String) : Raw → Option (List (Option Raw))
  | .obj fs =>
    -- a field that is not known may stand twice
    let once := keys.all fun k => (fs.filter (·.1 == some k)).length ≤ 1
    if fs.all (·.1.isSome) && once then some (keys.map fun k => fs.lookup (some k)) else none
  | .arr vs =>
    if vs.length ≤ keys.length then
      some (vs.map some ++ List.replicate (keys.length - vs.length) none)
    else none
  | _ => none

/-- The text of a text value. -/
def text? : Raw → Option String
  | .str s => s
  | _ => none

/-- The items of a list. -/
def items? : Raw → Option (List Raw)
  | .arr vs => some vs
  | _ => none

/-- A field that may be absent or null. -/
def optional? (read : Raw → Option α) : Option Raw → Option (Option α)
  | none | some .null => some none
  | some v => (read v).map some

/-- A field that has a default. -/
def withDefault? (read : Raw → Option α) (default : α) : Option Raw → Option α
  | none => some default
  | some v => read v

end Raw

end Stagecraft.Json
