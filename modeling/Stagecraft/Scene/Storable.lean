import Stagecraft.Fault
import Stagecraft.Registry

/-!
# Storables

A storable is a block of properties that one atom owns: an object with a text
under `id`. The id is fixed; all other fields can be set.

* `Storable.ofJson?`, `Storable.toJson`: a storable and its object.
* `Storable.setField`, `Storable.merge`: edits.
-/

namespace Stagecraft

/-- The field that holds the id of a record. -/
def idKey : String := "id"

/-- The fields of a record and its id. -/
def recordOf? (kind : RecordKind) : Json → Except Fault (String × Fields)
  | .obj fs => match Fields.get? fs idKey with
    | some (.str i) => .ok (i, fs)
    | _ => .error (.noId kind)
  | v => .error (.notObject kind v)

/-- A block of properties of an atom. -/
structure Storable where
  id : String
  fields : Fields

instance : Keyed Storable := ⟨Storable.id⟩

namespace Storable

def ofJson? (v : Json) : Except Fault Storable :=
  (recordOf? .storable v).map fun (i, fs) => ⟨i, fs⟩

/-- The object of a storable. Its id is written over whatever stands there. -/
def toJson (s : Storable) : Json := .obj (s.fields.set idKey (.str s.id))

def field? (s : Storable) (key : String) : Option Json := s.fields.get? key

def setField (s : Storable) (key : String) (v : Json) : Storable :=
  { s with fields := s.fields.set key v }

/-- Replaces whole fields by those of `data`, the id left out. -/
def merge (s : Storable) (data : Fields) : Storable :=
  { s with fields := s.fields.setAll (data.filter (·.1 != idKey)) }

/-- Equality up to the order of fields. -/
def same (s t : Storable) : Bool := s.id == t.id && (Json.obj s.fields).same (.obj t.fields)

end Storable

end Stagecraft
