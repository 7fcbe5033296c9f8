import Stagecraft.Scene.Storable

/-!
# Atoms

An atom is an object of a scene: fields of its own, and the storables that it
owns by id. Its object lists the storables under `storables`; among the fields
only the place of that key is kept.

* `Atom.ofJson?`, `Atom.toJson`: an atom and its object.
* `Atom.setField`, `Atom.merge`: edits.
-/

namespace Stagecraft

/-- The field that lists the storables of an atom. -/
def storablesKey : String := "storables"

structure Atom where
  id : String
  fields : Fields
  storables : Registry Storable

instance : Keyed Atom := ⟨Atom.id⟩

namespace Atom

/-- The storables that a value lists for the atom `owner`. -/
def storablesOf? (owner : String) : Json → Except Fault (Registry Storable)
  | .arr vs => (vs.mapM Storable.ofJson?).map Registry.ofList
  | _ => .error (.storablesNotList owner)

def ofJson? (v : Json) : Except Fault Atom := do
  let (i, fs) ← recordOf? .atom v
  match fs.get? storablesKey with
  | none => .ok ⟨i, fs, .empty⟩
  | some listed => (storablesOf? i listed).map fun ss => ⟨i, fs.clear storablesKey, ss⟩

def toJson (a : Atom) : Json :=
  .obj ((a.fields.set idKey (.str a.id)).set storablesKey
    (.arr (a.storables.toList.map Storable.toJson)))

def field? (a : Atom) (key : String) : Option Json := a.fields.get? key

/-- Sets a field. The storables are no field. -/
def setField (a : Atom) (key : String) (v : Json) : Atom :=
  { a with fields := a.fields.set key v }

def storable? (a : Atom) (i : String) : Option Storable := a.storables.get? i

/-- Adds a storable, or replaces the one of its id. -/
def putStorable (a : Atom) (s : Storable) : Atom :=
  { a with storables := a.storables.insert s }

/-- Replaces whole fields by those of `data`, the id left out; storables replace
the owned ones as a whole. It stops at storables that are none, and what came
before them stays replaced. -/
def merge (a : Atom) : Fields → Atom × Except Fault Unit
  | [] => (a, .ok ())
  | (key, v) :: data =>
    if key = idKey then merge a data
    else if key = storablesKey then
      -- the fault names this atom, whatever id the data has
      match storablesOf? a.id v with
      | .ok ss => merge { a with storables := ss } data
      | .error f => (a, .error f)
    else merge (a.setField key v) data

/-- Equality up to the order of fields. -/
def same (a b : Atom) : Bool :=
  a.id == b.id && (Json.obj a.fields).same (.obj b.fields)
    && a.storables.size == b.storables.size
    && (a.storables.toList.zip b.storables.toList).all fun (s, t) => s.same t

end Atom

end Stagecraft
