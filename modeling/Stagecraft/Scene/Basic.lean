import Stagecraft.Scene.Atom

/-!
# Scenes

A scene document is an object with a list of atoms: fields of its own, and the
atoms by id. Among the fields only the place of `atoms` is kept.

* `Scene.ofJson?`, `Scene.toJson`: a scene and its document.
* `Scene.pack`: adds atoms; an atom that is there already is left alone.
* `Scene.merge`: replaces whole fields.
-/

namespace Stagecraft

/-- The field that lists the atoms of a scene. -/
def atomsKey : String := "atoms"

structure Scene where
  fields : Fields
  atoms : Registry Atom

namespace Scene

/-- The atoms that a list of values describes. -/
def atomsOf? (vs : List Json) : Except Fault (Registry Atom) :=
  (vs.mapM Atom.ofJson?).map Registry.ofList

def ofJson? : Json → Except Fault Scene
  | .obj fs => match Fields.get? fs atomsKey with
    | some (.arr vs) => (atomsOf? vs).map fun as => ⟨Fields.clear fs atomsKey, as⟩
    | _ => .error .sceneWithoutAtoms
  | _ => .error .sceneNotObject

def toJson (s : Scene) : Json :=
  .obj (s.fields.set atomsKey (.arr (s.atoms.toList.map Atom.toJson)))

def field? (s : Scene) (key : String) : Option Json := s.fields.get? key

def atom? (s : Scene) (i : String) : Option Atom := s.atoms.get? i

/-- A storable of an atom, both by id. -/
def storable? (s : Scene) (atom storable : String) : Option Storable :=
  (s.atom? atom).bind (·.storable? storable)

/-- Adds an atom, or replaces the one of its id. -/
def putAtom (s : Scene) (a : Atom) : Scene := { s with atoms := s.atoms.insert a }

/-- Sets a field of a storable, if the scene has it. -/
def setStorableField (s : Scene) (atom storable key : String) (v : Json) : Scene :=
  match s.atom? atom with
  | none => s
  | some a => match a.storable? storable with
    | none => s
    | some t => s.putAtom (a.putStorable (t.setField key v))

/-- Adds atoms, each unless its id is in the scene by then. -/
def pack (s : Scene) (as : List Atom) : Scene := { s with atoms := s.atoms.addAllNew as }

def packCount (s : Scene) (as : List Atom) : Nat := (s.pack as).atoms.size - s.atoms.size

/-- Replaces whole fields by those of `data`; atoms replace the owned ones as a
whole. It stops at atoms that are none, and what came before them stays replaced. -/
def merge (s : Scene) : Fields → Scene × Except Fault Unit
  | [] => (s, .ok ())
  | (key, v) :: data =>
    if key = atomsKey then
      match v with
      | .arr vs => match atomsOf? vs with
        | .ok as => merge { s with atoms := as } data
        | .error f => (s, .error f)
      | _ => (s, .error .atomsNotList)
    else merge { s with fields := s.fields.set key v } data

/-- Equality up to the order of fields. -/
def same (s t : Scene) : Bool :=
  (Json.obj s.fields).same (.obj t.fields) && s.atoms.size == t.atoms.size
    && (s.atoms.toList.zip t.atoms.toList).all fun (a, b) => a.same b

end Scene

end Stagecraft
