import Stagecraft.Files.Tree
import Stagecraft.Json.Reader
import Stagecraft.Scene.Basic
import Stagecraft.Template.Placeholder

/-!
# Templates

Templates are files below a directory, known by their names without the
extension. A template is filled in as text and read as a document afterwards.
The template of atoms is a list of their objects.

* `TemplateStore.pathOf`: the file of a template.
* `TemplateStore.load?`, `TemplateStore.instantiate?`: the document of a template, and its atoms.
* `TemplateStore.package?`: several instances of a package, with numbered ids.
-/

namespace Stagecraft

/-- Templates below a directory. -/
structure TemplateStore where
  root : Path

namespace TemplateStore

/-- The templates below a directory that is there. -/
def open? (t : FileTree) (root : Path) : Except Fault TemplateStore :=
  if t.isDir root then .ok ⟨root⟩ else .error (.templatesMissing root)

/-- `root` with names below it, the last one with the extension of documents. -/
def pathBelow (root : Path) : List String → Path
  | [] => root
  | [name] => root.join ⟨[name ++ ".json"]⟩
  | name :: names => pathBelow (root.join ⟨[name]⟩) names

def pathOf (s : TemplateStore) (name : String) : Path :=
  pathBelow s.root ((Text.pieces '/' name.toList).map String.ofList)

def read? (s : TemplateStore) (t : FileTree) (name : String) : Except Fault String :=
  let path := s.pathOf name
  if t.isFile path then
    match t.readText path with
    | .ok text => .ok text
    | .error why => .error (.templateUnreadable path why)
  else .error (.templateMissing name path)

/-- The document of a template text whose placeholders are filled in. -/
def parse? (name : String) (values : Placeholders) (text : String) : Except Fault Json :=
  match Placeholder.expand name values text.toList with
  | .error f => .error f
  | .ok filled => match Json.parse? (String.ofList filled) with
    | none => .error (.templateNotJson name)
    | some v => .ok v

def load? (s : TemplateStore) (t : FileTree) (name : String) (values : Placeholders) :
    Except Fault Json :=
  match s.read? t name with
  | .error f => .error f
  | .ok text => parse? name values text

def instantiate? (s : TemplateStore) (t : FileTree) (name : String) (values : Placeholders) :
    Except Fault (List Atom) :=
  match s.load? t name values with
  | .error f => .error f
  | .ok (.arr vs) => vs.mapM Atom.ofJson?
  | .ok _ => .error (.templateNotList name)

/-- The lists that `make` gives for `n` numbers from `i` on, joined. It stops at the first
fault. -/
def gather (make : Nat → Except Fault (List Atom)) : (i n : Nat) → Except Fault (List Atom)
  | _, 0 => .ok []
  | i, n + 1 => match make i with
    | .error f => .error f
    | .ok as => (gather make (i + 1) n).map (as ++ ·)

/-- The id of an instance of a package, counted from 1: the first name on the way to
the package, with the number from the second instance on. -/
def instanceId (package : String) (i : Nat) : String :=
  -- packages below one name share its ids
  let base := String.ofList (Text.beforeFirst ['/'] package.toList)
  if i ≤ 1 then base else base ++ "#" ++ String.ofList (Decimal.digitsOf i)

/-- The atoms of `count` instances of a package. -/
def package? (s : TemplateStore) (t : FileTree) (package : String) (count : Nat) :
    Except Fault (List Atom) :=
  gather (fun i => s.instantiate? t ("packages/" ++ package) { id := some (instanceId package i) })
    1 count

end TemplateStore

end Stagecraft
