import Stagecraft.Files.Path

/-!
# File trees

A file tree holds directories and files, each at a place: the names on the way
from the root. A path is followed name by name, and each name on the way must
be that of a directory; `..` goes up from where the path has come to. There are
no symbolic links, owners or permissions in a tree, and a log file that is
opened stays as it is: what is written there is left out.

* `FileTree.resolve`: the place that a path leads to.
* `isFile`, `isDir`, `readText`, `listBelow`: reading.
* `FileM`: changes of a tree; what was changed before a refusal stays changed.
* `makeDirs`, `write`, `removeDir`, `openLog`: the changes.
-/

namespace Stagecraft

/-- The names on the way from the root. -/
abbrev Place := List String

/-- What stands at a place. -/
inductive Entry where
  | dir
  | file (content : ByteArray)

instance : DecidableEq Entry
  | .dir, .dir => isTrue rfl
  | .dir, .file _ => isFalse nofun
  | .file _, .dir => isFalse nofun
  | .file a, .file b => match ByteArray.instDecidableEq a b with
    | isTrue h => isTrue (congrArg Entry.file h)
    | isFalse h => isFalse fun he => h (Entry.file.inj he)

/-- Directories and files. The root is always a directory and is not listed. -/
structure FileTree where
  entries : List (Place × Entry)
  /-- The current directory, where relative paths start. -/
  cwd : Place

/-- A change of a file tree, which can be refused half-way. -/
abbrev FileM := EStateM FileFault FileTree

namespace FileTree

/-- What stands at a place. -/
def entry? (t : FileTree) (p : Place) : Option Entry :=
  if p = [] then some .dir else (t.entries.find? (·.1 == p)).map (·.2)

/-- Entries with `e` at `p`: in place, or at the end. -/
def putEntry (p : Place) (e : Entry) : List (Place × Entry) → List (Place × Entry)
  | [] => [(p, e)]
  | (q, f) :: es => if q = p then (p, e) :: es else (q, f) :: putEntry p e es

def put (t : FileTree) (p : Place) (e : Entry) : FileTree :=
  { t with entries := putEntry p e t.entries }

/-- Takes away what stands at a place and below it. -/
def clear (t : FileTree) (p : Place) : FileTree :=
  { t with entries := t.entries.filter fun (q, _) => !p.isPrefixOf q }

/-- What stands below a place, with the names on the way from there. -/
def below (t : FileTree) (p : Place) : List (Place × Entry) :=
  t.entries.filterMap fun (q, e) =>
    if p.isPrefixOf q ∧ q ≠ p then some (q.drop p.length, e) else none

/-- The place that a part of a path leads to. -/
def enter (here : Place) (part : String) : Place :=
  if part = "" ∨ part = "." then here
  else if part = ".." then here.dropLast
  else here ++ [part]

/-- Follows the parts of a path. -/
def follow (t : FileTree) : Place → List String → Except FileFault Place
  | here, [] => .ok here
  | here, part :: parts => match t.entry? here with
    -- a name that is too long is refused only where it would be looked up
    | some .dir => match Path.partFault? part with
      | none => follow t (enter here part) parts
      | some f => .error f
    | some (.file _) => .error .notDirectory
    | none => .error .missing

/-- The place that a path leads to. Its last name need not be there. -/
def resolve (t : FileTree) (p : Path) : Except FileFault Place :=
  match p.fault? with
  | some f => .error f
  | none => match p.parts with
    | [] | [""] => .error .missing
    | "" :: parts => t.follow [] parts
    | parts => t.follow t.cwd parts

/-- What a path leads to. -/
def stat (t : FileTree) (p : Path) : Except FileFault Entry :=
  match t.resolve p with
  | .error f => .error f
  | .ok place => match t.entry? place with
    | none => .error .missing
    | some e => .ok e

def isFile (t : FileTree) (p : Path) : Bool :=
  match t.stat p with
  | .ok (.file _) => true
  | _ => false

def isDir (t : FileTree) (p : Path) : Bool :=
  match t.stat p with
  | .ok .dir => true
  | _ => false

def exists? (t : FileTree) (p : Path) : Bool := (t.stat p).isOk

def readText (t : FileTree) (p : Path) : Except FileFault String :=
  match t.stat p with
  | .error f => .error f
  | .ok .dir => .error .isDirectory
  | .ok (.file content) => match String.fromUTF8? content with
    | none => .error .notText
    | some s => .ok s

/-- What stands in a directory, and below that. -/
def listBelow (t : FileTree) (p : Path) : Except FileFault (List (Place × Entry)) :=
  match t.resolve p with
  | .error f => .error f
  | .ok place => match t.entry? place with
    | none => .error .missing
    | some (.file _) => .error .notDirectory
    | some .dir => .ok (t.below place)

/-- Why no file is written under a path that ends in a slash: it is taken for the path
of a directory, whatever its last name leads to. -/
def slashFault (t : FileTree) (p : Path) : FileFault :=
  match p.fault?, t.resolve p.holder with
  | some f, _ => f
  | none, .error f => f
  | none, .ok _ => .isDirectory

/-- Writes a file, in a directory that is there. -/
def write? (t : FileTree) (p : Path) (content : ByteArray) : Except FileFault FileTree :=
  if p.endsInSlash then .error (t.slashFault p)
  else match t.resolve p with
    | .error f => .error f
    | .ok place => match t.entry? place with
      | some .dir => .error .isDirectory
      -- a file that is there is overwritten
      | _ => .ok (t.put place (.file content))

/-- Makes a directory at a place, unless one is there. -/
def makeDirAt (place : Place) : FileM Place := fun t =>
  match t.entry? place with
  | none => .ok place (t.put place .dir)
  | some .dir => .ok place t
  | some (.file _) => .error .exists t

/-- Makes the directory of a path whose parts are given from the last one, and those
on the way to it that are missing. The place of it is returned. -/
def makeDirsBack : List String → FileM Place
  -- nothing is left of a relative path but where it starts
  | [] => fun t => match t.entry? t.cwd with
    | some .dir => .ok t.cwd t
    | _ => .error .missing t
  | part :: back => fun t => match t.resolve ⟨(part :: back).reverse⟩ with
    | .ok place => makeDirAt place t
    -- of all faults this is the one that directories on the way make up for
    | .error .missing => match makeDirsBack back t with
      | .error f t => .error f t
      | .ok here t => match Path.partFault? part with
        | none => makeDirAt (enter here part) t
        | some f => .error f t
    | .error f => .error f t

/-- Makes a directory, and those on the way to it that are missing. -/
def makeDirs (p : Path) : FileM Unit := do
  let _ ← makeDirsBack p.parts.reverse

def write (p : Path) (content : ByteArray) : FileM Unit := fun t =>
  match t.write? p content with
  | .ok t => .ok () t
  | .error f => .error f t

/-- Removes a directory with all that is in it. -/
def removeDir (p : Path) : FileM Unit := fun t =>
  match t.resolve p with
  | .error f => .error f t
  | .ok place => match t.entry? place with
    | none => .error .missing t
    | some (.file _) => .error .notDirectory t
    | some .dir => .ok () (t.clear place)

/-- Opens a file to add to it: it is made if it is not there. -/
def openLog (p : Path) : FileM Unit := fun t =>
  match t.stat p with
  | .ok (.file _) => .ok () t
  | _ => write p .empty t

end FileTree

end Stagecraft
