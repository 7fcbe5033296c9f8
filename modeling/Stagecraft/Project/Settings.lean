import Stagecraft.Catalog
import Stagecraft.Files.Tree
import Stagecraft.Fault
import Stagecraft.Json.Reader

/-!
# Settings files

The configuration says where the game, the projects and the templates are; the
blueprint of a project lists its scenes and packages. Both are records.

* `Config.load?`, `Config.resolve?`: the configuration, and its directories.
* `Blueprint.load?`: the blueprint of a project.
-/

namespace Stagecraft

open Json (Raw)

/-- The record of a settings file, read by `read`. -/
def loadSettings? (kind : SettingsKind) (read : Raw → Option α) (t : FileTree) (path : Path) :
    Except Fault α :=
  if t.isFile path then
    match t.readText path with
    | .error why => .error (.settingsUnreadable kind path why)
    | .ok text => match (Json.raw? text).bind read with
      | none => .error (.settingsNotJson kind path)
      | some a => .ok a
  else .error (.settingsMissing kind path)

/-- Where things are. -/
structure Config where
  /-- The directory of the game. -/
  game : Option Path := none
  projects : Path := .ofString "./projects"
  templates : Path := .ofString "./templates"

/-- The directories that a run works with. -/
structure BuildDirs where
  scenes : Path
  projects : Path
  templates : Path

namespace Config

def path? (r : Raw) : Option Path := r.text?.map Path.ofString

def ofRecord? (r : Raw) : Option Config :=
  match r.record? ["VAM_PATH", "PROJECTS_PATH", "TEMPLATES_PATH"] with
  | some [game, projects, templates] => do
    let standard : Config := {}
    let game ← Raw.optional? path? game
    let projects ← Raw.withDefault? path? standard.projects projects
    let templates ← Raw.withDefault? path? standard.templates templates
    some { game, projects, templates }
  | _ => none

def load? (t : FileTree) (path : Path) : Except Fault Config :=
  loadSettings? .config ofRecord? t path

/-- A directory that must be there. -/
def requireDir (t : FileTree) (dir : ConfiguredDir) (path : Path) : Except Fault Unit :=
  if t.isDir path then .ok () else .error (.dirMissing dir path)

/-- The directories of a configuration, all of which must be there. -/
def resolve? (c : Config) (t : FileTree) : Except Fault BuildDirs :=
  match c.game with
  | none => .error .gameNotSet
  | some game => do
    requireDir t .game game
    requireDir t .projects c.projects
    requireDir t .templates c.templates
    let scenes := (game.child "Saves").child "scene"
    requireDir t .scenes scenes
    .ok ⟨scenes, c.projects, c.templates⟩

end Config

/-- A scene that a project plans. -/
structure PlannedScene where
  path : String
  /-- The file of its story, below the project's directory. -/
  story : Option String
deriving DecidableEq

/-- The scenes and packages of a project. -/
structure Blueprint where
  scenes : List PlannedScene := []
  /-- How many instances of each package there are. -/
  packages : Catalog Nat := []

namespace PlannedScene

/-- The entry of a scene: its path, or an object that may name a story too. It is read
as a document `depth` levels deep, except that no field of it may stand twice. An
empty story path names none. -/
def ofEntry? (depth : Nat) (r : Raw) : Option PlannedScene :=
  match r, r.value? depth with
  | .str (some path), _ => some ⟨path, none⟩
  -- the document is not used: the entry must be one, fields that are not known included
  | .obj _, some _ => match r.record? ["scene_path", "dialog_path"] with
    | some [some path, story] => do
      let path ← path.text?
      let story ← Raw.optional? Raw.text? story
      some ⟨path, story.filter (· ≠ "")⟩
    | _ => none
  | _, _ => none

end PlannedScene

namespace Blueprint

/-- A count in a record: an integer literal of 64 bits without a sign. -/
def count? : Raw → Option Nat
  | .num (some (.int n)) => if 0 ≤ n then some n.toNat else none
  | _ => none

/-- The packages of a record. Of a package that stands twice the last count holds. -/
def packages? : Raw → Option (Catalog Nat)
  | .obj fs => (fs.mapM entry?).map Catalog.ofList
  | _ => none
where
  /-- A package and how many instances of it there are. -/
  entry? (e : Option String × Raw) : Option (String × Nat) := do
    let name ← e.1
    let n ← count? e.2
    some (name, n)

/-- The levels that are left inside an entry of the list of scenes. -/
def entryDepth : Nat := Json.maxDepth - 2

def ofRecord? (r : Raw) : Option Blueprint :=
  match r.record? ["scenes", "packages"] with
  | some [scenes, packages] => do
    let scenes ← Raw.withDefault? (fun v => v.items?.bind (·.mapM (PlannedScene.ofEntry? entryDepth)))
      [] scenes
    let packages ← Raw.withDefault? packages? [] packages
    some ⟨scenes, packages⟩
  | _ => none

/-- The name of the blueprint in the directory of a project. -/
def fileName : String := "blueprint.json"

def load? (t : FileTree) (path : Path) : Except Fault Blueprint :=
  loadSettings? .blueprint ofRecord? t path

end Blueprint

end Stagecraft
