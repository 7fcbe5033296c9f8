import Stagecraft.Files.Tree
import Stagecraft.Project.Settings
import Stagecraft.Template.Store

/-!
# Projects

A project is a directory with a blueprint. Its scenes are drawn by hand in a
directory of its name and built in another one beside that.

* `Project.open?`: the project of a name.
* `projectNames?`: the names of the projects in a directory.
-/

namespace Stagecraft

/-- A project, with the directories that it works in. -/
structure Project where
  name : String
  /-- Where the blueprint and the stories are. -/
  dir : Path
  /-- The scenes that were drawn by hand. -/
  source : Path
  /-- The scenes that are built. -/
  build : Path
  blueprint : Blueprint
  templates : TemplateStore

namespace Project

/-- The directory in which the scenes of a project are built. -/
def buildName (name : String) : String := name ++ ".scaffold"

def open? (t : FileTree) (dirs : BuildDirs) (name : String) : Except Fault Project := do
  let dir := dirs.projects.child name
  let blueprint ← Blueprint.load? t (dir.child Blueprint.fileName)
  let templates ← TemplateStore.open? t dirs.templates
  .ok { name, dir, blueprint, templates
        source := dirs.scenes.child name
        build := dirs.scenes.child (buildName name) }

end Project

/-- The names of the projects in a directory, in ascending order. A directory counts
only if its own path leads to it, which a path that grows too long does not. -/
def projectNames? (t : FileTree) (dir : Path) : Except Fault (List String) :=
  match t.listBelow dir with
  | .error why => .error (.projectsNotListed dir why)
  | .ok entries => .ok (Catalog.sorted (entries.filterMap fun (place, _) =>
      match place with
      | [name] => if t.isDir (dir.child name) then some name else none
      | _ => none))

end Stagecraft
