import Stagecraft.Files.Tree
import Stagecraft.Scene.Basic
import Stagecraft.Story.Document

/-!
# Scenes and stories in files

* `Scene.load?`, `Scene.fileContent`: the scene in a file, and what is written for it.
* `Story.load?`: the story in a file.
-/

namespace Stagecraft

def Scene.load? (t : FileTree) (path : Path) : Except Fault Scene :=
  if t.isFile path then
    match t.readText path with
    | .error why => .error (.sceneUnreadable why)
    | .ok text => match Json.parse? text with
      | none => .error (.sceneNotJson path)
      | some v => Scene.ofJson? v
  else .error (.sceneMissing path)

/-- What the file of a scene holds. -/
def Scene.fileContent (s : Scene) : ByteArray := s.toJson.compact.toUTF8

def Story.load? (t : FileTree) (path : Path) : Except Fault Story :=
  if t.isFile path then
    match t.readText path with
    | .error why => .error (.storyUnreadable why)
    | .ok text => Story.parse? text (some path)
  else .error (.storyMissing path)

end Stagecraft
