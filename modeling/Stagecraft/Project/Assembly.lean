import Stagecraft.Catalog
import Stagecraft.Scene.Basic
import Stagecraft.Story.Capacity
import Stagecraft.Text.Cut

/-!
# Assembling the scenes of a project

The scenes of a project share their atoms: what is packed goes into every scene
that lacks it, and what stands in one scene stands switched off in the others.

* `ProjectScene`: a scene with the story that it plays, if any.
* `SceneSet.pack`, `SceneSet.packCount`: atoms into every scene.
* `SceneSet.capacity?`: what the stories need at most.
* `SceneSet.backfill`: the atoms of the scenes that no package owns, switched off.
-/

namespace Stagecraft

/-- A scene of a project, with the story that it plays. -/
structure ProjectScene where
  scene : Scene
  story : Option Story

/-- The scenes of a project by their paths below the build directory. -/
abbrev SceneSet := Catalog ProjectScene

namespace SceneSet

def mapScenes (f : Scene → Scene) (ss : SceneSet) : SceneSet :=
  ss.map fun (path, s) => (path, { s with scene := f s.scene })

def pack (ss : SceneSet) (as : List Atom) : SceneSet := ss.mapScenes (·.pack as)

/-- The number of atoms that packing adds to all scenes together. -/
def packCount (ss : SceneSet) (as : List Atom) : Nat :=
  ss.foldl (fun n (_, s) => n + s.scene.packCount as) 0

/-- The branches and buttons that suffice for each story, or the first fault. -/
def capacity? (ss : SceneSet) : Except Fault Capacity :=
  ss.foldlM (fun c (_, s) => match s.story with
    | none => .ok c
    | some story => story.capacity?.map c.max) Capacity.none

/-- Atoms whose id starts with this word, up to a `#`, belong to one scene only. -/
def ownWord : String := "AnimationStep"

/-- The atom belongs to the scene that has it. -/
def isOwn (a : Atom) : Bool := Text.beforeFirst ['#'] a.id.toList == ownWord.toList

/-- An atom as the other scenes carry it: switched off. -/
def hidden (a : Atom) : Atom := a.setField "on" (.str "false")

/-- The atoms that the scenes share: all that no package owns and no scene keeps to
itself. Of several with one id the last counts, at the place of the first. -/
def backfill (ss : SceneSet) (packages : Registry Atom) : Registry Atom :=
  let shared := ss.flatMap fun (_, s) => s.scene.atoms.toList.filter fun a =>
    !packages.contains a.id && !isOwn a
  Registry.ofList (shared.map hidden)

end SceneSet

end Stagecraft
