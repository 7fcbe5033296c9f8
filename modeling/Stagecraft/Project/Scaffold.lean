import Stagecraft.Project.Assembly
import Stagecraft.Project.Basic
import Stagecraft.Project.Documents
import Stagecraft.Stage.Compile
import Stagecraft.Stage.Pool
import Stagecraft.Text.Caseless

/-!
# Scaffolding a project

The build directory is made anew from the scenes that were drawn by hand. Then
the scenes are assembled, which changes no file, and at last they are saved.

* `Project.prepare`: the build directory as a copy of the source directory.
* `Project.assemble?`: the scenes of the project, with their stories compiled.
* `Project.save`: the scenes into the build directory.
* `Project.scaffold`: the three in a row.
-/

namespace Stagecraft

open Stage

/-- Work on files that can fail half-way. -/
abbrev Work := EStateM Fault FileTree

/-- A change of files, whose refusal is a fault. -/
def FileM.orFault (fault : FileFault → Fault) (change : FileM α) : Work α := fun t =>
  match change t with
  | .ok a t => .ok a t
  | .error why t => .error (fault why) t

/-- What a scaffold did. -/
structure Report where
  scenes : Nat
  packageAtoms : Nat
  dialogAtoms : Nat
  backfillAtoms : Nat
  capacity : Capacity
  compiled : Nat
deriving DecidableEq, Repr

namespace Project

/-- Copies what was listed below a directory into another one. -/
def copyAll (target : Path) : List (Place × Entry) → Work Unit
  | [] => pure ()
  | (place, e) :: entries => do
    let path := target.join ⟨place⟩
    match e with
    | .dir => (FileTree.makeDirs path).orFault (.sceneNotCopied path)
    | .file content => (FileTree.write path content).orFault (.sceneNotCopied path)
    copyAll target entries

/-- Makes directories one in another below a place, of the names given, as far as their
paths can be followed. -/
def copyDown (target : Path) (place : Place) : List String → Work Unit
  | [] => pure ()
  | name :: names => fun t =>
    let path := target.join ⟨[name]⟩
    match path.fault? with
    | some f => .error (.sceneNotCopied path f) t
    | none => copyDown path (place ++ [name]) names (t.put (place ++ [name]) .dir)

/-- Where the source directory and the build directory are, if the second is inside
the first. -/
def nested? (p : Project) (t : FileTree) : Option (Place × Place) :=
  match t.resolve p.source, t.resolve p.build with
  | .ok source, .ok build => if source.isPrefixOf build then some (source, build) else none
  | _, _ => none

/-- Makes the build directory a copy of the source directory, or takes it away if
there is none. Inside the source the build directory is itself among what is copied:
each copy of it holds another one, until the path of one is too long. -/
def prepare (p : Project) : Work Unit := do
  if (← get).exists? p.build then
    (FileTree.removeDir p.build).orFault (.buildDirNotCleared p.build)
  match (← get).listBelow p.source with
  -- without a source directory there is no build directory until a scene is saved
  | .error _ => pure ()
  | .ok entries => match p.nested? (← get) with
    -- the empty name is the build directory itself
    | none => copyAll p.build (([""], .dir) :: entries)
    | some (source, build) => do
      copyAll p.build [([""], .dir)]
      -- each name takes a byte at least, so no path holds so many
      copyDown p.build build (List.replicate Path.maxBytes (build.drop source.length)).flatten

/-- A scene path with slashes only. -/
def slashed (path : String) : String :=
  String.ofList (path.toList.map fun c => if c = '\\' then '/' else c)

/-- The file name of a scene ends like that of a document, in any letter case. -/
def isScenePath (path : String) : Bool :=
  ".json".toList.isSuffixOf (path.toList.map Text.small)

variable (p : Project) (t : FileTree)

/-- The scenes in the build directory, by their paths below it. -/
def existing : List String :=
  match t.listBelow p.build with
  | .error _ => []
  | .ok entries => Catalog.sorted (entries.filterMap fun (place, e) => match e with
      | .dir => none
      | .file _ =>
        if Path.hasExtension (place.getLast?.getD "") "json" then
          some (slashed ("/".intercalate place))
        else none)

/-- The scenes to build, each with the file of its story: those of the blueprint, and
the others that exist. -/
def planned : Catalog (Option String) :=
  let listed := Catalog.ofList (p.blueprint.scenes.map fun s => (slashed s.path, s.story))
  (p.existing t).foldl (fun c path =>
    if (Catalog.get? c path).isSome then c else Catalog.set path none c) listed

/-- A scene to build: the one that exists, or a fresh one, with its story. -/
def loadScene? (existing : List String) (path : String) (story : Option String) :
    Except Fault ProjectScene :=
  if isScenePath path then do
    let story ← match story with
      | none => .ok none
      | some file => (Story.load? t (p.dir.child file)).map some
    let scene ←
      if path ∈ existing then Scene.load? t (p.build.child path)
      else (p.templates.load? t "scene" {}).bind Scene.ofJson?
    .ok ⟨scene, story⟩
  else .error (.scenePathInvalid path p.name)

def loadScenes? : Except Fault SceneSet :=
  let existing := p.existing t
  (p.planned t).mapM fun (path, story) => (p.loadScene? t existing path story).map (path, ·)

/-- The atoms of the packages, and those of every project. -/
def packageAtoms? : Except Fault (Registry Atom) := do
  let common ← p.templates.instantiate? t "default" {}
  p.blueprint.packages.foldlM
    (fun r (name, count) => (p.templates.package? t name count).map r.insertAll)
    (Registry.ofList common)

/-- Compiles the stories into their scenes. -/
def compileAll? (template : Trigger) (slots : Nat) (ss : SceneSet) : Except Fault SceneSet :=
  ss.mapM fun (path, s) => match s.story with
    | none => .ok (path, s)
    | some story => match (Compiler.mk story template slots).run s.scene with
      | (scene, .ok _) => .ok (path, { s with scene })
      | (_, .error f) => .error f

def storyCount (ss : SceneSet) : Nat := (ss.filter fun (_, s) => s.story.isSome).length

/-- The scenes with what belongs into each: the pool, the packages, and the atoms of
the other scenes. -/
def stocked (ss : SceneSet) (pool packages : Registry Atom) : SceneSet × Registry Atom :=
  let ss := ss.pack pool.toList
  -- the pool is among what the scenes share, so it is packed before
  let shared := ss.backfill packages
  ((ss.pack packages.toList).pack shared.toList, shared)

/-- The scenes of the project, with their stories compiled. Without packages no story
is compiled. -/
def assemble? : Except Fault (SceneSet × Report) := do
  let packages ← p.packageAtoms? t
  let ss ← p.loadScenes? t
  let capacity ← ss.capacity?
  let pool := Registry.ofList (← pool? p.templates t capacity)
  let (ss, shared) := stocked ss pool packages
  let compiled := if packages.isEmpty then 0 else storyCount ss
  let ss ← if compiled = 0 then .ok ss else do
    let template ← triggerTemplate? p.templates t
    compileAll? template capacity.choices ss
  .ok (ss, ⟨ss.length, packages.size, pool.size, shared.size, capacity, compiled⟩)

/-- Saves scenes into the build directory. -/
def save : SceneSet → Work Unit
  | [] => pure ()
  | (path, s) :: ss => do
    let target := p.build.child path
    (FileTree.makeDirs target.parent).orFault (.sceneNotWritten target.parent)
    (FileTree.write target s.scene.fileContent).orFault (.sceneNotWritten target)
    save ss

/-- Builds the scenes of the project. -/
def scaffold : Work Report := do
  p.prepare
  match p.assemble? (← get) with
  | .error f => throw f
  | .ok (ss, report) => do
    p.save ss
    pure report

end Project

end Stagecraft
