import Stagecraft.Scene.Basic
import Stagecraft.Stage.Trigger
import Stagecraft.Story.Script

/-!
# Compiling a story into a scene

The script of a story is performed on a scene: a branch that is entered must
have its atoms, and a branch that is written down gets the triggers of its
timeline and its length. A fault ends the performance, and what was written
before stays.

* `Compiler.enter?`, `Compiler.write`: one step.
* `Compiler.perform`: the steps up to the first fault.
* `Compiler.run`: the whole story.
-/

namespace Stagecraft

open Stage

/-- What a compilation is made from. -/
structure Compiler where
  story : Story
  /-- A trigger that was not there before starts as this one. -/
  template : Trigger
  /-- The number of choice buttons in the scene. -/
  slots : Nat

/-- The branches of a compiled story, in the order of their numbers. -/
structure Compiled where
  /-- The passage that heads a branch, and the atom that plays it. -/
  branches : List (String × String)
  durations : List (String × Float)

namespace Compiler

/-- The storable of a branch that holds its triggers. -/
def patternId : String := "AnimationPattern"

/-- The field of `patternId` that lists the triggers. -/
def triggersKey : String := "triggers"

/-- The storable, in the atom beside a branch, that holds its length. -/
def stepId : String := "Step"

/-- The field of `stepId` with the length in seconds. -/
def lengthKey : String := "transitionToTime"

/-- The atom of the branch that a passage heads, where `heads` are numbered in order. -/
def branchOf (heads : List String) (name : String) : String := branchId (heads.idxOf name + 1)

/-- The timeline of the branch that a passage heads. -/
def timelineOf (c : Compiler) (name : String) : Timeline :=
  match c.story.opening? name with
  | some p => c.story.timeline p
  | none => ⟨[], .stop⟩

def require? (s : Scene) (atom storable : String) : Except Fault Unit :=
  if (s.storable? atom storable).isSome then .ok () else .error (.branchMissing atom storable)

/-- A branch that is entered has its length, and then its triggers. -/
def enter? (s : Scene) (branch : String) : Except Fault Unit :=
  match require? s (durationId branch) stepId with
  | .ok () => require? s branch patternId
  | .error f => .error f

/-- The values listed as the triggers of a branch. -/
def listed (s : Scene) (branch : String) : List Json :=
  match (s.storable? branch patternId).bind (·.field? triggersKey) with
  | some (.arr vs) => vs
  | _ => []

/-- The trigger that a passage had in a list of values, or a fresh one. -/
def earlier (c : Compiler) (vs : List Json) (passage : String) : Trigger :=
  match Trigger.find? (displayName passage) vs with
  | some t => t
  | none => c.template.set Trigger.nameKey (.str (displayName passage))

/-- The triggers of beats, of which the first may start a branch. -/
def triggers (c : Compiler) (heads : List String) (vs : List Json) : Bool → List Beat → List Trigger
  | _, [] => []
  | first, b :: bs =>
    b.trigger c.slots (branchOf heads) first (c.earlier vs b.passage.name)
      :: triggers c heads vs false bs

/-- Writes a branch down: its triggers, then its length. -/
def write (c : Compiler) (heads : List String) (s : Scene) (name : String) : Scene :=
  let t := c.timelineOf name
  -- the triggers that were there are read from the scene as it is by now
  let branch := branchOf heads name
  let made := (c.triggers heads (listed s branch) true t.beats).map Json.obj
  (s.setStorableField branch patternId triggersKey (.arr made)).setStorableField
    (durationId branch) stepId lengthKey (.str (Decimal.format t.total))

/-- Performs steps up to the first fault. -/
def perform (c : Compiler) (heads : List String) : Scene → List Step → Scene × Except Fault Unit
  | s, [] => (s, .ok ())
  | s, .enter name :: steps => match enter? s (branchOf heads name) with
    | .ok () => perform c heads s steps
    | .error f => (s, .error f)
  | s, .write name :: steps => perform c heads (c.write heads s name) steps
  | s, .fails f :: _ => (s, .error f)

/-- The branches that `heads` head. -/
def compiled (c : Compiler) (heads : List String) : Compiled where
  branches := heads.map fun name => (name, branchOf heads name)
  durations := heads.map fun name => (branchOf heads name, (c.timelineOf name).total)

/-- Compiles the story into a scene. -/
def run (c : Compiler) (s : Scene) : Scene × Except Fault Compiled :=
  let heads := c.story.heads
  let (s, done) := c.perform heads s c.story.script
  (s, done.map fun _ => c.compiled heads)

end Compiler

end Stagecraft
