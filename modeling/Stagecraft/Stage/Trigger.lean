import Stagecraft.Stage.Action
import Stagecraft.Story.Timeline

/-!
# Triggers

A beat of a timeline is played by a trigger: an object with its times and its
actions. A trigger that was there before keeps its other fields and the actions
that were added by hand.

* `Beat.lead`, `Beat.tail`: the generated actions in front of and behind these.
* `Trigger.kept`: the actions that were added by hand.
* `Trigger.find?`: the trigger of a name.
* `Beat.trigger`: the trigger of a beat, made from an earlier one.
-/

namespace Stagecraft

open Stage

abbrev Trigger := Fields

namespace Trigger

/-- The field with the name of a trigger. -/
def nameKey : String := "displayName"

/-- The field with the actions that a trigger starts. -/
def actionsKey : String := "startActions"

def name? (t : Trigger) : Option String := (t.get? nameKey).bind (·.text?)

/-- The actions of a trigger that were added by hand. -/
def kept (t : Trigger) : List Json :=
  match t.get? actionsKey with
  | some (.arr as) => as.filter fun a => !Action.isGenerated a
  | _ => []

/-- The last trigger of a name in a list of values. -/
def find? (name : String) (vs : List Json) : Option Trigger :=
  (vs.filterMap Json.fields?).reverse.find? fun t => name? t == some name

end Trigger

namespace Beat

def exits (b : Beat) : List Link := b.passage.exits

/-- The actions in front: a branch starts without the panel of choices. -/
def lead (first : Bool) : List Action := if first then [.hidePanel] else []

def speech (b : Beat) : List Action :=
  match b.directive.cue with
  | .delay => []
  | .speak target bubble =>
    [.lifetime target bubble b.directive.duration, .line target bubble b.passage.content]

/-- The buttons of a prompt's links, numbered from `n`. -/
def buttons (branchOf : String → String) (n : Nat) : List Link → List Action
  | [] => []
  | l :: ls => Action.choiceButton n l (branchOf l.target) ++ buttons branchOf (n + 1) ls

/-- The actions that lead on: an end offers the start button, and a prompt takes all
`slots` buttons away and shows its own. Another beat leads on by itself. -/
def onward (slots : Nat) (branchOf : String → String) (b : Beat) : List Action :=
  if b.exits.isEmpty then [.enableRestart]
  else if b.directive.prompt then
    (List.range slots).map (fun i => Action.disableButton (i + 1))
      ++ .showPanel :: buttons branchOf 1 b.exits
  else []

/-- The actions behind those that were added by hand. -/
def tail (slots : Nat) (branchOf : String → String) (b : Beat) : List Action :=
  b.speech ++ b.onward slots branchOf

/-- The trigger of a beat, made from an earlier one. -/
def trigger (slots : Nat) (branchOf : String → String) (first : Bool) (b : Beat) (old : Trigger) :
    Trigger :=
  let actions := (lead first).map Action.toJson ++ Trigger.kept old
    ++ (b.tail slots branchOf).map Action.toJson
  ((old.set "startTime" (.str (Decimal.format b.start))).set
    "endTime" (.str (Decimal.format b.finish))).set Trigger.actionsKey (.arr actions)

end Beat

end Stagecraft
