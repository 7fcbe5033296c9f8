import Stagecraft.Stage.Ids
import Stagecraft.Story.Directive
import Stagecraft.Story.Link

/-!
# Actions

A trigger performs actions, each of which sets a value of a receiver in an atom.
The name of a generated action starts with the mark; an action with another name
was added by hand.

* `Action`, `Action.toJson`: an action and its object.
* `Action.isGenerated`: the object is that of a generated action.
* `hidePanel`, `showPanel`, `enableRestart`, `disableButton`, `lifetime`, `line`,
  `choiceButton`: the actions of a story.
-/

namespace Stagecraft.Stage

/-- The value that an action sets. -/
inductive Setting where
  | switch (on : Bool)
  | text (s : String)
  | number (x : Float)
  | tint (t : Tint)

/-- An action: what it is called, the atom and the receiver in it, the target of
the receiver, and the value. -/
structure Action where
  name : String
  atom : String
  receiver : String
  target : String
  setting : Setting

namespace Setting

/-- The field of an action's object that holds the value. -/
def key : Setting → String
  | switch _ => "boolValue"
  | text _ => "stringValue"
  | number _ => "floatValue"
  | tint _ => "color"

/-- The value in an action's object. Truth values and numbers are texts there. -/
def toJson : Setting → Json
  | switch true => .str "true"
  | switch false => .str "false"
  | text s => .str s
  | number x => .str (Decimal.format x)
  | tint t => t.toJson

end Setting

namespace Action

/-- An action with a generated name, which lists the atom and `parts`. -/
def named (parts : List String) (atom receiver target : String) (setting : Setting) : Action :=
  ⟨mark ++ ":".intercalate (atom :: parts), atom, receiver, target, setting⟩

def toJson (a : Action) : Json :=
  .obj [("name", .str a.name), ("receiverAtom", .str a.atom), ("receiver", .str a.receiver),
    ("receiverTargetName", .str a.target), (a.setting.key, a.setting.toJson)]

/-- The value is the object of a generated action. -/
def isGenerated (v : Json) : Bool :=
  match v.field? "name" with
  | some (.str name) => mark.toList.isPrefixOf name.toList
  | _ => false

def toggle (atom : String) (on : Bool) : Action :=
  named [if on then "Enable" else "Disable"] atom "AtomControl" "on" (.switch on)

def hidePanel : Action := toggle panelId false

def showPanel : Action := toggle panelId true

/-- Offers to start the story again. -/
def enableRestart : Action := toggle startButtonId true

/-- Takes a choice button away. -/
def disableButton (n : Nat) : Action := toggle (buttonId n) false

/-- Shows a bubble for some seconds. -/
def lifetime (target : String) (bubble : Bubble) (seconds : Float) : Action :=
  named [bubble.receiver, "Lifetime"] target bubble.receiver "bubbleLifetime" (.number seconds)

/-- Puts a line into a bubble. -/
def line (target : String) (bubble : Bubble) (content : String) : Action :=
  named [bubble.receiver, "Text"] target bubble.receiver "bubbleText" (.text content)

/-- Colours, labels, routes and shows choice button `n`. -/
def choiceButton (n : Nat) (link : Link) (branch : String) : List Action :=
  [ named ["ButtonColor"] (buttonId n) "ButtonColor" "color" (.tint link.tint),
    named ["Text"] (buttonId n) "Text" "text" (.text link.label),
    named ["SetBranch"] (buttonId n) "plugin#0_JayJayWon.ActionGrouper" "act1Atom1Name" (.text branch),
    toggle (buttonId n) true ]

end Action

end Stagecraft.Stage
