import Stagecraft.Decimal.Layout

/-!
# The atoms of a story in a scene

A story is played by atoms with fixed ids: a panel of choice buttons, a start
button, and one atom a branch, whose length stands in an atom beside it.
Branches and buttons are numbered from one.

* `branchId`, `durationId`, `buttonId`: the numbered atoms.
* `displayName`: the name of a passage's trigger.
-/

namespace Stagecraft.Stage

/-- The atom that holds the panel of choices. -/
def panelId : String := "Dialog-Choices"

/-- The button that starts the story again. -/
def startButtonId : String := "Dialog-StartBtn"

/-- An id with a number behind it. -/
def numbered (base : String) (n : Nat) : String :=
  base ++ "#" ++ String.ofList (Decimal.digitsOf n)

def branchId (n : Nat) : String := numbered "Dialog-Branch" n

def durationId (branch : String) : String := branch ++ "-Duration"

def buttonId (n : Nat) : String := numbered "Dialog-Choices-Btn" n

/-- Generated names start with this. -/
def mark : String := "D:"

/-- The name of the trigger that plays a passage. -/
def displayName (passage : String) : String := mark ++ passage

/-- The height of a choice button, of which the top one has index 0. -/
def buttonHeight (index : Nat) : Float := 1.22 - 0.07 * Float.ofNat index

end Stagecraft.Stage
