import Stagecraft.Decimal.Reading
import Stagecraft.Fault
import Stagecraft.Text.Blank

/-!
# Directives

The tags of a passage say what happens in it: a pause, or a line in somebody's
bubble. A last tag `prompt` turns its links into choices.

* `Directive.ofTags?`: the directive that tags state.
-/

namespace Stagecraft

/-- The bubbles that a line can stand in. -/
inductive Bubble where
  | speech
  | thought
deriving DecidableEq, Repr

namespace Bubble

/-- The name that a scene knows a bubble by. -/
def receiver : Bubble → String
  | speech => "SpeechBubble"
  | thought => "ThoughtBubble"

/-- The bubble of a verb, in any letter case. -/
def ofVerb? (verb : String) : Option Bubble :=
  if Text.isWord "says" verb then some speech
  else if Text.isWord "thinks" verb then some thought
  else none

end Bubble

/-- What happens in a passage. -/
inductive Cue where
  /-- A silent pause. -/
  | delay
  /-- A line in a bubble of `target`. -/
  | speak (target : String) (bubble : Bubble)
deriving DecidableEq, Repr

/-- What the tags of a passage ask for. -/
structure Directive where
  cue : Cue
  /-- In seconds. -/
  duration : Float
  /-- The links are choices of the player. -/
  prompt : Bool

namespace Directive

/-- The seconds of a passage that states none. -/
def defaultDuration : Float := 2.0

/-- The tag of a prompt. -/
def promptTag : String := "prompt"

/-- The seconds of a tag, which may have blanks at its ends. -/
def duration? (tag : String) : Except TagFault Float :=
  match Decimal.read? (Text.trim tag.toList) with
  | some x => .ok x
  | none => .error (.notDuration tag)

/-- The directive that tags state: a target and a verb, or the word `delay`; then
the seconds. The seconds of a line at a prompt are not read. -/
def ofTags? (tags : List String) : Except TagFault Directive :=
  let prompt := tags.getLast? = some promptTag
  match tags with
  | [] => .error .noTags
  | first :: rest =>
    if Text.isWord "delay" first then
      match rest with
      | [] => .ok ⟨.delay, defaultDuration, prompt⟩
      -- of a pause the seconds are read at a prompt, too
      | tag :: _ => (duration? tag).map fun x => ⟨.delay, x, prompt⟩
    else
      match rest with
      | [] => .error (.noVerb first)
      | verb :: more => match Bubble.ofVerb? verb with
        | none => .error (.unknownVerb verb)
        | some bubble => match more with
          | [] => .ok ⟨.speak first bubble, defaultDuration, prompt⟩
          | tag :: _ =>
            if prompt then .ok ⟨.speak first bubble, defaultDuration, prompt⟩
            else (duration? tag).map fun x => ⟨.speak first bubble, x, prompt⟩

end Directive

end Stagecraft
