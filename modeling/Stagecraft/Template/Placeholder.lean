import Stagecraft.Decimal.Layout
import Stagecraft.Fault

/-!
# Placeholders

A template text may hold placeholders: a `$` and a word of capitals and
underscores that starts with a capital. The word is as long as it can be. `$ID`
stands for an id and `$POSITION` for a height; what is put in is not read again.

* `Placeholder.cut`: a text as characters and placeholders.
* `Placeholder.expand`: a text with its placeholders filled in.
-/

namespace Stagecraft

/-- What the placeholders of a template stand for. -/
structure Placeholders where
  id : Option String := none
  position : Option Float := none

namespace Placeholder

/-- A piece of a template text. -/
inductive Piece where
  | char (c : Char)
  | token (word : List Char)
deriving DecidableEq, Repr

/-- The character may start the word of a placeholder. -/
def starts (c : Char) : Bool := 'A' ≤ c && c ≤ 'Z'

/-- The character may stand in the word of a placeholder. -/
def continues (c : Char) : Bool := starts c || c == '_'

/-- The word of the placeholder whose `$` is followed by `s`. -/
def word (s : List Char) : List Char :=
  match s with
  | c :: _ => if starts c then s.takeWhile continues else []
  | [] => []

/-- The text as characters and placeholders, from the left. -/
def cut : List Char → List Piece
  | [] => []
  | c :: s =>
    if c = '$' ∧ word s ≠ [] then .token (word s) :: cut (s.drop (word s).length)
    else .char c :: cut s
termination_by s => s.length
decreasing_by all_goals simp; try omega

/-- The word for the id of an instance. -/
def idWord : List Char := "ID".toList

/-- The word for the height of an instance. -/
def positionWord : List Char := "POSITION".toList

def fill? (template : String) (values : Placeholders) (word : List Char) : Except Fault (List Char) :=
  let given : Option (List Char) → Except Fault (List Char)
    | some s => .ok s
    | none => .error (.placeholderUnresolved template (String.ofList word))
  if word = idWord then given (values.id.map String.toList)
  else if word = positionWord then given (values.position.map Decimal.plain.write)
  else .error (.placeholderUnknown template (String.ofList word))

def Piece.fill? (template : String) (values : Placeholders) : Piece → Except Fault (List Char)
  | .char c => .ok [c]
  | .token word => Placeholder.fill? template values word

/-- The text with its placeholders filled in, or the fault of the first that cannot be. -/
def expand (template : String) (values : Placeholders) (s : List Char) : Except Fault (List Char) :=
  ((cut s).mapM (Piece.fill? template values)).map List.flatten

end Placeholder

end Stagecraft
