import Stagecraft.Json.Basic
import Stagecraft.Text.Cut

/-!
# Links between passages

A link is written twice, as where it leads and as what it shows. Either text
may hold the routing form of the story editor: `shown|target` or
`target<-shown`. What is shown may start with a colour and a colon.

* `Link.ofRaw`: the target, the shown name and the colour of a written link.
* `Tint.split?`: the colour at the start of a name.
-/

namespace Stagecraft

/-- The colours of a choice button. -/
inductive Tint where
  | black
  | teal
  | green
  | red
  | purple
  | yellow
  | blue
  | pink
deriving DecidableEq, Repr

namespace Tint

/-- The colours, in the order in which a name is tried for them. -/
def all : List Tint := [black, teal, green, red, purple, yellow, blue, pink]

/-- The word for a colour at the start of a name. -/
def word : Tint → String
  | black => "BLACK"
  | teal => "TEAL"
  | green => "GREEN"
  | red => "RED"
  | purple => "PURPLE"
  | yellow => "YELLOW"
  | blue => "BLUE"
  | pink => "PINK"

/-- Hue, saturation and value, as a scene stores them. -/
def hsv : Tint → String × String × String
  | black => ("0.1700005", "0", "0.2029198")
  | teal => bright "0.4894297"
  | green => bright "0.3586576"
  | red => bright "0"
  | purple => bright "0.7690026"
  | yellow => bright "0.1749429"
  | blue => bright "0.6082565"
  | pink => bright "0.8668843"
where
  /-- All hues but black have the same saturation and value. -/
  bright (hue : String) : String × String × String := (hue, "0.6444453", "0.7410609")

def toJson (t : Tint) : Json :=
  .obj [("h", .str t.hsv.1), ("s", .str t.hsv.2.1), ("v", .str t.hsv.2.2)]

/-- The rest of a name that starts with the word of `t` and a colon. -/
def strip? (t : Tint) (name : List Char) : Option (List Char) :=
  Text.after? (t.word.toList ++ [':']) name

/-- The colour at the start of a name, and the rest of the name. -/
def split? (name : List Char) : Option (Tint × List Char) :=
  all.findSome? fun t => (t.strip? name).map (t, ·)

end Tint

/-- A link as the story editor writes it. -/
structure RawLink where
  link : String
  name : String
deriving DecidableEq, Repr

/-- A link, reduced to where it leads and how its button looks. -/
structure Link where
  /-- The name of the passage it leads to. -/
  target : String
  name : String
  /-- The name without its colour. -/
  label : String
  tint : Tint
deriving DecidableEq, Repr

namespace Link

/-- The mark between what is shown and the target. -/
def bar : List Char := ['|']

/-- The mark between the target and what is shown. -/
def arrow : List Char := ['<', '-']

def targetOf (link : List Char) : List Char := Text.beforeFirst arrow (Text.afterLast bar link)

def nameOf (name : List Char) : List Char := Text.afterLast arrow (Text.beforeFirst bar name)

/-- The link that a written link states. Without a colour a button is blue. -/
def ofRaw (raw : RawLink) : Link :=
  -- the colour is looked for behind the routing, where the name starts
  let name := nameOf raw.name.toList
  let (tint, label) := (Tint.split? name).getD (.blue, name)
  { target := String.ofList (targetOf raw.link.toList)
    name := String.ofList name
    label := String.ofList label
    tint }

end Link

end Stagecraft
