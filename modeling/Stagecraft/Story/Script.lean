import Stagecraft.Story.Timeline
import Stagecraft.Story.Walk

/-!
# The script of a story

A story is played in branches: the start and each passage that a prompt leads
to head a timeline of their own. A branch is entered before the branches that
its prompt leads to, and written down after them, when all of these have their
number. A branch that was entered before is not entered again.

* `Story.branch`: what happens around one branch.
* `Story.script`: all of it, from the start of the story.
* `Story.heads`: the names of the branches in the order of their numbers.
-/

namespace Stagecraft

/-- A step of a script. -/
inductive Step where
  /-- The branch that this passage heads gets the next number. -/
  | enter (name : String)
  /-- The timeline of the branch is written down. -/
  | write (name : String)
  | fails (f : Fault)

namespace Story

/-- The branches that the links of a prompt lead to. -/
def routes (s : Story) (p : Passage) : List (Errand Step) :=
  p.exits.map fun l => match s.follow? p l with
    | .ok q => .go q.name
    | .error f => .note (.fails f)

/-- The branch that a passage heads: it is entered, followed by those that its
prompt leads to, and written down. -/
def branch (s : Story) (name : String) : List (Errand Step) :=
  match s.opening? name with
  | none => []
  | some p => .note (.enter name) :: match (s.timeline p).ending with
    | .stop => [.note (.write name)]
    -- the buttons of the prompt name these branches, so they come first
    | .choice prompt => s.routes prompt ++ [.note (.write name)]
    | .broken f => [.note (.fails f)]

/-- The steps of a story, from the branch of its start. It is performed up to the
first fault. -/
def script (s : Story) : List Step := walk s.branch s.names [.go s.start.name]

/-- The names of the branches, in the order in which they are entered. -/
def heads (s : Story) : List String := s.script.filterMap fun
  | .enter name => some name
  | _ => none

end Story

end Stagecraft
