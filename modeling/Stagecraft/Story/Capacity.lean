import Stagecraft.Story.Basic
import Stagecraft.Story.Walk

/-!
# What a story needs

A story needs a branch for its start and for each passage that a prompt leads
to, and as many choice buttons as its largest prompt has links. All links of a
prompt are followed, and of any other passage only the first.

* `Story.survey`: the notes about one passage.
* `Story.capacity?`: the branches and buttons that a story needs.
-/

namespace Stagecraft

/-- How many branches and choice buttons there are. -/
structure Capacity where
  branches : Nat
  choices : Nat
deriving DecidableEq, Repr

namespace Capacity

def none : Capacity := ⟨0, 0⟩

/-- Enough for both. -/
def max (a b : Capacity) : Capacity :=
  ⟨Nat.max a.branches b.branches, Nat.max a.choices b.choices⟩

end Capacity

/-- A note about the needs of a story. -/
inductive Need where
  /-- The passage of this name starts a branch. -/
  | branch (name : String)
  /-- A prompt with so many links. -/
  | choices (n : Nat)
  | fails (f : Fault)

namespace Story

/-- What a passage needs, and where its links lead. -/
def survey (s : Story) (name : String) : List (Errand Need) :=
  match s.opening? name with
  | none => []
  | some p => match p.directive? with
    | .error f => [.note (.fails f)]
    | .ok d =>
      if d.prompt then
        .note (.choices p.exits.length) :: p.exits.flatMap fun l => match s.follow? p l with
          -- a branch counts also where the walk has come to `q` before, as a line
          | .ok q => [.note (.branch q.name), .go q.name]
          | .error f => [.note (.fails f)]
      else match p.exits with
        | [] => []
        | l :: _ => match s.follow? p l with
          | .ok q => [.go q.name]
          | .error f => [.note (.fails f)]

/-- All notes about the needs of a story, in the order of a walk from its start. -/
def needs (s : Story) : List Need :=
  walk s.survey s.names [.note (.branch s.start.name), .go s.start.name]

/-- The names of the branches and the largest prompt so far. -/
structure Tally where
  heads : List String := []
  choices : Nat := 0

/-- Takes in a note. A fault ends the count. -/
def Tally.add (t : Tally) : Need → Except Fault Tally
  | .branch name => .ok { t with heads := if name ∈ t.heads then t.heads else t.heads ++ [name] }
  | .choices n => .ok { t with choices := Nat.max t.choices n }
  | .fails f => .error f

/-- The branches and buttons that a story needs, or the first fault on the way. -/
def capacity? (s : Story) : Except Fault Capacity :=
  (s.needs.foldlM Tally.add {}).map fun t => ⟨t.heads.length, t.choices⟩

end Story

end Stagecraft
