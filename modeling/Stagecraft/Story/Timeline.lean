import Stagecraft.Story.Basic

/-!
# Timelines

A timeline plays passages one after the other: from a passage it continues with
the first link, until a prompt hands over to the player or nothing follows. No
passage plays twice in it.

* `Beat`: a passage with its directive and its times.
* `Story.timeline`: the timeline that a passage starts.
-/

namespace Stagecraft

/-- A passage in a timeline, with the times at which it starts and ends. -/
structure Beat where
  passage : Passage
  directive : Directive
  start : Float
  finish : Float

/-- How a timeline ends. -/
inductive Ending where
  /-- Nothing follows. -/
  | stop
  /-- The player chooses among the links of a prompt. -/
  | choice (prompt : Passage)
  | broken (f : Fault)

/-- The beats of a timeline and its ending. -/
structure Timeline where
  beats : List Beat
  ending : Ending

namespace Timeline

/-- The start of the first beat. -/
def startTime : Float := 0.1

/-- The pause behind a beat that is no prompt. -/
def lineGap : Float := 0.4

/-- The length of a prompt, which waits for the player anyway. -/
def promptGap : Float := 0.2

/-- The end of a passage that starts at `start`. -/
def finishOf (d : Directive) (start : Float) : Float :=
  if d.prompt then start + promptGap else start + d.duration + lineGap

/-- The timeline with a beat in front. -/
def cons (b : Beat) (t : Timeline) : Timeline := { t with beats := b :: t.beats }

/-- The end of the last beat. -/
def total (t : Timeline) : Float := (t.beats.getLast?.map (·.finish)).getD startTime

end Timeline

namespace Story

/-- The timeline from `p` on, where only the names of `fresh` have not played yet. -/
def timelineFrom (s : Story) (fresh : List String) (p : Passage) (start : Float) : Timeline :=
  match p.directive? with
  | .error f => ⟨[], .broken f⟩
  | .ok d =>
    let beat : Beat := ⟨p, d, start, Timeline.finishOf d start⟩
    match p.exits with
    | [] => ⟨[beat], .stop⟩
    | l :: _ =>
      if d.prompt then ⟨[beat], .choice p⟩
      else match s.follow? p l with
        | .error f => ⟨[beat], .broken f⟩
        | .ok q =>
          if q.name ∈ fresh then
            (timelineFrom s (fresh.erase q.name) q beat.finish).cons beat
          -- `q` has played in this timeline
          else ⟨[beat], .broken (.chainCycle p.name q.name)⟩
termination_by fresh.length
decreasing_by
  rename_i h
  have := List.length_erase_of_mem h
  have := List.length_pos_of_mem h
  omega

/-- The timeline that a passage starts. -/
def timeline (s : Story) (p : Passage) : Timeline :=
  s.timelineFrom (s.names.erase p.name) p Timeline.startTime

end Story

end Stagecraft
