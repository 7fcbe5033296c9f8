import Stagecraft.Story.Directive
import Stagecraft.Story.Link
import Stagecraft.Story.Markup

/-!
# Stories

A story is a start passage and further passages, which are found by name. Of
several passages with one name the last is found, and the start passage only
where no other has its name.

* `Passage.exits`, `Passage.content`, `Passage.directive?`: a passage, read.
* `Story.find?`, `Story.follow?`: the passage of a name, and of a link.
* `Story.opening?`: the passage that a run through the story opens under a name.
-/

namespace Stagecraft

/-- A passage as the story editor writes it. -/
structure Passage where
  name : String
  text : String
  tags : List String
  links : List RawLink
deriving DecidableEq, Repr

namespace Passage

/-- The links of a passage, in order. -/
def exits (p : Passage) : List Link := p.links.map Link.ofRaw

/-- What the player sees of the text. -/
def content (p : Passage) : String := Markup.content p.text

def directive? (p : Passage) : Except Fault Directive :=
  match Directive.ofTags? p.tags with
  | .ok d => .ok d
  | .error why => .error (.malformedTags p.name why)

end Passage

/-- A start passage and further passages. -/
structure Story where
  start : Passage
  others : List Passage
deriving DecidableEq, Repr

namespace Story

/-- The story of a list of passages, of which the first is the start. -/
def ofPassages? : List Passage → Option Story
  | [] => none
  | p :: ps => some ⟨p, ps⟩

/-- The passage of a name. -/
def find? (s : Story) (name : String) : Option Passage :=
  match s.others.reverse.find? (·.name == name) with
  | some p => some p
  | none => if s.start.name = name then some s.start else none

/-- The passage that a link of `source` leads to. -/
def follow? (s : Story) (source : Passage) (link : Link) : Except Fault Passage :=
  match s.find? link.target with
  | some p => .ok p
  | none => .error (.unknownTarget source.name link.target)

/-- The number of passages, counting several further ones of a name once. -/
def passageCount (s : Story) : Nat := (s.others.map (·.name)).eraseDups.length + 1

/-- The names of the passages, each once. -/
def names (s : Story) : List String := (s.start.name :: s.others.map (·.name)).eraseDups

/-- The passage that is opened under a name: a run starts with the start passage,
so no other is opened under its name. -/
def opening? (s : Story) (name : String) : Option Passage :=
  if s.start.name = name then some s.start else s.find? name

theorem find?_name {s : Story} {name : String} {p : Passage} (h : s.find? name = some p) :
    p.name = name := by
  unfold find? at h
  split at h
  · rename_i q hq
    have := List.find?_some hq
    simp_all
  · split at h <;> simp_all

theorem follow?_name {s : Story} {p q : Passage} {l : Link} (h : s.follow? p l = .ok q) :
    q.name = l.target := by
  unfold follow? at h
  split at h
  · rename_i r hr
    cases h
    exact find?_name hr
  · simp at h

/-- A link fails exactly if the story lacks its target. -/
theorem follow?_eq_error_iff {s : Story} {p : Passage} {l : Link} {f : Fault} :
    s.follow? p l = .error f ↔ s.find? l.target = none ∧ f = .unknownTarget p.name l.target := by
  unfold follow?
  cases s.find? l.target <;> simp [eq_comm]

end Story

end Stagecraft
