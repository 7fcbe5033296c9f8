import Stagecraft.Json.Reader
import Stagecraft.Story.Basic

/-!
# Story documents

A story document is a record with the list of passages; passages and their
links are records too.

* `Story.parse?`: the story of a text.
-/

namespace Stagecraft

open Json (Raw)

/-- The written link of a record. -/
def RawLink.ofRecord? (r : Raw) : Option RawLink :=
  match r.record? ["link", "name"] with
  | some [some link, some name] => do
    let link ← link.text?
    let name ← name.text?
    some ⟨link, name⟩
  | _ => none

/-- The list of what the items of a list state. -/
def listOf? (read : Raw → Option α) (r : Raw) : Option (List α) :=
  r.items?.bind fun vs => vs.mapM read

/-- The passage of a record. All but its name may be left out. -/
def Passage.ofRecord? (r : Raw) : Option Passage :=
  match r.record? ["name", "text", "tags", "links"] with
  | some [some name, text, tags, links] => do
    let name ← name.text?
    let text ← Raw.withDefault? Raw.text? "" text
    let tags ← Raw.withDefault? (listOf? Raw.text?) [] tags
    let links ← Raw.withDefault? (listOf? RawLink.ofRecord?) [] links
    some ⟨name, text, tags, links⟩
  | _ => none

namespace Story

def passages? (r : Raw) : Option (List Passage) :=
  match r.record? ["passages"] with
  | some [passages] => Raw.withDefault? (listOf? Passage.ofRecord?) [] passages
  | _ => none

/-- The story of a text, which may have come from a file. -/
def parse? (text : String) (source : Option Path) : Except Fault Story :=
  match (Json.raw? text).bind passages? with
  | none => .error (.storyNotJson source)
  | some ps => match ofPassages? ps with
    | none => .error (.storyEmpty source)
    | some s => .ok s

end Story

end Stagecraft
