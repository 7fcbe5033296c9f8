import Stagecraft.Json.Lexer

/-!
# Reading a document text

The tokens build the tree of values. What surrounds the value that is being
read is kept as a list of frames, so nesting has no limit here.

* `Builder.step`: one token.
* `raw?`: the tree of a text.
* `parse?`: the document value of a text.
-/

namespace Stagecraft.Json

/-- The surroundings of a value inside its list or object; the earlier parts stand in reverse. -/
inductive Frame where
  | item (back : List Raw)
  | field (back : List (Option String × Raw)) (key : Option String)

/-- What may come next. -/
inductive Next where
  | value
  | itemOrEnd
  | afterItem (back : List Raw)
  | keyOrEnd
  | key (back : List (Option String × Raw))
  | colon (back : List (Option String × Raw)) (key : Option String)
  | afterField (back : List (Option String × Raw))
  | done (v : Raw)

/-- A tree under construction. -/
structure Builder where
  frames : List Frame := []
  next : Next := .value

namespace Builder

/-- Puts a finished value into its surroundings. -/
def put (v : Raw) : List Frame → Builder
  | [] => ⟨[], .done v⟩
  | .item back :: fs => ⟨fs, .afterItem (v :: back)⟩
  | .field back key :: fs => ⟨fs, .afterField ((key, v) :: back)⟩

/-- Reads the first token of a value. -/
def begin? (frames : List Frame) : Token → Option Builder
  | .openList => some ⟨frames, .itemOrEnd⟩
  | .openObject => some ⟨frames, .keyOrEnd⟩
  | .leaf v => some (put v frames)
  | _ => none

/-- Reads a token. -/
def step (b : Builder) (t : Token) : Option Builder :=
  match b.next, t with
  | .value, t => begin? b.frames t
  | .itemOrEnd, .closeList => some (put (.arr []) b.frames)
  | .itemOrEnd, t => begin? (.item [] :: b.frames) t
  | .afterItem back, .comma => some ⟨.item back :: b.frames, .value⟩
  | .afterItem back, .closeList => some (put (.arr back.reverse) b.frames)
  | .keyOrEnd, .closeObject => some (put (.obj []) b.frames)
  | .keyOrEnd, .leaf (.str key) => some ⟨b.frames, .colon [] key⟩
  -- behind a comma an object does not end
  | .key back, .leaf (.str key) => some ⟨b.frames, .colon back key⟩
  | .colon back key, .colon => some ⟨.field back key :: b.frames, .value⟩
  | .afterField back, .comma => some ⟨b.frames, .key back⟩
  | .afterField back, .closeObject => some (put (.obj back.reverse) b.frames)
  | _, _ => none

/-- The tree at the end of the tokens. -/
def finish? (b : Builder) : Option Raw :=
  match b.next with
  | .done v => some v
  | _ => none

end Builder

/-- The tree of a text. -/
def raw? (s : String) : Option Raw :=
  ((tokens? s.toList).bind fun ts => ts.foldlM Builder.step {}).bind Builder.finish?

/-- The number of lists and objects that a document may have inside each other. -/
def maxDepth : Nat := 127

/-- The document value of a text. -/
def parse? (s : String) : Option Json := (raw? s).bind (Raw.value? maxDepth)

end Stagecraft.Json
