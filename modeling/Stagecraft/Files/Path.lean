import Stagecraft.Files.Fault
import Stagecraft.Text.Cut

/-!
# Paths

A path is the list of pieces between the slashes of its text, which is kept as
it was written: an empty first piece makes it absolute, an empty last one ends
its text with a slash.

* `Path.ofString`, `Path.text`: a path and its text.
* `Path.join`, `Path.child`: a path below another; an absolute one replaces it.
* `Path.parent`: the directory that holds a path.
* `Path.fault?`, `Path.partFault?`: texts that no file system takes as a path or as a name.
-/

namespace Stagecraft

/-- The pieces of a path's text. -/
structure Path where
  parts : List String
deriving DecidableEq, Inhabited

namespace Path

def ofString (s : String) : Path :=
  ⟨(Text.pieces '/' s.toList).map String.ofList⟩

def text (p : Path) : String := "/".intercalate p.parts

/-- A path keeps its text as it was written. -/
@[simp] theorem text_ofString (s : String) : (ofString s).text = s := by
  apply String.toList_injective
  simp only [text, ofString, String.toList_intercalate, List.map_map, Function.comp_def,
    String.toList_ofList, List.map_id']
  exact Text.intercalate_pieces '/' s.toList

def isAbsolute (p : Path) : Bool :=
  match p.parts with
  -- one empty part alone is the empty path
  | "" :: _ :: _ => true
  | _ => false

/-- `q` below `p`. One slash goes between them, and none behind an empty path or
another slash. -/
def join (p q : Path) : Path :=
  if q.isAbsolute then q
  else if p.parts.getLast? = some "" then ⟨p.parts.dropLast ++ q.parts⟩
  else ⟨p.parts ++ q.parts⟩

/-- `p` with the path of a text below it. -/
def child (p : Path) (s : String) : Path := p.join (ofString s)

def endsInSlash (p : Path) : Bool := p.parts.length > 1 && p.parts.getLast? == some ""

def unslashed (p : Path) : Path := ⟨(p.parts.reverse.dropWhile (· == "")).reverse⟩

/-- The parts without those at the end that name nothing. -/
def dropBlank (parts : List String) : List String :=
  (parts.reverse.dropWhile fun s => s = "" ∨ s = ".").reverse

/-- The directory of a path with a name as its last part: its text up to the name,
without what names nothing at the end. -/
def parent (p : Path) : Path :=
  match p.parts.dropLast with
  | "" :: body => match dropBlank body with
    | [] => ⟨["", ""]⟩
    | body => ⟨"" :: body⟩
  -- a dot in front stays, as it tells the path from the empty one
  | "." :: body => ⟨"." :: dropBlank body⟩
  | body => match dropBlank body with
    | [] => ⟨[""]⟩
    | body => ⟨body⟩

/-- The directory in which the last name of a path is looked up, whatever slashes follow it. -/
def holder (p : Path) : Path := ⟨p.unslashed.parts.dropLast ++ ["."]⟩

def maxBytes : Nat := 4095

def maxNameBytes : Nat := 255

/-- Why the text of a path is refused before it is followed. -/
def fault? (p : Path) : Option FileFault :=
  if p.parts.any (·.contains '\x00') then some .nulByte
  else if maxBytes < p.text.utf8ByteSize then some .nameTooLong
  else none

/-- Why a part is refused where it is looked up. -/
def partFault? (part : String) : Option FileFault :=
  if maxNameBytes < part.utf8ByteSize then some .nameTooLong else none

/-- A file name with the given extension and something in front of it. -/
def hasExtension (name ext : String) : Bool :=
  let dotted := '.' :: ext.toList
  dotted.isSuffixOf name.toList && dotted.length < name.toList.length

end Path

end Stagecraft
