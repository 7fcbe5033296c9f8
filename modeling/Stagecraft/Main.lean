import Stagecraft.Command.Sites

/-!
# The program

The sites of the command are read from the disk into a file tree, the command
runs on the tree, and what it changed there is done on the disk.
-/

namespace Stagecraft.Disk

/-- The text of a place. -/
def textOf (p : Place) : String := "/" ++ "/".intercalate p

/-- The place that a path names, whatever stands there. -/
def placeOf (cwd : Place) (p : Path) : Place :=
  p.parts.foldl FileTree.enter (if p.isAbsolute then [] else cwd)

/-- The names in a directory. -/
def names (p : Place) : IO (List String) := do
  let dir ← IO.FS.realPath (textOf p)
  return (← dir.readDir).toList.map (·.fileName)

/-- What stands at a place on the disk. -/
def look (p : Place) : IO (Option Entry) := do
  try
    let _ ← names p
    return some .dir
  catch _ =>
    try return some (.file (← IO.FS.readBinFile (textOf p)))
    catch _ => return none

/-- Reads a place and the directories on the way to it. -/
def readAlone (t : FileTree) (p : Place) : IO FileTree := do
  let mut t := t
  for n in List.range p.length do
    match ← look (p.take (n + 1)) with
    | some e => t := t.put (p.take (n + 1)) e
    | none => return t
  return t

/-- Reads a place and what is below it. -/
partial def readBelow (t : FileTree) (p : Place) : IO FileTree := do
  match ← look p with
  | none => return t
  | some (.file content) => return t.put p (.file content)
  | some .dir =>
    let mut t := t.put p .dir
    for name in ← names p do
      t ← readBelow t (p ++ [name])
    return t

/-- Reads a site. -/
def readSite (t : FileTree) : Site → IO FileTree
  | .alone path => readAlone t (placeOf t.cwd path)
  | .whole path => do
    let p := placeOf t.cwd path
    readBelow (← readAlone t p) p

/-- Reads the sites of a command, and those that come up with them, a few times over. -/
def readSites (c : Command) (seen : List Site) : Nat → FileTree → IO FileTree
  | 0, t => return t
  | n + 1, t => do
    let fresh := (c.sites t).filter (· ∉ seen)
    if fresh.isEmpty then return t
    let t ← fresh.foldlM readSite t
    readSites c (fresh ++ seen) n t

/-- Removes from the disk what is gone, and writes what is new or changed. -/
def apply (before after : FileTree) : IO Unit := do
  for (p, e) in before.entries.reverse do
    if (after.entry? p).isNone then
      match e with
      | .dir => IO.FS.removeDir (textOf p)
      | .file _ => IO.FS.removeFile (textOf p)
  for (p, e) in after.entries do
    if before.entry? p ≠ some e then
      match e with
      | .dir => IO.FS.createDirAll (textOf p)
      | .file content => IO.FS.writeBinFile (textOf p) content

end Stagecraft.Disk

open Stagecraft Disk in
/-- Runs the command of the command line. -/
def main (words : List String) : IO UInt32 := do
  match Command.parse? words with
  | none =>
    IO.eprintln "usage: build [options] | inspect --dialog FILE"
    return 2
  | some c =>
    let cwd := (Path.ofString (toString (← IO.currentDir))).parts.filter (· ≠ "")
    let before ← readSites c [] 6 (← readAlone ⟨[], cwd⟩ cwd)
    let (outcome, after) := c.run before
    apply before after
    for line in outcome.lines do IO.println line
    return UInt32.ofNat outcome.exit
