import Stagecraft.Command.Args
import Stagecraft.Project.Scaffold

/-!
# Running a command

A build scaffolds the selected projects one after the other, whatever becomes
of each. What a command prints is lines for other programs to read. What it
logs is left out; only the log file is opened, before anything else.

* `Command.run`: what a command prints and answers, and the files that it leaves.
* `runLine`: the same for the words of a command line.
-/

namespace Stagecraft

/-- What a command prints, and the number that it answers with. -/
structure Outcome where
  exit : Nat
  lines : List String
deriving DecidableEq, Repr

namespace Command

def faultLines (f : Fault) : List String :=
  let n := f.notice
  let json (s : String) : String := String.ofList (Json.quote s)
  ["ERROR_CODE:" ++ n.code, "ERROR_MSG_JSON:" ++ json n.message] ++
    (match n.passage with
      | none => []
      | some p => ["ERROR_PASSAGE_JSON:" ++ json p])

/-- The outcome of a command that could not start. -/
def refused (f : Fault) : Outcome := ⟨1, "RESULT:ERROR" :: faultLines f⟩

def count (n : Nat) : String := String.ofList (Decimal.digitsOf n)

/-- The configuration of a build: that of the file, which must be there unless the
directory of the game is given, and over it what is given. -/
def config? (args : BuildArgs) (t : FileTree) : Except Fault Config := do
  -- with the directory of the game given, every setting has a default
  let c ← if t.isFile args.config || args.game.isNone then Config.load? t args.config else .ok {}
  .ok { game := args.game <|> c.game
        projects := args.projects.getD c.projects
        templates := args.templates.getD c.templates }

/-- The projects to build, in order: all, or those that are wanted and must be there. -/
def select? (available wanted : List String) : Except Fault (List String) :=
  if wanted.isEmpty then .ok available
  else match wanted.find? (· ∉ available) with
    | some name => .error (.projectUnknown name)
    | none => .ok (available.filter (· ∈ wanted))

/-- The directories and the projects of a build. -/
def prepare? (args : BuildArgs) (t : FileTree) : Except Fault (BuildDirs × List String) := do
  let c ← config? args t
  let dirs ← c.resolve? t
  let available ← projectNames? t dirs.projects
  let names ← select? available args.names
  .ok (dirs, names)

def buildProject (dirs : BuildDirs) (name : String) (t : FileTree) : Except Fault Report × FileTree :=
  match Project.open? t dirs name with
  | .error f => (.error f, t)
  | .ok p => match p.scaffold t with
    | .ok report t => (.ok report, t)
    | .error f t => (.error f, t)

/-- Scaffolds projects, one after the other. -/
def buildAll (dirs : BuildDirs) : List String → FileTree → List (String × Except Fault Report) × FileTree
  | [], t => ([], t)
  | name :: names, t =>
    let (r, t) := buildProject dirs name t
    let (rs, t) := buildAll dirs names t
    ((name, r) :: rs, t)

def projectLines (name : String) : Except Fault Report → List String
  | .ok r => ["PROJECT:" ++ name ++ "|OK|SCENES:" ++ count r.scenes ++ "|BRANCHES:"
      ++ count r.capacity.branches ++ "|CHOICES:" ++ count r.capacity.choices]
  | .error f => ("PROJECT:" ++ name ++ "|ERROR") :: faultLines f

/-- The outcome of a build. It answers 1 if some project failed. -/
def buildOutcome (results : List (String × Except Fault Report)) : Outcome :=
  let good := results.all fun (_, r) => r.isOk
  ⟨if good then 0 else 1,
    ("RESULT:" ++ if good then "OK" else "ERROR") :: results.flatMap fun (name, r) =>
      projectLines name r⟩

/-- Builds projects. The log file is opened before anything else is looked at. -/
def runBuild (args : BuildArgs) (t : FileTree) : Outcome × FileTree :=
  let opened : EStateM.Result FileFault FileTree Unit := match args.log with
    | none => .ok () t
    | some path => FileTree.openLog path t
  match opened with
  | .error why t => (refused (.logNotOpened why), t)
  | .ok () t => match prepare? args t with
    | .error f => (refused f, t)
    | .ok (dirs, names) =>
      let (results, t) := buildAll dirs names t
      (buildOutcome results, t)

def runInspect (story : Path) (t : FileTree) : Outcome :=
  let needs : Except Fault (Story × Capacity) := do
    let s ← Story.load? t story
    let c ← s.capacity?
    .ok (s, c)
  match needs with
  | .error f => refused f
  | .ok (s, c) => ⟨0, ["RESULT:OK", "START:" ++ s.start.name, "PASSAGES:" ++ count s.passageCount,
      "BRANCHES:" ++ count c.branches, "CHOICES:" ++ count c.choices]⟩

def run (t : FileTree) : Command → Outcome × FileTree
  | .build args => runBuild args t
  | .inspect story => (runInspect story t, t)

end Command

/-- Runs the command that words state. A usage error answers 2 and prints nothing. -/
def runLine (words : List String) (t : FileTree) : Outcome × FileTree :=
  match Command.parse? words with
  | none => (⟨2, []⟩, t)
  | some c => c.run t

end Stagecraft
