import Stagecraft.Files.Path

/-!
# The command line

Two commands: `build` scaffolds projects, `inspect` tells what a story needs. A
value follows its option as the next word, which then does not start with a
dash, or behind an equals sign. Everything else is a usage error.

* `Command.parse?`: the command that the words of a command line state.
-/

namespace Stagecraft

/-- The settings of a build. -/
structure BuildArgs where
  config : Path
  game : Option Path
  projects : Option Path
  templates : Option Path
  /-- The names of the projects to build; none for all. -/
  names : List String
  log : Option Path
deriving DecidableEq

/-- What a command line asks for. -/
inductive Command where
  | build (args : BuildArgs)
  | inspect (story : Path)
deriving DecidableEq

namespace Command

/-- A word that may stand as the value of the option in front of it. -/
def isValue (word : String) : Bool := word == "-" || word.toList.head? != some '-'

/-- An option without its dashes, and the value behind its equals sign. -/
def option? (word : String) : Option (String × Option String) :=
  match word.toList with
  | '-' :: '-' :: s =>
    let name := String.ofList (Text.beforeFirst ['='] s)
    match s.dropWhile (· ≠ '=') with
    | [] => some (name, none)
    | _ :: value => some (name, some (String.ofList value))
  | _ => none

/-- The options of a command with their values, in order. A lone double dash may end
them. -/
def options? (known : List String) : List String → Option (List (String × String))
  | [] => some []
  | word :: words =>
    if word = "--" then if words.isEmpty then some [] else none
    else match option? word with
      | none => none
      | some (name, value) =>
        if name ∈ known then
          match value, words with
          -- behind an equals sign any text is a value, also one with a dash in front
          | some v, words => (options? known words).map ((name, v) :: ·)
          | none, [] => none
          | none, v :: words =>
            if isValue v then (options? known words).map ((name, v) :: ·) else none
        else none

def values (name : String) (given : List (String × String)) : List String :=
  (given.filter (·.1 == name)).map (·.2)

/-- The path of an option that may be given once. -/
def path? (name : String) (given : List (String × String)) : Option (Option Path) :=
  match values name given with
  | [] => some none
  | [v] => if v = "" then none else some (some (Path.ofString v))
  | _ => none

/-- The settings of a build. -/
def build? (words : List String) : Option Command := do
  let given ← options? ["config", "vam-path", "projects-path", "templates-path", "project", "log-file"]
    words
  let config ← path? "config" given
  let game ← path? "vam-path" given
  let projects ← path? "projects-path" given
  let templates ← path? "templates-path" given
  let log ← path? "log-file" given
  some (.build
    { config := config.getD (.ofString "config.json")
      names := values "project" given
      game, projects, templates, log })

/-- The story to inspect, which must be named. -/
def inspect? (words : List String) : Option Command := do
  let given ← options? ["dialog"] words
  let story ← path? "dialog" given
  story.map .inspect

/-- The command that the words of a command line state. -/
def parse? : List String → Option Command
  | "build" :: words => build? words
  | "inspect" :: words => inspect? words
  | _ => none

end Command

end Stagecraft
