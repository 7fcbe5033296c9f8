import Stagecraft.Command.Run

/-!
# What a command works on

The files and directories that a command looks at or changes, as far as the
known part of the file tree tells. With more of the tree known there are more
of them, until all are known.

* `Site`: a file or directory, alone or with what is below it.
* `Command.sites`: the sites of a command.
-/

namespace Stagecraft

/-- A file or directory that a command works on. -/
inductive Site where
  | alone (path : Path)
  | whole (path : Path)
deriving DecidableEq

namespace Project

def sites (p : Project) (t : FileTree) : List Site :=
  [.whole p.source, .whole p.build] ++ (p.planned t).flatMap fun (path, story) =>
    .alone (p.build.child path) :: story.toList.map fun file => .alone (p.dir.child file)

end Project

namespace Command

def buildSites (args : BuildArgs) (t : FileTree) : List Site :=
  let first := args.log.toList.map Site.alone ++ [.alone args.config]
  match config? args t with
  | .error _ => first
  | .ok c =>
    let dirs := c.game.toList.flatMap fun game =>
      [Site.alone game, .alone ((game.child "Saves").child "scene")]
    let shared := first ++ dirs ++ [.whole c.projects, .whole c.templates]
    match prepare? args t with
    | .error _ => shared
    | .ok (dirs, names) => shared ++ names.flatMap fun name => match Project.open? t dirs name with
      | .error _ => []
      | .ok p => p.sites t

def sites (t : FileTree) : Command → List Site
  | .build args => buildSites args t
  | .inspect story => [.alone story]

end Command

end Stagecraft
