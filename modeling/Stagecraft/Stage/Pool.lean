import Stagecraft.Stage.Trigger
import Stagecraft.Story.Capacity
import Stagecraft.Template.Store

/-!
# The pool of story atoms

The atoms that play stories are made from templates: the panel with its start
button, an atom and its length for each branch, and the choice buttons. All
scenes of a project share one pool.

* `dialogAtoms?`, `branchAtoms?`, `buttonAtoms?`: the parts of the pool.
* `pool?`: the pool for a capacity.
* `triggerTemplate?`: the object that fresh triggers start as.
-/

namespace Stagecraft.Stage

open TemplateStore (gather)

variable (s : TemplateStore) (t : FileTree)

/-- The root, the panel and the start button. -/
def dialogAtoms? : Except Fault (List Atom) := s.instantiate? t "dialog" {}

/-- Branch `n` and its length. -/
def branchAtoms? (n : Nat) : Except Fault (List Atom) :=
  s.instantiate? t "dialog_branch" { id := some (branchId n) }

/-- Choice button `n`, below those before it. -/
def buttonAtoms? (n : Nat) : Except Fault (List Atom) :=
  s.instantiate? t "dialog_choice" { id := some (buttonId n), position := some (buttonHeight (n - 1)) }

/-- The pool for a capacity: nothing for none. -/
def pool? (c : Capacity) : Except Fault (List Atom) := do
  let roots ← if c.branches = 0 then .ok [] else dialogAtoms? s t
  let branches ← gather (branchAtoms? s t) 1 c.branches
  let buttons ← gather (buttonAtoms? s t) 1 c.choices
  .ok (roots ++ branches ++ buttons)

/-- The object that fresh triggers start as. -/
def triggerTemplate? : Except Fault Trigger :=
  match s.load? t "trigger" {} with
  | .error f => .error f
  | .ok (.obj fs) => .ok fs
  | .ok _ => .error (.templateNotObject "trigger")

end Stagecraft.Stage
