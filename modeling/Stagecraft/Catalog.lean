/-!
# Values in the order of their keys

A catalog lists values by a text key, in ascending order of the keys.

* `Catalog.set`, `Catalog.get?`: adds or replaces the value of a key, and finds it.
* `Catalog.ofList`: the catalog of a list, where a later value replaces an earlier one.
* `Catalog.sorted`: the keys alone.
-/

namespace Stagecraft

/-- Values by key, the keys ascending. -/
abbrev Catalog (α : Type) := List (String × α)

namespace Catalog

variable {α : Type}

/-- Puts a value where its key belongs. -/
def set (key : String) (a : α) : Catalog α → Catalog α
  | [] => [(key, a)]
  | (k, b) :: c =>
    if key = k then (key, a) :: c
    else if key < k then (key, a) :: (k, b) :: c
    else (k, b) :: set key a c

def get? (c : Catalog α) (key : String) : Option α := (c.find? (·.1 == key)).map (·.2)

def ofList (entries : List (String × α)) : Catalog α :=
  entries.foldl (fun c e => set e.1 e.2 c) []

/-- Texts in ascending order, each once. -/
def sorted (keys : List String) : List String :=
  (ofList (keys.map fun k => (k, ()))).map (·.1)

end Catalog

end Stagecraft
