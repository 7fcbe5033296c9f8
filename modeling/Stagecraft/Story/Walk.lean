/-!
# Walks through a story

A walk goes through names depth first and expands each at most once. What an
expansion yields is done in order: notes are written down, and names are gone
to. The names that are left to expand bound the walk.

* `Errand`: to go to a name, or to note something.
* `walk`: the notes of a list of errands.
-/

namespace Stagecraft

/-- What is left to do on a walk. -/
inductive Errand (ω : Type) where
  | go (name : String)
  | note (o : ω)

variable {ω : Type}

/-- The length of a walk through `fresh` names, at most. -/
def walkBound (expand : String → List (Errand ω)) : List String → Nat
  | [] => 0
  | n :: fresh => (expand n).length + 1 + walkBound expand fresh

theorem walkBound_erase (expand : String → List (Errand ω)) {n : String} {fresh : List String}
    (h : n ∈ fresh) :
    walkBound expand (fresh.erase n) + (expand n).length + 1 = walkBound expand fresh := by
  induction fresh with
  | nil => cases h
  | cons m fresh ih =>
    by_cases hm : m = n
    · rw [hm, List.erase_cons_head, walkBound]
      omega
    · have hn : n ∈ fresh := List.mem_of_ne_of_mem (Ne.symm hm) h
      have hrest := ih hn
      rw [List.erase_cons_tail (by simpa using hm), walkBound, walkBound]
      omega

/-- The notes of the errands, in order. A name of `fresh` is expanded when the walk
first goes to it; another is passed over. -/
def walk (expand : String → List (Errand ω)) (fresh : List String) : List (Errand ω) → List ω
  | [] => []
  | .note o :: todo => o :: walk expand fresh todo
  | .go n :: todo =>
    if n ∈ fresh then walk expand (fresh.erase n) (expand n ++ todo)
    else walk expand fresh todo
termination_by todo => walkBound expand fresh + todo.length
decreasing_by
  · simp
  · rename_i h
    have := walkBound_erase expand h
    simp
    omega
  · simp

end Stagecraft
