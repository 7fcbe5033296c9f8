/-!
# Cutting a text at a separator

The piece in front of the first occurrence of a separator and the piece behind
its last one. A text without the separator is a single piece.

* `beforeFirst`, `afterLast`: the two pieces.
* `pieces`: all pieces between the occurrences of a character.
* `after?`: the rest of a text behind a given beginning.
-/

namespace Stagecraft.Text

/-- The piece in front of the first `sep`. -/
def beforeFirst (sep : List Char) : List Char → List Char
  | [] => []
  | c :: s => if sep.isPrefixOf (c :: s) then [] else c :: beforeFirst sep s

/-- The piece behind the last `sep`, which is read from the right. -/
def afterLast (sep s : List Char) : List Char :=
  (beforeFirst sep.reverse s.reverse).reverse

/-- The pieces between the occurrences of `sep`, at least one. -/
def pieces (sep : Char) : List Char → List (List Char)
  | [] => [[]]
  | c :: s =>
    if c = sep then [] :: pieces sep s
    else match pieces sep s with
      | [] => [[c]]
      | p :: ps => (c :: p) :: ps

theorem pieces_ne_nil (sep : Char) (s : List Char) : pieces sep s ≠ [] := by
  cases s with
  | nil => simp [pieces]
  | cons c s =>
    unfold pieces
    split
    · simp
    · split <;> simp

/-- The pieces with the separator between them are the whole text. -/
theorem intercalate_pieces (sep : Char) (s : List Char) :
    [sep].intercalate (pieces sep s) = s := by
  induction s with
  | nil => rfl
  | cons c s ih =>
    unfold pieces
    split
    · rename_i h
      obtain ⟨p, ps, hp⟩ := List.exists_cons_of_ne_nil (pieces_ne_nil sep s)
      rw [hp] at ih ⊢
      simp [List.intercalate, List.intersperse] at ih ⊢
      exact ⟨h.symm, ih⟩
    · split
      · rename_i hp
        exact absurd hp (pieces_ne_nil sep s)
      · rename_i p ps hp
        rw [hp] at ih
        cases ps <;> simp_all [List.intercalate, List.intersperse]

/-- No piece holds the separator. -/
theorem not_mem_of_mem_pieces {sep : Char} {s p : List Char} (h : p ∈ pieces sep s) : sep ∉ p := by
  induction s generalizing p with
  | nil => simp_all [pieces]
  | cons c s ih =>
    unfold pieces at h
    split at h
    · rcases List.mem_cons.1 h with rfl | h
      · simp
      · exact ih h
    · rename_i hc
      have hc : sep ≠ c := Ne.symm hc
      split at h
      · simp_all
      · rename_i q qs hq
        rcases List.mem_cons.1 h with rfl | h
        · have := ih (p := q) (by rw [hq]; simp)
          simp [hc, this]
        · exact ih (by rw [hq]; simp [h])

/-- What follows `start` in a text that begins with it. -/
def after? : List Char → List Char → Option (List Char)
  | [], s => some s
  | _ :: _, [] => none
  | a :: start, c :: s => if a = c then after? start s else none

theorem after?_eq_some_iff {start s rest : List Char} :
    after? start s = some rest ↔ s = start ++ rest := by
  induction start generalizing s with
  | nil => simp [after?]
  | cons a start ih =>
    cases s with
    | nil => simp [after?]
    | cons c s =>
      by_cases h : a = c
      · simp [after?, h, ih]
      · simp [after?, h, Ne.symm h]

end Stagecraft.Text
