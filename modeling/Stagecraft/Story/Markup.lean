import Stagecraft.Text.Blank

/-!
# Link markup

The text of a passage repeats its links as `[[...]]`, with one character or
more inside and no closing bracket among them. The player sees the text without
this markup.

* `Markup.link?`: a link at the start of a text.
* `Markup.strip`: a text without its links, read from the left.
* `Markup.content`: what the player sees.
-/

namespace Stagecraft.Markup

/-- What follows the link at the start of a text. -/
def link? : List Char → Option (List Char)
  | '[' :: '[' :: s =>
    match s.takeWhile (· ≠ ']'), s.dropWhile (· ≠ ']') with
    -- an opening bracket inside belongs to the link like any other character
    | _ :: _, ']' :: ']' :: rest => some rest
    | _, _ => none
  | _ => none

theorem length_lt_of_link? {s rest : List Char} (h : link? s = some rest) :
    rest.length < s.length := by
  unfold link? at h
  split at h
  · rename_i t
    split at h
    · rename_i rest' _ hd
      have := (List.dropWhile_sublist (fun c => decide (c ≠ ']')) (l := t)).length_le
      simp_all
      omega
    · simp at h
  · simp at h

/-- The text without its links. -/
def strip (s : List Char) : List Char :=
  match _ : link? s with
  | some rest => strip rest
  | none => match s with
    | [] => []
    | c :: t => c :: strip t
termination_by s.length
decreasing_by
  · exact length_lt_of_link? ‹_›
  · simp

/-- A link is left out. -/
theorem strip_of_link? {s rest : List Char} (h : link? s = some rest) : strip s = strip rest := by
  rw [strip]
  split
  · simp_all
  · simp_all

@[simp] theorem strip_nil : strip [] = [] := by rw [strip]; rfl

/-- A character that no link starts with is kept. -/
theorem strip_cons {c : Char} {s : List Char} (h : link? (c :: s) = none) :
    strip (c :: s) = c :: strip s := by
  rw [strip]
  split
  · simp_all
  · rfl

/-- What the player sees of a text. -/
def content (s : String) : String := String.ofList (Text.trim (strip s.toList))

end Stagecraft.Markup
