import Stagecraft.Stage.Compile

/-!
# The numbers of branches and buttons

Two numbers never give the same id, so no two branches of a story share an atom, and a
button is no other atom of the pool.

* `branchId_inj`, `buttonId_inj`: ids with a number behind.
* `branchOf_inj`, `branchOf_getElem`: the branches of distinct heads.
-/

namespace Stagecraft

namespace Stage

variable {i j : Nat} {a b : String}

theorem digitsOf_inj (h : Decimal.digitsOf i = Decimal.digitsOf j) : i = j := by
  have hread := congrArg (fun ds => Nat.ofDigitChars 10 ds 0) h
  simpa [Decimal.digitsOf] using hread

theorem numbered_inj {base : String} (h : numbered base i = numbered base j) : i = j := by
  have hs := congrArg String.toList h
  simp only [numbered, String.toList_append, String.toList_ofList] at hs
  exact digitsOf_inj (List.append_cancel_left hs)

theorem branchId_inj (h : branchId i = branchId j) : i = j := numbered_inj h

theorem buttonId_inj (h : buttonId i = buttonId j) : i = j := numbered_inj h

theorem durationId_inj (h : durationId a = durationId b) : a = b := by
  have hs := congrArg String.toList h
  simp only [durationId, String.toList_append] at hs
  exact String.toList_inj.1 (List.append_cancel_right hs)

theorem displayName_inj (h : displayName a = displayName b) : a = b := by
  have hs := congrArg String.toList h
  simp only [displayName, String.toList_append] at hs
  exact String.toList_inj.1 (List.append_cancel_left hs)

/-- No branch is the length of another one. -/
theorem durationId_ne_branchId (b : String) : durationId b ≠ branchId i := by
  intro h
  have hs := congrArg (fun s : String => s.toList.getLast?) h
  have hne : Decimal.digitsOf i ≠ [] := Nat.toDigits_ne_nil
  have hn : "-Duration".toList.getLast? = some 'n' := by decide
  simp only [durationId, branchId, numbered, String.toList_append, String.toList_ofList,
    List.getLast?_append, hn, List.getLast?_eq_some_getLast hne, Option.some_or,
    Option.some.injEq] at hs
  -- a branch ends in a digit
  have hmem : 'n' ∈ Nat.toDigits 10 i := hs ▸ List.getLast_mem hne
  exact absurd (Nat.isDigit_of_mem_toDigits (by decide) (by decide) hmem) (by decide)

/-- A button is neither the panel nor the start button. -/
theorem buttonId_ne : buttonId i ≠ panelId ∧ buttonId i ≠ startButtonId := by
  constructor <;> intro h <;> have hs := congrArg String.toList h <;>
    simp [buttonId, numbered, panelId, startButtonId] at hs

end Stage

namespace Compiler

open Stage

variable {heads : List String} {m n : String}

/-- **A head shares its branch with no other name.** -/
theorem branchOf_inj (hm : m ∈ heads) (h : branchOf heads m = branchOf heads n) : m = n := by
  have hi : heads.idxOf m = heads.idxOf n := by
    have := branchId_inj h
    omega
  rw [← List.getElem_idxOf (List.idxOf_lt_length_of_mem hm)]
  simp [hi]

theorem branchOf_getElem (hd : heads.Nodup) {i : Nat} (hi : i < heads.length) :
    branchOf heads heads[i] = branchId (i + 1) := by
  unfold branchOf
  rw [hd.idxOf_getElem]

end Compiler

end Stagecraft
