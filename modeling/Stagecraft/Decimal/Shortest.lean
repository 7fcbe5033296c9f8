import Stagecraft.Decimal.Binary

/-!
# The shortest decimal of a double

A double is written with the fewest digits that are read back as it. Of the
decimals of that length the nearest is taken; which of two equally near ones
is a choice of the output.

* `Binary.onGrid`: the best decimal with a given number of digits, if any reads back.
* `Binary.shortest`: the first of these, from one digit to seventeen.
-/

namespace Stagecraft.Decimal

/-- The choice between two decimals at the same distance. -/
inductive Tie where
  | toEven
  | up
deriving Repr, DecidableEq

namespace Binary

/-- The nearer of `a` and `a + 1` steps of `10^g`. -/
def nearer (tie : Tie) (x : Binary) (a : Nat) (g : Int) : Nat :=
  match order ⟨2 * a + 1, g⟩ (2 * x.m) x.q with
  | .gt => a
  | .lt => a + 1
  | .eq => if tie = .toEven ∧ a % 2 = 0 then a else a + 1

/-- The best decimal on the grid of `10^g`: one of the two neighbours of `x`. -/
def onGrid (tie : Tie) (x : Binary) (g : Int) : Option Scientific :=
  let a := x.stepsOf g
  match x.readsBack ⟨a, g⟩, x.readsBack ⟨a + 1, g⟩ with
  | true, true => some ⟨x.nearer tie a g, g⟩
  | true, false => some ⟨a, g⟩
  | false, true => some ⟨a + 1, g⟩
  | false, false => none

/-- All digits of `x`, which need no search. -/
def exact (x : Binary) : Scientific :=
  if 0 ≤ x.q then ⟨x.m * Nat.pow 2 x.q.toNat, 0⟩ else ⟨x.m * Nat.pow 5 (-x.q).toNat, x.q⟩

/-- The shortest decimal that is read back as the positive value `x`. -/
def shortest (tie : Tie) (x : Binary) : Scientific :=
  let k := x.scale
  -- seventeen digits tell any two doubles apart
  ((List.range 17).findSome? fun n => x.onGrid tie (k - (n + 1 : Nat))).getD x.exact

end Binary

end Stagecraft.Decimal
