import Stagecraft.Decimal.Reading

/-!
# Numbers of a document

An integer literal that fits 64 bits, signed or unsigned, stays an integer; any
other literal becomes a double. The double is formed from a 64-bit significand:
digits that no longer fit it only count as places, and one multiplication or
division by a power of ten gives the value, so it can be off by one unit in the
last place. A value beyond the doubles is refused.

* `Number`: an integer or a double.
* `Literal.ofChars?`: the grammar of number literals.
* `Literal.value?`: the number of a literal.
-/

namespace Stagecraft.Json

/-- A number of a document. -/
inductive Number where
  | int (n : Int)
  | float (x : Float)
deriving Repr, BEq, Inhabited

/-- A number literal, cut into its parts. -/
structure Literal where
  negative : Bool
  /-- The digits in front of the point. -/
  whole : List Char
  /-- The digits behind the point, if there is one. -/
  fraction : Option (List Char)
  /-- The exponent, if there is one. -/
  exponent : Option Int
deriving Repr, DecidableEq

namespace Literal

/-- The parts of a literal: no leading zero, and digits on both sides of a point. -/
def ofChars? (s : List Char) : Option Literal :=
  let (negative, s) := match s with
    | '-' :: s => (true, s)
    | s => (false, s)
  let whole := s.takeWhile Char.isDigit
  let (fraction, rest) := match s.dropWhile Char.isDigit with
    | '.' :: t => (some (t.takeWhile Char.isDigit), t.dropWhile Char.isDigit)
    | t => (none, t)
  if whole.isEmpty || (whole.head? == some '0' && whole.length > 1) || fraction == some [] then none
  else if rest.isEmpty then some ⟨negative, whole, fraction, none⟩
  else (Decimal.exponent? rest).map fun e => ⟨negative, whole, fraction, some e⟩

/-- The largest significand. -/
def maxSignificand : Nat := Nat.pow 2 64 - 1

/-- Reads digits into the significand `n` as long as it fits, and counts the others. -/
def accumulate (n : Nat) : List Char → Nat × List Char
  | [] => (n, [])
  | c :: ds =>
    let next := 10 * n + (c.toNat - '0'.toNat)
    if next ≤ maxSignificand then accumulate next ds else (n, c :: ds)

/-- The significand of a literal, with its power of ten. -/
def significand (l : Literal) : Nat × Int :=
  let (n, late) := accumulate 0 l.whole
  let fraction := l.fraction.getD []
  let (n, lost) := accumulate n fraction
  (n, (late.length : Int) - (fraction.length - lost.length : Nat) + l.exponent.getD 0)

/-- The power `10^n` as a double. -/
def power (n : Nat) : Float := Float.ofScientific 1 false n

/-- `n * 10^e` by one multiplication or division, two for a very small value. -/
def scaled? (n : Nat) (e : Int) : Option Float :=
  let x := Float.ofNat n
  if 0 ≤ e then
    if e ≤ 308 then
      let y := x * power e.natAbs
      if y.isInf then none else some y
    else if n = 0 then some x else none
  else if -308 ≤ e then some (x / power e.natAbs)
  -- the power is beyond the doubles, so it is divided by in two parts
  else if -616 ≤ e then some (x / power 308 / power (e + 308).natAbs)
  else some 0.0

/-- The number that a literal states. -/
def value? (l : Literal) : Option Number :=
  let n := Decimal.digitsValue 0 l.whole
  if l.fraction.isNone && l.exponent.isNone && !l.negative && n ≤ maxSignificand then
    some (.int n)
  -- zero with a sign is a double: no integer has that sign
  else if l.fraction.isNone && l.exponent.isNone && l.negative && 0 < n && n ≤ Nat.pow 2 63 then
    some (.int (-n))
  else
    let (m, e) := l.significand
    (scaled? m e).map fun x => .float (if l.negative then -x else x)

end Literal

end Stagecraft.Json
