import Stagecraft.Text.Caseless

/-!
# Reading doubles from text

A number is an optional sign and then `inf`, `infinity` or `nan` in any letter
case, or digits with at most one point and an optional exponent, at least one
digit standing beside the point. The result is rounded once, ties to even.

* `rounded`: the double nearest to `digits * 10^exp`.
* `read?`: the double that a text states.
-/

namespace Stagecraft.Decimal

/-- The value of decimal digits, continuing from `n`. -/
def digitsValue (n : Nat) (ds : List Char) : Nat :=
  ds.foldl (fun n c => 10 * n + (c.toNat - '0'.toNat)) n

/-- The double nearest to `digits * 10^exp`. Beyond 400 places every value is
infinite or zero, so no larger power of ten is ever formed. -/
def rounded (digits : Nat) (exp : Int) : Float :=
  let top := (Nat.toDigits 10 digits).length + exp
  if digits = 0 ∨ top < -400 then 0.0
  else if 400 < top then 1.0 / 0.0
  else Float.ofScientific digits (exp < 0) exp.natAbs

/-- The exponent that ends a number: none, or a mark, a sign and digits. -/
def exponent? : List Char → Option Int
  | [] => some 0
  | c :: s =>
    if c = 'e' ∨ c = 'E' then
      let (negative, ds) := match s with
        | '-' :: ds => (true, ds)
        | '+' :: ds => (false, ds)
        | ds => (false, ds)
      if ds.isEmpty || !ds.all Char.isDigit then none
      else
        let n : Int := digitsValue 0 ds
        some (if negative then -n else n)
    else none

def magnitude? (s : List Char) : Option Float :=
  let whole := s.takeWhile Char.isDigit
  let (fraction, rest) := match s.dropWhile Char.isDigit with
    | '.' :: t => (t.takeWhile Char.isDigit, t.dropWhile Char.isDigit)
    | t => ([], t)
  if whole.isEmpty && fraction.isEmpty then
    let word := String.ofList (s.map Char.toLower)
    if word = "inf" ∨ word = "infinity" then some (1.0 / 0.0)
    else if word = "nan" then some (0.0 / 0.0)
    else none
  else
    (exponent? rest).map fun e =>
      rounded (digitsValue 0 (whole ++ fraction)) (e - fraction.length)

def read? : List Char → Option Float
  | '-' :: s => (magnitude? s).map fun x => -x
  | '+' :: s => magnitude? s
  | s => magnitude? s

end Stagecraft.Decimal
