import Stagecraft.Decimal.Shortest

/-!
# Writing doubles as text

A double is written with its shortest digits. A style says which magnitudes
are written position by position and which with an exponent.

* `Style.write`: the text of a double in a style.
* `plain`, `format`: the style of the numbers inside a scene, never with an exponent.
-/

namespace Stagecraft.Decimal

/-- The choices of an output that shows doubles. -/
structure Style where
  tie : Tie
  /-- The exponents of a leading digit that is written position by position. -/
  positional : Int → Bool

/-- The decimal digits of a number, the leading one first. -/
def digitsOf (n : Nat) : List Char := Nat.toDigits 10 n

/-- The digits without the zeros at their right end, the number of which is the
second component. -/
def dropZeros (ds : List Char) : List Char × Nat :=
  let back := ds.reverse
  ((back.dropWhile (· == '0')).reverse, (back.takeWhile (· == '0')).length)

/-- Digits with the point after the first `n` of them; a side without digits gets a zero. -/
def point (ds : List Char) (n : Int) : List Char :=
  if n ≤ 0 then '0' :: '.' :: (List.replicate (-n).toNat '0' ++ ds)
  else if n < ds.length then ds.take n.toNat ++ '.' :: ds.drop n.toNat
  else ds ++ (List.replicate (n.toNat - ds.length) '0' ++ ['.', '0'])

/-- Digits as a leading digit, a fraction unless it is empty, and a signed exponent. -/
def scientific (ds : List Char) (e : Int) : List Char :=
  let exponent := (if e < 0 then '-' else '+') :: digitsOf e.natAbs
  match ds with
  | [] => 'e' :: exponent
  | [d] => d :: 'e' :: exponent
  | d :: ds => d :: '.' :: (ds ++ 'e' :: exponent)

namespace Style

def magnitude (style : Style) (x : Binary) : List Char :=
  if x.m = 0 then ['0', '.', '0']
  else
    let d := x.shortest style.tie
    let (ds, zeros) := dropZeros (digitsOf d.digits)
    let e : Int := d.exp + zeros + ds.length - 1
    if style.positional e then point ds (e + 1) else scientific ds e

/-- The text of a double. A value that is no number has no sign. -/
def write (style : Style) (x : Float) : List Char :=
  let bits := x.toBits
  let sign := if bits >>> 63 = 1 then ['-'] else []
  if (bits >>> 52) &&& 0x7FF = 0x7FF then
    if bits &&& 0xFFFFFFFFFFFFF = 0 then sign ++ ['i', 'n', 'f'] else ['N', 'a', 'N']
  else sign ++ style.magnitude (.ofBits bits)

end Style

/-- Numbers inside a scene never have an exponent; a tie goes up. -/
def plain : Style where
  tie := .up
  positional := fun _ => true

/-- The text of a number inside a scene. -/
def format (x : Float) : String := String.ofList (plain.write x)

end Stagecraft.Decimal
