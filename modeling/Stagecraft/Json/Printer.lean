import Stagecraft.Decimal.Layout
import Stagecraft.Json.Basic

/-!
# The compact text of a document

Values are written without blanks, fields in their order. Inside quotes only
the quote, the backslash and the characters below U+0020 are escaped.

* `quote`: a text between quotes.
* `chars`, `compact`: the text of a value.
-/

namespace Stagecraft.Json

/-- The letter that stands for a character behind a backslash. -/
def letter? : Char → Option Char
  | '"' => some '"'
  | '\\' => some '\\'
  | '\x08' => some 'b'
  | '\t' => some 't'
  | '\n' => some 'n'
  | '\x0c' => some 'f'
  | '\r' => some 'r'
  | _ => none

/-- The written form of a character inside quotes. -/
def escape (c : Char) : List Char :=
  match letter? c with
  | some l => ['\\', l]
  | none =>
    if c.toNat < 0x20 then
      ['\\', 'u', '0', '0', Nat.digitChar (c.toNat / 16), Nat.digitChar (c.toNat % 16)]
    else [c]

/-- A text between quotes. -/
def quote (s : String) : List Char :=
  '"' :: (s.toList.flatMap escape ++ ['"'])

/-- Doubles have an exponent from `1e16` on and below `0.00001`; a tie goes to even. -/
def decimals : Decimal.Style where
  tie := .toEven
  positional := fun e => -5 ≤ e && e ≤ 15

/-- The text of a number. -/
def Number.chars : Number → List Char
  | .int n => (if n < 0 then ['-'] else []) ++ Decimal.digitsOf n.natAbs
  | .float x => decimals.write x

mutual

/-- The text of a value. -/
def chars : Json → List Char
  | .null => ['n', 'u', 'l', 'l']
  | .bool true => ['t', 'r', 'u', 'e']
  | .bool false => ['f', 'a', 'l', 's', 'e']
  | .num n => n.chars
  | .str s => quote s
  | .arr vs => '[' :: (itemChars vs ++ [']'])
  | .obj fs => '\x7b' :: (fieldChars fs ++ ['\x7d'])

/-- The items of a list, with commas between them. -/
def itemChars : List Json → List Char
  | [] => []
  | [v] => chars v
  | v :: w :: vs => chars v ++ ',' :: itemChars (w :: vs)

/-- The fields of an object, with commas between them. -/
def fieldChars : List (String × Json) → List Char
  | [] => []
  | [(k, v)] => quote k ++ ':' :: chars v
  | (k, v) :: f :: fs => quote k ++ ':' :: (chars v ++ ',' :: fieldChars (f :: fs))

end

/-- The compact text of a value. -/
def compact (v : Json) : String := String.ofList v.chars

end Stagecraft.Json
