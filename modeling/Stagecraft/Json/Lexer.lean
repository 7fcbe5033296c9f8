import Stagecraft.Json.Raw

/-!
# The tokens of a document text

The text is read character by character. Words, numbers and quoted texts are
collected until they end; the blanks between tokens are space, tab, line feed
and carriage return.

* `Token`: punctuation, or a value without parts.
* `Lexer.step`: one character.
* `tokens?`: the tokens of a text.
-/

namespace Stagecraft.Json

/-- A token of a document text. -/
inductive Token where
  | openList
  | closeList
  | openObject
  | closeObject
  | comma
  | colon
  | leaf (v : Raw)

/-- A piece of a quoted text: a character, or a 16-bit unit that is written as an escape. -/
inductive Piece where
  | char (c : Char)
  | unit (n : Nat)
deriving DecidableEq

/-- The characters of the pieces. Units of a surrogate pair stand together. -/
def Piece.join? : List Piece → Option (List Char)
  | [] => some []
  | .char c :: ps => (join? ps).map (c :: ·)
  | .unit hi :: ps =>
    if 0xD800 ≤ hi ∧ hi < 0xDC00 then
      match ps with
      | .unit lo :: ps =>
        if 0xDC00 ≤ lo ∧ lo < 0xE000 then
          (join? ps).map (Char.ofNat (0x10000 + (hi - 0xD800) * 0x400 + (lo - 0xDC00)) :: ·)
        else none
      -- half of a pair is no character, not even beside one that is written out
      | _ => none
    else if 0xDC00 ≤ hi ∧ hi < 0xE000 then none
    else (join? ps).map (Char.ofNat hi :: ·)

/-- What is being read; collected characters stand in reverse. -/
inductive Scan where
  | gap
  | word (back : List Char)
  | number (back : List Char)
  | quoted (back : List Piece)
  /-- Behind a backslash. -/
  | escaped (back : List Piece)
  /-- Inside a unit of four hexadecimal digits. -/
  | unit (back : List Piece) (n : Nat) (digits : Nat)

/-- A reader of tokens, the last one first. -/
structure Lexer where
  scan : Scan := .gap
  back : List Token := []

namespace Lexer

/-- The token of a word. -/
def word? (s : List Char) : Option Token :=
  if s = ['n', 'u', 'l', 'l'] then some (.leaf .null)
  else if s = ['t', 'r', 'u', 'e'] then some (.leaf (.bool true))
  else if s = ['f', 'a', 'l', 's', 'e'] then some (.leaf (.bool false))
  else none

/-- The token of a number. -/
def number? (s : List Char) : Option Token :=
  (Literal.ofChars? s).map fun l => .leaf (.num l.value?)

/-- The characters that numbers are made of. -/
def inNumber (c : Char) : Bool := c.isDigit || c == '-' || c == '+' || c == '.' || c == 'e' || c == 'E'

/-- The character for which a letter stands behind a backslash. -/
def unletter? : Char → Option Char
  | '"' => some '"'
  | '\\' => some '\\'
  | '/' => some '/'
  | 'b' => some '\x08'
  | 't' => some '\t'
  | 'n' => some '\n'
  | 'f' => some '\x0c'
  | 'r' => some '\r'
  | _ => none

/-- The value of a hexadecimal digit. -/
def hexDigit? (c : Char) : Option Nat :=
  if c.isDigit then some (c.toNat - '0'.toNat)
  else if 'a' ≤ c ∧ c ≤ 'f' then some (c.toNat - 'a'.toNat + 10)
  else if 'A' ≤ c ∧ c ≤ 'F' then some (c.toNat - 'A'.toNat + 10)
  else none

/-- Reads a character between tokens. -/
def start? (back : List Token) (c : Char) : Option Lexer :=
  match c with
  | ' ' | '\t' | '\n' | '\r' => some ⟨.gap, back⟩
  | '[' => some ⟨.gap, .openList :: back⟩
  | ']' => some ⟨.gap, .closeList :: back⟩
  | '\x7b' => some ⟨.gap, .openObject :: back⟩
  | '\x7d' => some ⟨.gap, .closeObject :: back⟩
  | ',' => some ⟨.gap, .comma :: back⟩
  | ':' => some ⟨.gap, .colon :: back⟩
  | '"' => some ⟨.quoted [], back⟩
  | c =>
    if c.isDigit || c == '-' then some ⟨.number [c], back⟩
    else if c.isAlpha then some ⟨.word [c], back⟩
    else none

/-- Reads a character. -/
def step (l : Lexer) (c : Char) : Option Lexer :=
  match l.scan with
  | .gap => start? l.back c
  | .word back =>
    if c.isAlpha then some ⟨.word (c :: back), l.back⟩
    -- what ends a word is read again, as the start of what follows
    else (word? back.reverse).bind fun t => start? (t :: l.back) c
  | .number back =>
    if inNumber c then some ⟨.number (c :: back), l.back⟩
    else (number? back.reverse).bind fun t => start? (t :: l.back) c
  | .quoted back =>
    if c = '"' then
      some ⟨.gap, .leaf (.str ((Piece.join? back.reverse).map String.ofList)) :: l.back⟩
    else if c = '\\' then some ⟨.escaped back, l.back⟩
    -- a control character stands in a text as an escape only
    else if c.toNat < 0x20 then none
    else some ⟨.quoted (.char c :: back), l.back⟩
  | .escaped back =>
    if c = 'u' then some ⟨.unit back 0 4, l.back⟩
    else (unletter? c).map fun d => ⟨.quoted (.char d :: back), l.back⟩
  | .unit back n digits =>
    (hexDigit? c).map fun d =>
      let n := 16 * n + d
      if digits ≤ 1 then ⟨.quoted (.unit n :: back), l.back⟩ else ⟨.unit back n (digits - 1), l.back⟩

/-- The tokens at the end of the text. -/
def finish? (l : Lexer) : Option (List Token) :=
  match l.scan with
  | .gap => some l.back.reverse
  | .word back => (word? back.reverse).map fun t => (t :: l.back).reverse
  | .number back => (number? back.reverse).map fun t => (t :: l.back).reverse
  | _ => none

end Lexer

/-- The tokens of a text. -/
def tokens? (s : List Char) : Option (List Token) :=
  (s.foldlM Lexer.step {}).bind Lexer.finish?

end Stagecraft.Json
