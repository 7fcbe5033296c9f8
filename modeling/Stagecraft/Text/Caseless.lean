/-!
# Words in any letter case

Equality with a word of plain small letters, whatever the letter case of the
text. Besides the 26 plain capitals only the Kelvin sign has a plain letter as
its whole small form.

* `small`: the small form of a character, as far as plain letters go.
* `isWord`: the text is the given word in some letter case.
-/

namespace Stagecraft.Text

/-- The Kelvin sign, a capital k. -/
def kelvin : Char := '\u212a'

/-- The plain small letter that is the small form of `c`, or `c` where there is none. -/
def small (c : Char) : Char :=
  if c = kelvin then 'k' else c.toLower

/-- `s` is `word` in some letter case; `word` is in plain small letters. -/
def isWord (word s : String) : Bool :=
  s.toList.map small == word.toList

end Stagecraft.Text
