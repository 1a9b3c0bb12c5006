import Replatform.Text.LetterTable
/-!
# Word characters

A word is a run of letters, digits and underscores of any script. A name in a formula or a query
ends where the next character is none of these.
-/

namespace Replatform.Text

/-- The character is a letter or a digit. -/
def isLetter (c : Char) : Bool :=
  if c.toNat < 128 then c.isAlphanum else inRanges letterRanges c.toNat

/-- The character can stand in a word. -/
def isWord (c : Char) : Bool := c == '_' || isLetter c

/-- Whether a word can begin after the characters of `before`, of which the last comes first. -/
def atWordStart (before : Option Char) : Bool := !before.any isWord

end Replatform.Text
