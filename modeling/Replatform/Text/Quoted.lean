import Replatform.Text.HiddenTable
import Replatform.Text.Word
/-!
# Text in quotes

How a piece of text is shown inside a message or a list: between single quotes, or between double
quotes when it holds a single quote and no double quote. The backslash and the enclosing quote
are escaped, and so is every character without a glyph.
-/

namespace Replatform.Text

/-- Whether `c` is shown as an escape. -/
def isHidden (c : Char) : Bool :=
  if c.toNat < 128 then c.toNat < 32 || c.toNat == 127
  else !isLetter c && inRanges hiddenRanges c.toNat

/-- The last `width` hexadecimal digits of `n`. -/
def hexDigits : Nat → Nat → List Char
  | 0, _ => []
  | width + 1, n => hexDigits width (n / 16) ++ [Nat.digitChar (n % 16)]

/-- The escape of a character without a glyph. -/
def escapeHidden (c : Char) : List Char :=
  match c with
  | '\t' => ['\\', 't']
  | '\n' => ['\\', 'n']
  | '\r' => ['\\', 'r']
  | c =>
    if c.toNat < 0x100 then '\\' :: 'x' :: hexDigits 2 c.toNat
    else if c.toNat < 0x10000 then '\\' :: 'u' :: hexDigits 4 c.toNat
    else '\\' :: 'U' :: hexDigits 8 c.toNat

/-- A character as it stands between two `quote`s. -/
def showChar (quote c : Char) : List Char :=
  if c = quote ∨ c = '\\' then ['\\', c]
  else if isHidden c then escapeHidden c
  else [c]

/-- The quote to put a text in. -/
def quoteFor (s : List Char) : Char := if '\x27' ∈ s ∧ '\x22' ∉ s then '\x22' else '\x27'

def quoted (s : List Char) : List Char :=
  quoteFor s :: (s.flatMap (showChar (quoteFor s)) ++ [quoteFor s])

def quotedList (xs : List String) : String :=
  "[" ++ String.intercalate ", " (xs.map fun s => String.ofList (quoted s.toList)) ++ "]"

end Replatform.Text
