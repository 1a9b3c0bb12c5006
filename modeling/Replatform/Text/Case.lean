import Replatform.Text.CaseTable
/-!
# Capital and small letters

The change of case of a whole text. A character may become several (`ß` becomes `SS`), and the
small form of a capital sigma depends on its neighbours: at the end of a word it is the final
sigma.

ASCII letters are dealt with first and never meet the tables, so what is said about names of
ASCII letters needs no table.
-/

namespace Replatform.Text

/-- Whether `n` is one of every `step`-th code point from `first` to `last`. -/
def inStep (first last step n : Nat) : Bool := first ≤ n && n ≤ last && (n - first) % step == 0

/-- The counterpart of `n` in a table of shifts and one of expansions; itself, if in neither. -/
def counterpart (shifts : List (Nat × Nat × Nat × Nat)) (expansions : List (Nat × List Nat))
    (n : Nat) : List Char :=
  match expansions.find? (·.1 == n) with
  | some (_, ns) => ns.map Char.ofNat
  | none =>
    match shifts.find? fun (first, last, step, _) => inStep first last step n with
    | some (first, _, _, target) => [Char.ofNat (target + (n - first))]
    | none => [Char.ofNat n]

/-- The capital of a letter. -/
def upperChar (c : Char) : List Char :=
  if c.toNat < 128 then [c.toUpper] else counterpart upperShifts upperExpansions c.toNat

/-- The small form of a character that stands alone. -/
def lowerChar (c : Char) : List Char :=
  if c.toNat < 128 then [c.toLower] else counterpart lowerShifts lowerExpansions c.toNat

/-- The letter is half a capital. -/
def isInitial (c : Char) : Bool := inRanges initialRanges c.toNat

/-- A small letter behind the first character of an initial; the iota is written below it. -/
def restChar (c : Char) : List Char := if c = '\u0399' then ['\u0345'] else lowerChar c

/-- The letter as the first of a word. -/
def titleChar (c : Char) : List Char :=
  if c.toNat < 128 then [c.toUpper]
  else if isInitial c then [c]
  else match titleExpansions.find? (·.1 == c.toNat), upperChar c with
    | some (_, ns), _ => ns.map Char.ofNat
    | none, d :: ds => d :: ds.flatMap restChar
    | none, [] => []

/-- Whether `n` has a counterpart in a table of shifts or in one of expansions. -/
def hasCounterpart (shifts : List (Nat × Nat × Nat × Nat)) (expansions : List (Nat × List Nat))
    (n : Nat) : Bool :=
  expansions.any (·.1 == n) || shifts.any fun (first, last, step, _) => inStep first last step n

def isCapital (c : Char) : Bool :=
  if c.toNat < 128 then c.isUpper
  else hasCounterpart lowerShifts lowerExpansions c.toNat && !isInitial c
    || inRanges capitalRanges c.toNat

def isSmall (c : Char) : Bool :=
  if c.toNat < 128 then c.isLower
  else hasCounterpart upperShifts upperExpansions c.toNat && !isInitial c
    || inRanges smallRanges c.toNat

/-- The letter has a case. -/
def isCased (c : Char) : Bool := isCapital c || isSmall c || isInitial c

/-- Whether `c` is passed over when the neighbours of a letter are looked at. Of ASCII these are
the apostrophe, the full stop, the colon, the circumflex and the grave accent. -/
def isCaseless (c : Char) : Bool :=
  if c.toNat < 128 then c.toNat ∈ [39, 46, 58, 94, 96] else inRanges caselessRanges c.toNat

/-- The next letter that counts has a case. -/
def besideCased (s : List Char) : Bool := (s.dropWhile isCaseless).head?.any isCased

/-- The small form of `c` between the characters `before`, the nearest first, and `behind`. -/
def lowerBetween (before : List Char) (c : Char) (behind : List Char) : List Char :=
  if c = 'Σ' then if besideCased before && !besideCased behind then ['ς'] else ['σ']
  else lowerChar c

/-- The small form of a text that stands behind `before`. -/
def lowerGo (before : List Char) : List Char → List Char
  | [] => []
  | c :: s => lowerBetween before c s ++ lowerGo (c :: before) s

/-- The text in small letters. -/
def lower (s : List Char) : List Char := lowerGo [] s

/-- The text in capitals. -/
def upper (s : List Char) : List Char := s.flatMap upperChar

/-- The text with every word capitalised, when `before` is what stands before it. -/
def titleGo (before : List Char) : List Char → List Char
  | [] => []
  | c :: s =>
    (if before.head?.any isCased then lowerBetween before c s else titleChar c)
      ++ titleGo (c :: before) s

/-- The text with the first letter of every word as an initial and the others small. -/
def title (s : List Char) : List Char := titleGo [] s

/-- Whether the letters of the text are capitals, and there is at least one. -/
def allCapital (s : List Char) : Bool := s.any isCapital && !s.any fun c => isSmall c || isInitial c

/-- Whether `c` is the letter `letter` of an ASCII name when case is ignored. Besides the two
forms of the letter, the signs that share its small or capital form count: the dotted and the
dotless i, the long s, and the sign for kelvin. -/
def sameLetter (letter c : Char) : Bool :=
  c.toLower == letter.toLower ||
    match letter.toLower with
    | 'i' => c == '\u0130' || c == '\u0131'
    | 's' => c == '\u017f'
    | 'k' => c == '\u212a'
    | _ => false

/-- What follows the ASCII name `name` in `s`, when `s` begins with it, case ignored. -/
def afterName? : List Char → List Char → Option (List Char)
  | [], s => some s
  | _ :: _, [] => none
  | p :: name, c :: s => if sameLetter p c then afterName? name s else none

end Replatform.Text
