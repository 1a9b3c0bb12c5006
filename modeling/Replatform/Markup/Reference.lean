import Replatform.Markup.Character
import Replatform.Number.Digit
/-!
# References

A reference stands for a character, given by its number or by one of five names, or for an entity:
a text that the document declares under a name.
-/

namespace Replatform.Markup

/-- The entities that a document declares. -/
structure Entities where
  texts : List (String × List Char)
  /-- There may be declarations outside the document. -/
  more : Bool
deriving Repr

def Entities.none : Entities := ⟨[], false⟩

/-- The characters that need no declaration. -/
def namedCharacters : List (String × Char) :=
  [("lt", '<'), ("gt", '>'), ("amp", '&'), ("quot", '\x22'), ("apos", '\x27')]

/-- What a reference means. -/
inductive Reference
  | char (c : Char)
  | entity (name : String)
deriving Repr

/-- The value of a decimal digit. -/
def decimalValue? (c : Char) : Option Nat :=
  if c.isDigit then some (c.toNat - 48) else Option.none

/-- The number with the digits `ds`; there is at least one. -/
def numberOf? (base : Nat) (digit? : Char → Option Nat) (ds : List Char) : Option Nat :=
  if ds.isEmpty then Option.none
  else ds.foldlM (fun n c => (digit? c).map (base * n + ·)) 0

/-- The character of a code point. -/
def charOf? (n : Nat) : Option Char := if isCodePoint n then some (Char.ofNat n) else Option.none

/-- The reference behind an ampersand, and what follows its semicolon. -/
def takeReference? : List Char → Option (Reference × List Char)
  | '#' :: 'x' :: s => do
    let (ds, rest) ← takeUntil? [';'] s
    return (.char (← charOf? (← numberOf? 16 Number.hexValue? ds)), rest)
  | '#' :: s => do
    let (ds, rest) ← takeUntil? [';'] s
    return (.char (← charOf? (← numberOf? 10 decimalValue? ds)), rest)
  | s => do
    let (name, rest) ← takeName? s
    match rest with
    | ';' :: rest =>
      let name := String.ofList name
      match namedCharacters.lookup name with
      | some c => some (.char c, rest)
      | Option.none => some (.entity name, rest)
    | _ => Option.none

/-- The value of an attribute as it is meant: references are resolved and separators are spaces. A
value holds no opening bracket. The steps are bounded, which ends references that go in circles. -/
def attributeValue? (entities : Entities) : Nat → List Char → Option (List Char)
  | 0, _ => Option.none
  | _ + 1, [] => some []
  | fuel + 1, '&' :: s => do
    let (r, rest) ← takeReference? s
    let front ← match r with
      | .char c => some [c]
      | .entity name =>
        match entities.texts.lookup name with
        | some text => attributeValue? entities fuel text
        | Option.none => if entities.more then some [] else Option.none
    return front ++ (← attributeValue? entities fuel rest)
  | fuel + 1, c :: s =>
    if c == '<' then Option.none
    else (attributeValue? entities fuel s).map ((if isSpace c then ' ' else c) :: ·)

/-- A declared text with the references to characters by number resolved, and the others kept. A
percent sign would be a reference of another kind, which stands in no text. -/
def declaredText? : Nat → List Char → Option (List Char)
  | 0, _ => Option.none
  | _ + 1, [] => some []
  | fuel + 1, '&' :: s => do
    let (_, rest) ← takeReference? s
    let front ← match s, takeReference? s with
      | '#' :: _, some (.char c, _) => some [c]
      | _, _ => some ('&' :: s.take (s.length - rest.length))
    return front ++ (← declaredText? fuel rest)
  | fuel + 1, c :: s => if c == '%' then Option.none else (declaredText? fuel s).map (c :: ·)

/-- Enough steps for a text with these declarations. -/
def Entities.bound (entities : Entities) (s : List Char) : Nat :=
  entities.texts.foldl (fun n e => n + e.2.length + 1) (s.length + 1)

end Replatform.Markup
