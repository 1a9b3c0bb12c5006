import Replatform.Markup.Reference
/-!
# Content of elements

Content is a sequence of tokens: the tags that open and close elements, and text. Comments and
instructions leave no token. An element that is closed in its own tag gives both tokens.

A text that an entity stands for is content of its own: the elements that it opens it closes.
-/

namespace Replatform.Markup

/-- A tag or a piece of text. -/
inductive Token
  | opening (name : WrittenName) (attributes : List (WrittenName × String))
  | closing (name : WrittenName)
  /-- Text as it stands. -/
  | text (s : List Char)
  /-- Text that is quoted or stands behind a reference. -/
  | quoted (s : List Char)
deriving Repr

/-- What follows a comment, of which the opening is read. Two dashes end it. -/
def skipComment? (s : List Char) : Option (List Char) := do
  let (_, rest) ← takeUntil? ['-', '-'] s
  Text.after? ['>'] rest

/-- What follows an instruction, of which the opening is read. It names whom it is for; that is
not the name of the declaration that documents begin with. -/
def skipInstruction? (s : List Char) : Option (List Char) := do
  let (target, rest) ← takeName? s
  if target.map Char.toLower = ['x', 'm', 'l'] then none
  else match Text.after? ['?', '>'] rest with
    | some rest => some rest
    | none => do
      let rest ← spaces? rest
      return (← takeUntil? ['?', '>'] rest).2

/-- The attributes of a tag with its end: whether the tag closes its element, and what follows. -/
def takeAttributes? (entities : Entities) :
    Nat → List Char → Option (List (WrittenName × String) × Bool × List Char)
  | 0, _ => none
  | fuel + 1, s =>
    match skipSpaces s with
    | '>' :: rest => some ([], false, rest)
    | '/' :: '>' :: rest => some ([], true, rest)
    | _ => do
      let s ← spaces? s
      let (name, rest) ← takeWrittenName? s
      let rest ← Text.after? ['='] (skipSpaces rest)
      let (raw, rest) ← takeQuoted? (skipSpaces rest)
      let value ← attributeValue? entities (entities.bound raw) raw
      let (more, closed, rest) ← takeAttributes? entities fuel rest
      if more.any (·.1 == name) then none
      else some ((name, String.ofList value) :: more, closed, rest)

/-- Whether the tokens close what they open and nothing else, `depth` elements being open. -/
def balancedFrom (depth : Nat) : List Token → Bool
  | [] => depth == 0
  | .opening .. :: ts => balancedFrom (depth + 1) ts
  | .closing _ :: ts => depth != 0 && balancedFrom (depth - 1) ts
  | _ :: ts => balancedFrom depth ts

/-- A token as it is written. -/
inductive Lexeme
  | aside
  | opening (name : WrittenName) (attributes : List (WrittenName × String)) (closed : Bool)
  | closing (name : WrittenName)
  | text (s : List Char)
  | quoted (s : List Char)
  | entity (name : String)
deriving Repr

/-- What stands at the front of a text, and what follows it. A tag has fewer than `limit`
attributes; the length of the text is limit enough. -/
def takeLexeme? (entities : Entities) (limit : Nat) : List Char → Option (Lexeme × List Char)
  | [] => none
  | '<' :: '!' :: '-' :: '-' :: s => (skipComment? s).map (.aside, ·)
  | '<' :: '!' :: s => do
    let s ← Text.after? ['[', 'C', 'D', 'A', 'T', 'A', '['] s
    let (data, rest) ← takeUntil? [']', ']', '>'] s
    return (.quoted data, rest)
  | '<' :: '?' :: s => (skipInstruction? s).map (.aside, ·)
  | '<' :: '/' :: s => do
    let (name, rest) ← takeWrittenName? s
    return (.closing name, ← Text.after? ['>'] (skipSpaces rest))
  | '<' :: s => do
    let (name, rest) ← takeWrittenName? s
    let (attributes, closed, rest) ← takeAttributes? entities limit rest
    return (.opening name attributes closed, rest)
  | '&' :: s => do
    let (r, rest) ← takeReference? s
    match r with
    | .char c => return (.quoted [c], rest)
    | .entity name => return (.entity name, rest)
  | c :: s =>
    let isText := fun c : Char => c != '<' && c != '&'
    let run := c :: s.takeWhile isText
    if Text.has [']', ']', '>'] run then none else some (.text run, s.dropWhile isText)

/-- The tokens of a lexeme; what a reference stands for is found by `expand`. -/
def Lexeme.tokens? (expand : String → Option (List Token)) : Lexeme → Option (List Token)
  | .aside => some []
  | .opening name attributes closed =>
    some (.opening name attributes :: if closed then [.closing name] else [])
  | .closing name => some [.closing name]
  | .text t => some [.text t]
  | .quoted t => some [.quoted t]
  | .entity name => expand name

/-- The tokens of a text. The steps are bounded, which ends references that go in circles. -/
def tokens? (entities : Entities) : Nat → List Char → Option (List Token)
  | 0, _ => none
  | _ + 1, [] => some []
  | fuel + 1, s => do
    let (lexeme, rest) ← takeLexeme? entities (fuel + 1) s
    let front ← lexeme.tokens? fun name => do
      let ts ← tokens? entities fuel (← entities.texts.lookup name)
      if balancedFrom 0 ts then some ts else none
    return front ++ (← tokens? entities fuel rest)

end Replatform.Markup
