import Replatform.Markup.Token
/-!
# What stands before the outermost element

A document may begin with a declaration of its version, its encoding and its independence, in this
order, and go on with a declaration of its type, among comments and instructions. Of a declaration
of type only the texts that it declares are kept.
-/

namespace Replatform.Markup

/-- What a document says of itself in its first line. -/
structure Heading where
  encoding : Option String
deriving DecidableEq, Repr

/-- The character may stand in the heading. -/
def isHeadingChar (c : Char) : Bool := c.isAlphanum || c == '.' || c == '-' || c == '_'

/-- An item of the heading: a name, an equals sign and a value in quotation marks. -/
def takeHeadingItem? (s : List Char) : Option (String × List Char × List Char) := do
  let s ← spaces? s
  let (name, rest) ← takeName? s
  let rest ← Text.after? ['='] (skipSpaces rest)
  let (value, rest) ← takeQuoted? (skipSpaces rest)
  if value.all isHeadingChar then some (String.ofList name, value, rest) else none

def endHeading? (s : List Char) : Option (List Char) := Text.after? ['?', '>'] (skipSpaces s)

/-- The heading behind its encoding, which may be a word on independence. -/
def independence? (s : List Char) : Option (List Char) :=
  match endHeading? s with
  | some rest => some rest
  | none => do
    let (name, value, rest) ← takeHeadingItem? s
    if name = "standalone" ∧ (value = "yes".toList ∨ value = "no".toList) then endHeading? rest
    else none

/-- The heading behind its version. -/
def encodingItem? (s : List Char) : Option (Heading × List Char) :=
  match takeHeadingItem? s with
  | some ("encoding", value, rest) =>
    if (value.head?.map Char.isAlpha).getD false then
      (independence? rest).map (⟨some (String.ofList value)⟩, ·)
    else none
  | _ => (independence? s).map (⟨none⟩, ·)

/-- The heading of a document, if it has one, and what follows. -/
def takeHeading? (s : List Char) : Option (Heading × List Char) :=
  match Text.after? "<?xml".toList s with
  | some rest =>
    if (rest.head?.map isSpace).getD false then
      match takeHeadingItem? rest with
      | some ("version", _, rest) => encodingItem? rest
      | _ => none
    else some (⟨none⟩, s)
  | none => some (⟨none⟩, s)

/-- What follows the separators, comments and instructions at the front. -/
def skipMisc? : Nat → List Char → Option (List Char)
  | 0, _ => none
  | fuel + 1, s =>
    match skipSpaces s with
    | '<' :: '!' :: '-' :: '-' :: s => (skipComment? s).bind (skipMisc? fuel)
    | '<' :: '?' :: s => (skipInstruction? s).bind (skipMisc? fuel)
    | s => some s

/-- What follows a name of something outside the document, and whether there is one. -/
def takeExternal? (s : List Char) : Option (Bool × List Char) :=
  match Text.after? "SYSTEM".toList s, Text.after? "PUBLIC".toList s with
  | some rest, _ => do
    let (_, rest) ← takeQuoted? (← spaces? rest)
    return (true, rest)
  | none, some rest => do
    let (_, rest) ← takeQuoted? (← spaces? rest)
    let (_, rest) ← takeQuoted? (← spaces? rest)
    return (true, rest)
  | none, none => some (false, s)

/-- What follows the end of a declaration; a bracket between quotation marks is no end. -/
def skipDeclaration? : Nat → List Char → Option (List Char)
  | 0, _ => none
  | _ + 1, [] => none
  | _ + 1, '>' :: s => some s
  | fuel + 1, c :: s =>
    if c == '\x22' || c == '\x27' then (takeQuoted? (c :: s)).bind (skipDeclaration? fuel ·.2)
    else if c == '<' then none
    else skipDeclaration? fuel s

/-- The declaration of an entity: its name and its text, if it is declared here for references in
content, and what follows. -/
def takeEntity? (s : List Char) : Option (Option (String × List Char) × List Char) := do
  let s ← spaces? s
  let (inContent, s) ← match s with
    | '%' :: s => (spaces? s).map (false, ·)
    | s => some (true, s)
  let (name, rest) ← takeName? s
  let rest ← spaces? rest
  match takeQuoted? rest with
  | some (raw, rest) =>
    let text ← declaredText? (raw.length + 1) raw
    let rest ← Text.after? ['>'] (skipSpaces rest)
    return (if inContent then some (String.ofList name, text) else none, rest)
  | none =>
    let (outside, rest) ← takeExternal? rest
    if outside then (skipDeclaration? (rest.length + 1) rest).map (none, ·) else none

/-- The declarations between the brackets of a declaration of type, and what follows them. Behind
a reference to declarations outside, nothing more is known. -/
def takeDeclarations? : Nat → Entities → List Char → Option (Entities × List Char)
  | 0, _, _ => none
  | fuel + 1, entities, s =>
    match skipSpaces s with
    | ']' :: rest => some (entities, rest)
    | '%' :: s => do
      let (_, rest) ← takeName? s
      takeDeclarations? fuel { entities with more := true } (← Text.after? [';'] rest)
    | '<' :: '!' :: '-' :: '-' :: s => do takeDeclarations? fuel entities (← skipComment? s)
    | '<' :: '?' :: s => do takeDeclarations? fuel entities (← skipInstruction? s)
    | '<' :: '!' :: s =>
      match Text.after? "ENTITY".toList s with
      | some s => do
        let (declared, rest) ← takeEntity? s
        let known := match declared with
          | some (name, text) =>
            if entities.more || (entities.texts.lookup name).isSome then entities
            else { entities with texts := entities.texts ++ [(name, text)] }
          | none => entities
        takeDeclarations? fuel known rest
      | none =>
        if ["ELEMENT", "ATTLIST", "NOTATION"].any (Text.startsWith ·.toList s) then do
          takeDeclarations? fuel entities (← skipDeclaration? (s.length + 1) s)
        else none
    | _ => none

/-- The entities of the declaration, if there is one. -/
def takeDoctype? (s : List Char) : Option (Entities × List Char) :=
  match Text.after? "<!DOCTYPE".toList s with
  | none => some (.none, s)
  | some s => do
    let (_, rest) ← takeWrittenName? (← spaces? s)
    let (outside, rest) ← match spaces? rest with
      | some rest => takeExternal? rest
      | none => some (false, rest)
    let (entities, rest) ← match skipSpaces rest with
      | '[' :: rest => takeDeclarations? (rest.length + 1) ⟨[], outside⟩ rest
      | rest => some (⟨[], outside⟩, rest)
    return (entities, ← Text.after? ['>'] (skipSpaces rest))

end Replatform.Markup
