import Replatform.Markup.Document
/-!
# Faults of documents

Where the first fault of a document is and what is wrong there, in words. A fault lies at the front
of the first piece that cannot be read or has no place where it stands, or at the end, where
something is still open.
-/

namespace Replatform.Markup

/-- What is wrong with a document. -/
inductive FaultKind
  | nothingFound
  | noMarkup
  | behindEnd
  | mismatched
  | unclosed
  | illFormed
  | undefined
deriving DecidableEq, Repr

def FaultKind.message : FaultKind → String
  | .nothingFound => "no element found"
  | .noMarkup => "syntax error"
  | .behindEnd => "junk after document element"
  | .mismatched => "mismatched tag"
  | .unclosed => "unclosed token"
  | .illFormed => "not well-formed (invalid token)"
  | .undefined => "undefined entity"

/-- The line and the column of the end of a text. Lines count from one, columns from zero. -/
def position (front : List Char) : Nat × Nat :=
  (1 + front.count '\n', (front.reverse.takeWhile (· != '\n')).length)

/-- What is wrong with a piece that cannot be read: it has no end, or it is ill formed. -/
def unreadable (s : List Char) : FaultKind :=
  if s.head? = some '<' && !s.contains '>' then .unclosed else .illFormed

/-- What is wrong with a piece that has no place where it stands, and how many characters of it are
in order. -/
def misplaced (b : Builder) (s : List Char) : Lexeme → FaultKind × Nat
  | .closing _ => if b.stack.isEmpty then (.illFormed, 0) else (.mismatched, 2)
  | .text t =>
    let blanks := (t.takeWhile isSpace).length
    (if b.root.isSome then .behindEnd else .noMarkup, blanks)
  | .entity _ => (if b.stack.isEmpty then .noMarkup else .undefined, 0)
  | _ =>
    if b.stack.isEmpty then (if b.root.isSome then .behindEnd else .noMarkup, 0)
    else (unreadable s, 0)

/-- The tokens of a lexeme, with entities replaced. -/
def lexemeTokens? (entities : Entities) (s : List Char) (lexeme : Lexeme) : Option (List Token) :=
  lexeme.tokens? fun name => do tokens? entities (entities.bound s) (← entities.texts.lookup name)

/-- The first fault behind what is read, and how many characters before the end it lies. -/
def faultFrom (entities : Entities) : Nat → Builder → List Char → FaultKind × Nat
  | 0, _, s => (.illFormed, s.length)
  | fuel + 1, b, s =>
    if s.isEmpty then (.nothingFound, 0)
    else match takeLexeme? entities (fuel + 1) s with
      | none => (unreadable s, s.length)
      | some (lexeme, rest) =>
        match (lexemeTokens? entities s lexeme).bind (·.foldlM Builder.add? b) with
        | some b => faultFrom entities fuel b rest
        | none =>
          let (kind, ahead) := misplaced b s lexeme
          (kind, s.length - ahead)

/-- The first fault of a document that is not well formed: what is wrong, and how many characters
before the end it lies. -/
def firstFault (s : List Char) : FaultKind × Nat :=
  match s.dropWhile isChar with
  | bad@(_ :: _) => (.illFormed, bad.length)
  | [] =>
    match takeHeading? s with
    | none => (.illFormed, s.length)
    | some (_, body) =>
      match skipMisc? (body.length + 1) body with
      | none => (unreadable body, body.length)
      | some body =>
        match takeDoctype? body with
        | none => (unreadable body, body.length)
        | some (entities, body) => faultFrom entities (body.length + 1) ⟨[], none⟩ body

/-- The message about the first fault, and where it is. -/
def faultMessage (source : List Char) : String :=
  let s := Text.unifyLineEnds source
  let (kind, remaining) := firstFault s
  let (line, column) := position (s.take (s.length - remaining))
  kind.message ++ ": line " ++ toString line ++ ", column " ++ toString column

end Replatform.Markup
