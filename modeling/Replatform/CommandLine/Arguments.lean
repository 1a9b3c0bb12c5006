import Replatform.Number.Digit
/-!
# Arguments of the command line

The words of a command line ask for a command with a path and some switches. A switch has a long
name, which may be cut short as long as it is clear, and perhaps a short one; short names can be
put together in one word. The value of a switch is the next word, or stands behind an equals sign.
Behind two dashes every word is plain.
-/

namespace Replatform.CommandLine

/-- What a word with dashes asks for. -/
inductive Switch
  | help
  | recursive
  | output
  | project
  | macros
  | silent
  | verbose
  | validate
deriving DecidableEq, Repr

def Switch.takesValue : Switch → Bool
  | .output | .project | .macros => true
  | _ => false

/-- The switches of a command, by name. -/
abbrev Names := List (String × Switch)

/-- The switches before a command. -/
def outerNames : Names := [("-h", .help), ("--help", .help)]

/-- The switches of the command `analyze`. -/
def analyzeNames : Names :=
  [("-h", .help), ("--help", .help), ("-r", .recursive), ("--recursive", .recursive),
   ("-o", .output), ("--output", .output), ("--generate-dbt", .project),
   ("--macro-dir", .macros), ("--non-interactive", .silent), ("-v", .verbose),
   ("--verbose", .verbose), ("--validate", .validate)]

/-- What one word asks for: the switches without a value, and the last one, which may have a value
in the word. There is no last one if the word ends in something that is no switch. -/
structure Request where
  flags : List Switch
  last : Option (Switch × Option String)
deriving DecidableEq, Repr

/-- A value at the end of a bundle of short names: an equals sign in front is dropped, and an empty
end is no value. -/
def tailValue : List Char → Option String
  | [] => none
  | '=' :: value => some (String.ofList value)
  | value => some (String.ofList value)

/-- Takes apart a bundle of short names behind the first, which needs no value. Nothing, if a value
is given to one that needs none. -/
def unbundle (names : Names) (first : Switch) : List Char → Option Request
  | [] => some ⟨[], some (first, none)⟩
  | c :: tail =>
    if c = '-' || c = '=' then none
    else match names.lookup (String.ofList ['-', c]) with
      | none => some ⟨[first], none⟩
      | some next =>
        if next.takesValue then some ⟨[first], some (next, tailValue tail)⟩
        else (unbundle names next tail).map fun r => { r with flags := first :: r.flags }

/-- What a switch with a value asks for. Nothing, if it needs none. -/
def requestOf (s : Switch) (value : Option String) : Option Request :=
  if value.isSome && !s.takesValue then none else some ⟨[], some (s, value)⟩

/-- A request of a switch with more letters behind it. -/
def requestOfBundle (names : Names) (s : Switch) (tail : List Char) : Option Request :=
  if s.takesValue then some ⟨[], some (s, some (String.ofList tail))⟩ else unbundle names s tail

/-- Whether the value of the last switch is the next word. -/
def Request.needsWord (r : Request) : Bool :=
  r.last.any fun (s, value) => s.takesValue && value.isNone

def Request.asksHelp (r : Request) : Bool := r.flags.contains .help || r.last.any (·.1 == .help)

/-- A word of the command line. -/
inductive Word
  | plain (s : String)
  /-- The first word of two dashes. -/
  | dashes
  /-- A word that asks for switches, if it does so rightly. -/
  | switches (r : Option Request)
  /-- A word with a dash that is no switch. -/
  | unknown
deriving DecidableEq, Repr

/-- A text cut at its first equals sign, if there is one. -/
def cutEquals (s : String) : String × Option String :=
  match s.toList.dropWhile (· != '=') with
  | [] => (s, none)
  | _ :: given => (String.ofList (s.toList.takeWhile (· != '=')), some (String.ofList given))

/-- The switches that a word with dashes may mean, by the beginning of a long name or by a short
name with something behind it. -/
def candidates (names : Names) (s : String) : List Word :=
  match s.toList with
  | '-' :: '-' :: _ =>
    let (front, value) := cutEquals s
    names.filterMap fun (name, switch) =>
      if Text.startsWith front.toList name.toList then some (.switches (requestOf switch value))
      else none
  | '-' :: c :: tail =>
    names.filterMap fun (name, switch) =>
      if name.toList = ['-', c] then some (.switches (requestOfBundle names switch tail))
      else none
  | _ => []

/-- Whether a text is a number with a minus sign, perhaps with a line end behind it. -/
def isNegativeNumber (s : List Char) : Bool :=
  let body := match s.reverse with
    | '\n' :: front => front.reverse
    | _ => s
  match body with
  | '-' :: digits =>
    let whole := digits.takeWhile fun c => (Number.digitValue? c).isSome
    match digits.drop whole.length with
    | [] => !whole.isEmpty
    | '.' :: places => !places.isEmpty && places.all fun c => (Number.digitValue? c).isSome
    | _ => false
  | _ => false

/-- Reads a word with a dash in front. Nothing, if it may mean several switches. -/
def readDashed (names : Names) (s : String) : Option Word :=
  match names.lookup s, (names.lookup (cutEquals s).1), candidates names s with
  | some switch, _, _ => some (.switches (requestOf switch none))
  | none, some switch, _ => some (.switches (requestOf switch (cutEquals s).2))
  | none, none, [word] => some word
  | none, none, _ :: _ :: _ => none
  | none, none, [] =>
    some (if isNegativeNumber s.toList || s.toList.contains ' ' then .plain s else .unknown)

def readWord (names : Names) (s : String) : Option Word :=
  match s.toList with
  | '-' :: _ :: _ => readDashed names s
  | _ => some (.plain s)

/-- The kinds of words. Behind two dashes all are plain. -/
def readWords (names : Names) : List String → Option (List Word)
  | [] => some []
  | "--" :: rest => some (.dashes :: rest.map .plain)
  | s :: rest => do
    let word ← readWord names s
    return word :: (← readWords names rest)

/-- What an analysis was asked to do. -/
structure Options where
  path : String := ""
  recursive : Bool := false
  output : Option String := none
  project : Option String := none
  macroDirs : List String := []
  silent : Bool := false
  verbose : Bool := false
  validate : Bool := false
deriving DecidableEq, Repr

/-- What a command line asks for. -/
inductive Command
  | help
  | wrong
  | nothing
  | analyze (o : Options)
deriving DecidableEq, Repr

def Options.set (o : Options) (s : Switch) (value : String) : Options :=
  match s with
  | .help => o
  | .recursive => { o with recursive := true }
  | .output => { o with output := some value }
  | .project => { o with project := some value }
  | .macros => { o with macroDirs := o.macroDirs ++ [value] }
  | .silent => { o with silent := true }
  | .verbose => { o with verbose := true }
  | .validate => { o with validate := true }

/-- Sets the switches of a word; the last has its value there or in the next word. -/
def Options.setAll (o : Options) (r : Request) (next : String) : Options :=
  let o := r.flags.foldl (fun o s => o.set s "") o
  match r.last with
  | some (s, value) => o.set s (value.getD next)
  | none => o

/-- Reads the words behind the command. `path` is the plain word, once there was one, and `extra`
is whether there was anything that has no meaning. -/
def readAnalyze (o : Options) (path : Option String) (extra : Bool) : List Word → Command
  | [] =>
    match path, extra with
    | some p, false => .analyze { o with path := p }
    | _, _ => .wrong
  | .plain s :: rest =>
    match path, rest with
    | none, .dashes :: rest => readAnalyze o (some s) extra rest
    | none, rest => readAnalyze o (some s) extra rest
    | some _, rest => readAnalyze o path true rest
  | .dashes :: rest =>
    match path, rest with
    | none, .plain s :: rest => readAnalyze o (some s) extra rest
    | _, rest => readAnalyze o path true rest
  | .unknown :: rest => readAnalyze o path true rest
  | .switches none :: _ => .wrong
  | .switches (some r) :: rest =>
    match r.needsWord, rest with
    | true, .plain next :: rest =>
      if r.asksHelp then .help else readAnalyze (o.setAll r next) path extra rest
    | true, _ => .wrong
    | false, rest =>
      if r.asksHelp then .help
      else readAnalyze (o.setAll r "") path (extra || r.last.isNone) rest

/-- Reads the words before the command, and then the command with all that follows. Before a
command there is no switch but the one for help. -/
def readOuter (extra : Bool) : List Word → List String → Command
  | .plain "analyze" :: _, _ :: rest =>
    match readWords analyzeNames rest with
    | none => .wrong
    | some words => readAnalyze {} none extra words
  | .unknown :: words, _ :: rest => readOuter true words rest
  | .switches r :: _, _ => if r.isSome then .help else .wrong
  | [], _ => if extra then .wrong else .nothing
  | _, _ => .wrong

/-- The command of a command line. -/
def read (arguments : List String) : Command :=
  match readWords outerNames arguments with
  | none => .wrong
  | some words => readOuter false words arguments

end Replatform.CommandLine
