import Replatform.Failure
import Replatform.Path
import Replatform.Text.Utf8
/-!
# Files

The files and directories that a run sees, by their places. A place is the list of names that lead
to it from the top; the top is a directory, and so is every place above an entry. A path is
followed name by name, so that every directory on the way has to be there, also before two dots.
-/

namespace Replatform

/-- What is in a file. -/
inductive Content
  | text (s : String)
  | bytes (b : List UInt8)
deriving DecidableEq, Repr

def Content.toBytes : Content → List UInt8
  | .text s => Text.utf8 s
  | .bytes b => b

/-- The text of a file, whatever its bytes are, with plain line ends. -/
def Content.lossyText : Content → List Char
  | .text s => Text.unifyLineEnds s.toList
  | .bytes b => Text.unifyLineEnds (Text.ofUtf8Lossy b)

/-- The text of a file, if its bytes are one. -/
def Content.text? : Content → Option String
  | .text s => some s
  | .bytes b => (Text.ofUtf8? b).map String.ofList

/-- What a place can hold. -/
inductive Entry
  | file (content : Content)
  | directory
deriving DecidableEq, Repr

/-- Files and directories, and the directory that paths start from. -/
structure Files where
  cwd : Path
  /-- All entries but the top, each after the directories that lead to it. -/
  entries : List (List String × Entry)
deriving Repr

namespace Files

/-- The longest name, in bytes. -/
def nameLimit : Nat := 255

/-- The longest path, in bytes. -/
def pathLimit : Nat := 4095

def at? (fs : Files) (place : List String) : Option Entry :=
  if place.isEmpty then some .directory else fs.entries.lookup place

/-- Goes on from a place, part by part. -/
def walk (fs : Files) (place : List String) : List String → Except Failure (List String × Entry)
  | [] => match fs.at? place with
    | some entry => .ok (place, entry)
    | none => .error .noFile
  | part :: parts =>
    match fs.at? place with
    | some .directory =>
      if nameLimit < part.utf8ByteSize then .error .longName
      else walk fs (Path.climb place part) parts
    | some (.file _) => .error .notDirectory
    | none => .error .noFile

/-- The place that a path leads to, and what is there. -/
def locate (fs : Files) (p : Path) : Except Failure (List String × Entry) :=
  if p.toString.toList.any (· == Char.ofNat 0) then .error .nulByte
  else if pathLimit < p.toString.utf8ByteSize then .error .longName
  else fs.walk [] (fs.cwd.append p).parts

/-- What a path leads to, if there is anything. -/
def find? (fs : Files) (p : Path) : Except Failure (Option Entry) :=
  match fs.locate p with
  | .ok (_, entry) => .ok (some entry)
  | .error .noFile | .error .notDirectory | .error .nulByte => .ok none
  | .error e => .error e

def exists? (fs : Files) (p : Path) : Except Failure Bool := (fs.find? p).map Option.isSome

def isFile (fs : Files) (p : Path) : Except Failure Bool :=
  (fs.find? p).map fun
    | some (.file _) => true
    | _ => false

def isDirectory (fs : Files) (p : Path) : Except Failure Bool :=
  (fs.find? p).map (· == some .directory)

/-- What is in the file at a path. -/
def read (fs : Files) (p : Path) : Except Failure Content := do
  match (← fs.locate p).2 with
  | .file content => .ok content
  | .directory => .error .isDirectory

def put (fs : Files) (place : List String) (entry : Entry) : Files :=
  if (fs.entries.lookup place).isSome then
    { fs with entries := fs.entries.map fun (q, e) => if q = place then (q, entry) else (q, e) }
  else { fs with entries := fs.entries ++ [(place, entry)] }

/-- The directory that a path lies in, and its name there. -/
def locateParent (fs : Files) (p : Path) : Except Failure (List String × String) := do
  if nameLimit < p.name.utf8ByteSize then
    let _ ← fs.locate p.parent
    .error .longName
  else match ← fs.locate p.parent with
    | (place, .directory) => .ok (place, p.name)
    | (_, .file _) => .error .notDirectory

/-- Writes a file. Its directory has to be there. -/
def write (fs : Files) (p : Path) (content : Content) : Except Failure Files :=
  match fs.locate p with
  | .ok (place, .file _) => .ok (fs.put place (.file content))
  | .ok (_, .directory) => .error .isDirectory
  | .error .noFile => do
    let (place, name) ← fs.locateParent p
    return fs.put (place ++ [name]) (.file content)
  | .error e => .error e

/-- Makes a directory, and those above it that are not there, the outermost first; `front` has the
parts of the path that are already followed. -/
def makeFrom (fs : Files) (p : Path) (front : List String) :
    List String → Except Failure Files
  | [] => .ok fs
  | part :: parts => do
    let here := { p with parts := front ++ [part] }
    let fs ← match fs.locate here with
      | .ok (_, .directory) => .ok fs
      | .ok (_, .file _) => .error (if parts.isEmpty then .alreadyThere else .notDirectory)
      | .error .noFile => do
        let (place, name) ← fs.locateParent here
        .ok (fs.put (place ++ [name]) .directory)
      | .error e => .error e
    makeFrom fs p (front ++ [part]) parts

/-- Makes a directory with those above it, unless it is there. -/
def makeDirectory (fs : Files) (p : Path) : Except Failure Files := fs.makeFrom p [] p.parts

/-- The entries below a place with the names that lead to them from there. -/
def below (fs : Files) (place : List String) : List (List String × Entry) :=
  fs.entries.filterMap fun (q, e) =>
    if place.isPrefixOf q && place.length < q.length then some (q.drop place.length, e) else none

/-- The paths of all directories at or below a path, the path itself first. -/
def directories (fs : Files) (p : Path) : Except Failure (List Path) :=
  match fs.find? p, fs.locate p with
  | .error e, _ => .error e
  | .ok (some .directory), .ok (place, _) =>
    .ok (p :: (fs.below place).filterMap fun (names, e) =>
      if e = .directory then some { p with parts := p.parts ++ names } else none)
  | _, _ => .ok []

/-- The paths of all entries in a directory, or also in those below it, whose name has an ending. -/
def withSuffix (fs : Files) (p : Path) (recursive : Bool) (suffix : String) :
    Except Failure (List Path) :=
  match fs.locate p with
  | .ok (place, .directory) =>
    .ok ((fs.below place).filterMap fun (names, _) =>
      let q : Path := { p with parts := p.parts ++ names }
      if Text.endsWith suffix.toList q.name.toList && (recursive || names.length == 1)
      then some q else none)
  | _ => .ok []

/-- The files at the start of a run, which starts in `cwd`. -/
def start (cwd : Path) (files : List (String × Content)) : Except Failure Files := do
  let fs ← (Files.mk ⟨"/", []⟩ []).makeDirectory cwd
  files.foldlM (fun fs (name, content) => do
    let p := Path.ofString name
    (← fs.makeDirectory p.parent).write p content) { fs with cwd }

end Files

end Replatform
