import Replatform.Text.Basic
/-!
# Paths

A path is written with slashes. It is absolute or starts where a run started, and its parts are
names or `..`; empty parts and parts `.` are dropped when a path is read, and the path without
parts is written as a dot.
-/

namespace Replatform

/-- A path through the files. -/
structure Path where
  /-- The slashes in front: none for a path that is not absolute, one, or exactly two. -/
  root : String
  parts : List String
deriving DecidableEq, Repr

namespace Path

/-- The slashes in front of a text: more than two count as one. -/
def rootOf (s : List Char) : String :=
  match s.takeWhile (· == '/') with
  | [] => ""
  | [_, _] => "//"
  | _ => "/"

/-- The path that a text names. -/
def ofString (s : String) : Path :=
  ⟨rootOf s.toList,
    ((Text.splitWhen (· == '/') s.toList).filter fun p => p != [] && p != ['.']).map String.ofList⟩

def toString (p : Path) : String :=
  if p.root.isEmpty && p.parts.isEmpty then "." else p.root ++ String.intercalate "/" p.parts

instance : ToString Path := ⟨toString⟩

def isAbsolute (p : Path) : Bool := !p.root.isEmpty

def name (p : Path) : String := p.parts.getLast?.getD ""

/-- A name cut at its last dot, if there is something on both sides of it. -/
def cutName (name : String) : String × String :=
  let s := name.toList
  let ending := (s.reverse.takeWhile (· != '.')).reverse
  let front := s.take (s.length - ending.length - 1)
  if ending.length < s.length && ending != [] && front != [] then
    (String.ofList front, "." ++ String.ofList ending)
  else (name, "")

/-- The last part without its suffix. -/
def stem (p : Path) : String := (cutName p.name).1

/-- The ending of the name, with its dot. -/
def suffix (p : Path) : String := (cutName p.name).2

/-- The path without its last part. -/
def parent (p : Path) : Path := { p with parts := p.parts.dropLast }

/-- A path seen from another: an absolute path stays as it is. -/
def append (p q : Path) : Path := if q.isAbsolute then q else { p with parts := p.parts ++ q.parts }

instance : HDiv Path String Path := ⟨fun p s => p.append (ofString s)⟩

/-- Adds a part to absolute parts: two dots take the last away. -/
def climb (parts : List String) (part : String) : List String :=
  if part = ".." then parts.dropLast else parts ++ [part]

/-- The absolute path without dots that a path means, seen from `cwd`. -/
def resolve (cwd p : Path) : Path :=
  let whole := cwd.append p
  { whole with parts := whole.parts.foldl climb [] }

def le (p q : Path) : Bool :=
  let key := fun r : Path => (if r.root.isEmpty then [] else [r.root]) ++ r.parts
  Text.leRow (key p) (key q)

end Path

end Replatform
