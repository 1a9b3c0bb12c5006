import Replatform.Failure
import Replatform.Markup.Prolog
import Replatform.Text.Case
import Replatform.Text.Utf8
/-!
# Documents as bytes

The encoding of a document shows in its first bytes, or is declared in its heading, and is UTF-8
otherwise.
-/

namespace Replatform.Markup

open Replatform

/-- How the characters of a document are written. -/
inductive Encoding
  | utf8
  | utf16
  | ascii
  | latin1
  | windows1252
deriving DecidableEq, Repr

/-- The encoding of a name, case ignored. -/
def Encoding.ofName? (name : String) : Option Encoding :=
  match String.ofList ((Text.lower name.toList).map fun c => if c == '_' then '-' else c) with
  | "utf-8" => some .utf8
  | "utf-16" => some .utf16
  | "utf8" | "us-ascii" | "ascii" => some .ascii
  | "iso-8859-1" | "iso8859-1" | "latin-1" | "latin1" => some .latin1
  | "windows-1252" | "cp1252" => some .windows1252
  | _ => none

/-- The characters of the bytes from 0x80 to 0x9F on page 1252, zero where there is none. -/
def page1252 : List Nat :=
  [0x20AC, 0, 0x201A, 0x0192, 0x201E, 0x2026, 0x2020, 0x2021, 0x02C6, 0x2030, 0x0160, 0x2039,
   0x0152, 0, 0x017D, 0, 0, 0x2018, 0x2019, 0x201C, 0x201D, 0x2022, 0x2013, 0x2014, 0x02DC,
   0x2122, 0x0161, 0x203A, 0x0153, 0, 0x017E, 0x0178]

/-- The characters of units of 16 bits. -/
def ofUnits? : List Nat → Option (List Char)
  | [] => some []
  | u :: units =>
    if 0xD800 ≤ u && u ≤ 0xDBFF then
      match units with
      | v :: units =>
        if 0xDC00 ≤ v && v ≤ 0xDFFF then
          (ofUnits? units).map
            (Char.ofNat (0x10000 + (u - 0xD800) * 0x400 + (v - 0xDC00)) :: ·)
        else none
      | [] => none
    else if 0xDC00 ≤ u && u ≤ 0xDFFF then none
    else (ofUnits? units).map (Char.ofNat u :: ·)

/-- The units of two bytes, the higher byte first if `big`. -/
def units? (big : Bool) : List UInt8 → Option (List Nat)
  | [] => some []
  | [_] => none
  | a :: b :: bytes =>
    (units? big bytes).map
      ((if big then a.toNat * 256 + b.toNat else b.toNat * 256 + a.toNat) :: ·)

/-- The characters of bytes, one for each. -/
def ofBytes? (encoding : Encoding) (bytes : List UInt8) : Option (List Char) :=
  bytes.mapM fun b =>
    let n := b.toNat
    if n < 0x80 then some (Char.ofNat n)
    else match encoding with
      | .latin1 => some (Char.ofNat n)
      | .windows1252 =>
        if 0xA0 ≤ n then some (Char.ofNat n)
        else match page1252[n - 0x80]? with
          | some 0 | none => none
          | some m => some (Char.ofNat m)
      | _ => none

/-- The bytes of a document are no text in its encoding. -/
def notText : Failure := .malformed "not well-formed (invalid token)"

/-- A document of units of two bytes. What its heading declares has to agree. -/
def decodeWide (big : Bool) (bytes : List UInt8) : Except Failure (List Char) :=
  match (units? big bytes).bind ofUnits? with
  | none => .error notText
  | some s =>
    match takeHeading? s with
    | some (⟨some name⟩, _) =>
      if Encoding.ofName? name = some .utf16 then .ok s
      else .error (.malformed "encoding specified in XML declaration is incorrect")
    | _ => .ok s

/-- A document of bytes, without a mark of its encoding in front. -/
def decodeNarrow (bytes : List UInt8) : Except Failure (List Char) :=
  let name := match takeHeading? (bytes.map fun b => Char.ofNat b.toNat) with
    | some (⟨some name⟩, _) => name
    | _ => "utf-8"
  match Encoding.ofName? name with
  | none => .error (.unknownEncoding name)
  | some .utf16 => .error (.malformed "encoding specified in XML declaration is incorrect")
  | some .utf8 => ((Text.ofUtf8? bytes).map .ok).getD (.error notText)
  | some e => ((ofBytes? e bytes).map .ok).getD (.error notText)

/-- The text of a document. Its first bytes show how it is written. -/
def decodeDocument : List UInt8 → Except Failure (List Char)
  | 0xFE :: 0xFF :: bytes => decodeWide true bytes
  | 0xFF :: 0xFE :: bytes => decodeWide false bytes
  | 0xEF :: 0xBB :: 0xBF :: bytes => decodeNarrow bytes
  | 0x00 :: 0x3C :: bytes => decodeWide true (0x00 :: 0x3C :: bytes)
  | 0x3C :: 0x00 :: bytes => decodeWide false (0x3C :: 0x00 :: bytes)
  | bytes => decodeNarrow bytes

end Replatform.Markup
