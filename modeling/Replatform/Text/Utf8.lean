/-!
# Bytes as text

Reading of bytes as text in UTF-8. A sequence of bytes that no character has is one fault, and the
reading goes on behind it, so that a caller can refuse the text or put a mark in its place.

A fault covers the longest run of bytes that begins the code of some character.
-/

namespace Replatform.Text

/-- The number of bytes that follow a first byte, and the range of the second byte. -/
def utf8Lead (b : Nat) : Option (Nat × Nat × Nat) :=
  if 0xC2 ≤ b && b ≤ 0xDF then some (1, 0x80, 0xBF)
  else if b = 0xE0 then some (2, 0xA0, 0xBF)
  else if b = 0xED then some (2, 0x80, 0x9F)
  else if 0xE1 ≤ b && b ≤ 0xEF then some (2, 0x80, 0xBF)
  else if b = 0xF0 then some (3, 0x90, 0xBF)
  else if b = 0xF4 then some (3, 0x80, 0x8F)
  else if 0xF1 ≤ b && b ≤ 0xF3 then some (3, 0x80, 0xBF)
  else none

/-- Reads on with a character that lacks `missing` bytes, the next of which lies between `low` and
`high`; `code` is what its bytes say so far. A fault is `none`. -/
def decodeUtf8Go : (missing low high code : Nat) → List UInt8 → List (Option Char)
  | 0, _, _, _, [] => []
  | _ + 1, _, _, _, [] => [none]
  | missing, low, high, code, b :: bytes =>
    let n := b.toNat
    if missing ≠ 0 && (low ≤ n && n ≤ high) then
      let code := code * 64 + n % 64
      if missing = 1 then some (Char.ofNat code) :: decodeUtf8Go 0 0 0 0 bytes
      else decodeUtf8Go (missing - 1) 0x80 0xBF code bytes
    else
      let fault := if missing = 0 then [] else [none]
      fault ++
        if n < 0x80 then some (Char.ofNat n) :: decodeUtf8Go 0 0 0 0 bytes
        else match utf8Lead n with
          | some (count, low, high) =>
            decodeUtf8Go count low high (n % 2 ^ (6 - count)) bytes
          | none => none :: decodeUtf8Go 0 0 0 0 bytes

/-- The characters of bytes, with the faults. -/
def decodeUtf8 (bytes : List UInt8) : List (Option Char) := decodeUtf8Go 0 0 0 0 bytes

/-- The characters of bytes without faults. -/
def ofUtf8? (bytes : List UInt8) : Option (List Char) := (decodeUtf8 bytes).mapM id

/-- The text of bytes in UTF-8, with a mark in place of each fault. -/
def ofUtf8Lossy (bytes : List UInt8) : List Char :=
  (decodeUtf8 bytes).map (·.getD (Char.ofNat 0xFFFD))

/-- The bytes of a text. -/
def utf8 (s : String) : List UInt8 := s.toUTF8.toList

end Replatform.Text
