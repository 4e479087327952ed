import Curly.Text.Hex

/-! Strict UTF-8. Decoding accepts exactly the shortest forms of the Unicode scalar values; the first bytes that
    fit no character are reported with their position and with what is wrong with them. -/

namespace Curly.Text.Utf8

/-- What is wrong with bytes that are no character. -/
inductive Fault where
  /-- No character starts with this byte. -/
  | startByte
  /-- The character is not continued by the byte that follows. -/
  | continuationByte
  /-- The input ends inside a character. -/
  | truncated
deriving DecidableEq, Repr

def Fault.reason : Fault → String
  | .startByte => "invalid start byte"
  | .continuationByte => "invalid continuation byte"
  | .truncated => "unexpected end of data"

/-- The bytes that could not be decoded, and the position of the first of them. -/
structure Error where
  fault : Fault
  position : Nat
  bytes : List UInt8
deriving DecidableEq, Repr

/-- A single byte is shown, several are given by their first and last position. -/
def Error.message (e : Error) : String :=
  let place := match e.bytes with
    | [byte] => "byte 0x" ++ String.ofList (hexDigits 2 byte.toNat) ++ " in position " ++ toString e.position
    | bytes =>
      "bytes in position " ++ toString e.position ++ "-" ++ toString (e.position + bytes.length - 1)
  "'utf-8' codec can't decode " ++ place ++ ": " ++ e.fault.reason

/-- A character of which some bytes are still to come. -/
structure Pending where
  /-- The bytes so far. -/
  bytes : List UInt8
  /-- The number of bytes to come. -/
  missing : Nat
  /-- The bounds of the next byte. -/
  low : UInt8
  high : UInt8
  /-- The bits of the code point so far. -/
  code : Nat
deriving DecidableEq, Repr

/-- What a byte of 0x80 or more starts. The bounds of the second byte leave out the long forms, the surrogates
    and what lies beyond the last code point. -/
def Pending.start? (byte : UInt8) : Option Pending :=
  if byte < 0xC2 then none
  else if byte < 0xE0 then some ⟨[byte], 1, 0x80, 0xBF, byte.toNat % 0x20⟩
  else if byte = 0xE0 then some ⟨[byte], 2, 0xA0, 0xBF, byte.toNat % 0x10⟩
  else if byte = 0xED then some ⟨[byte], 2, 0x80, 0x9F, byte.toNat % 0x10⟩
  else if byte < 0xF0 then some ⟨[byte], 2, 0x80, 0xBF, byte.toNat % 0x10⟩
  else if byte = 0xF0 then some ⟨[byte], 3, 0x90, 0xBF, byte.toNat % 0x08⟩
  else if byte < 0xF4 then some ⟨[byte], 3, 0x80, 0xBF, byte.toNat % 0x08⟩
  else if byte = 0xF4 then some ⟨[byte], 3, 0x80, 0x8F, byte.toNat % 0x08⟩
  else none

/-- The character with one more of its bytes. -/
def Pending.push (p : Pending) (byte : UInt8) : Pending :=
  ⟨p.bytes ++ [byte], p.missing - 1, 0x80, 0xBF, p.code * 0x40 + byte.toNat % 0x40⟩

/-- Decodes the bytes from position `position` on, the first of which may continue a character. -/
def decodeFrom : Option Pending → Nat → List UInt8 → Except Error (List Char)
  | none, _, [] => .ok []
  | some p, position, [] => .error ⟨.truncated, position - p.bytes.length, p.bytes⟩
  | none, position, byte :: rest =>
    if byte < 0x80 then
      (decodeFrom none (position + 1) rest).map (Char.ofNat byte.toNat :: ·)
    else match Pending.start? byte with
      | some p => decodeFrom (some p) (position + 1) rest
      | none => .error ⟨.startByte, position, [byte]⟩
  | some p, position, byte :: rest =>
    if p.low ≤ byte ∧ byte ≤ p.high then
      let q := p.push byte
      if q.missing = 0 then
        (decodeFrom none (position + 1) rest).map (Char.ofNat q.code :: ·)
      else
        decodeFrom (some q) (position + 1) rest
    else .error ⟨.continuationByte, position - p.bytes.length, p.bytes⟩

/-- The text that the bytes encode. -/
def decode (bytes : List UInt8) : Except Error (List Char) :=
  decodeFrom none 0 bytes

end Curly.Text.Utf8
