import PerpExchange.Decimal

/-!
Texts as bytes in UTF-8, and bytes as texts in hexadecimal. Bytes are written with two lower-case
digits each; digits of either case are read. A text is judged byte by byte: an odd count of bytes is
the first complaint, then the first byte that is no digit.
-/

namespace PerpExchange

/-- The bytes of a text. -/
def utf8 (cs : List Char) : List UInt8 := cs.flatMap String.utf8EncodeChar

/-- The text some bytes stand for, if they stand for one. -/
def ofUtf8? (bs : List UInt8) : Option String := String.fromUTF8? bs.toByteArray

/-- Why a text is not hexadecimal. -/
inductive HexError where
  | oddLength
  | badDigit (byte : UInt8) (index : Nat)
  deriving DecidableEq

namespace Hex

def ofByte (b : UInt8) : List Char :=
  [Nat.digitChar (b.toNat / 16), Nat.digitChar (b.toNat % 16)]

def encode (bs : List UInt8) : List Char := bs.flatMap ofByte

/-- The value of a digit, given by its byte. -/
def digit? (b : UInt8) : Option UInt8 :=
  if 48 ≤ b ∧ b ≤ 57 then some (b - 48)
  else if 97 ≤ b ∧ b ≤ 102 then some (b - 87)
  else if 65 ≤ b ∧ b ≤ 70 then some (b - 55)
  else none

def digit (b : UInt8) (index : Nat) : Except HexError UInt8 :=
  match digit? b with
  | some d => .ok d
  | none => .error (.badDigit b index)

/-- Reads digits in pairs; the index is that of the first one. -/
def decodePairs (index : Nat) : List UInt8 → Except HexError (List UInt8)
  | high :: low :: rest => do
    let h ← digit high index
    let l ← digit low (index + 1)
    let bytes ← decodePairs (index + 2) rest
    return (16 * h + l) :: bytes
  | _ => .ok []

def decode (text : List UInt8) : Except HexError (List UInt8) :=
  if text.length % 2 = 1 then .error .oddLength else decodePairs 0 text

/-- A text without one leading `0x`. -/
def body : List Char → List Char
  | '0' :: 'x' :: rest => rest
  | cs => cs

/-- The bytes a text denotes, with or without a leading `0x`. -/
def read (s : String) : Except HexError (List UInt8) := decode (utf8 (body s.toList))

/-- Bytes as a text with a leading `0x`. -/
def write (bs : List UInt8) : String := String.ofList ('0' :: 'x' :: encode bs)

end Hex

/-- How a message shows a byte: as the character of that number, in single quotes, with escapes
for quotes, backslashes, control characters and the two invisible ones. -/
def quotedByte (b : UInt8) : String :=
  let body : List Char :=
    if b = 39 then ['\\', '\'']
    else if b = 92 then ['\\', '\\']
    else if b = 0 then ['\\', '0']
    else if b = 9 then ['\\', 't']
    else if b = 10 then ['\\', 'n']
    else if b = 13 then ['\\', 'r']
    else if b < 32 ∨ 127 ≤ b ∧ b ≤ 160 ∨ b = 173 then
      ['\\', 'u', '\x7b'] ++ Nat.toDigits 16 b.toNat ++ ['\x7d']
    else [Char.ofNat b.toNat]
  String.ofList ('\'' :: body ++ ['\''])

def HexError.message : HexError → String
  | .oddLength => "Odd number of digits"
  | .badDigit b i => "Invalid character " ++ quotedByte b ++ " at position " ++ Decimal.text i

end PerpExchange
