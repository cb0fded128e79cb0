import PerpExchange.Bytes.Basic

/-!
Numbers of sixteen bytes that tell things apart which are otherwise alike. They are written as
hexadecimal digits in five groups; they are read in groups, plainly, in braces or as a name, or
without any hyphen.
-/

namespace PerpExchange

structure Uuid where
  bytes : Bytes 16
  deriving DecidableEq

namespace Uuid

/-- How many digits each group but the last has. -/
def groups : List Nat := [8, 4, 4, 4]

/-- Puts a hyphen behind each group. -/
def hyphenated : List Nat → List Char → List Char
  | [], digits => digits
  | n :: rest, digits => digits.take n ++ '-' :: hyphenated rest (digits.drop n)

/-- Takes out the hyphen behind each group. -/
def unhyphenated? : List Nat → List Char → Option (List Char)
  | [], text => some text
  | n :: rest, text =>
    match text.drop n with
    | '-' :: tail => (unhyphenated? rest tail).map (text.take n ++ ·)
    | _ => none

def toText (u : Uuid) : String :=
  String.ofList (hyphenated groups (Hex.encode u.bytes.toList))

/-- A text without the braces around it or the words in front of it. -/
def body : List Char → List Char
  | '\x7b' :: rest => if rest.getLast? = some '\x7d' then rest.dropLast else '\x7b' :: rest
  | 'u' :: 'r' :: 'n' :: ':' :: 'u' :: 'u' :: 'i' :: 'd' :: ':' :: rest => rest
  | text => text

/-- The hexadecimal digits of a text. -/
def digits? (text : List Char) : Option (List Char) :=
  if text.length = 32 then some text else unhyphenated? groups (body text)

def ofText? (s : String) : Option Uuid := do
  let bytes ← (Hex.decode (utf8 (← digits? s.toList))).toOption
  return ⟨← Bytes.ofExact? 16 bytes⟩

end Uuid

end PerpExchange
