import PerpExchange.Decimal

/-!
JSON documents as trees. Strings, member names and numbers are kept as a document spells them:
a string is the text between its quotes with the escapes still in it, so that a reader which skips
a member need not understand it, and writing a tree that was read gives back the spelling.
-/

namespace PerpExchange

/-- A JSON value. -/
inductive Json where
  | null
  | bool (b : Bool)
  | number (spelling : String)
  | string (spelling : String)
  | array (items : List Json)
  | object (members : List (String × Json))
  deriving Inhabited

namespace Json

/-- The six characters that have an escape of one letter, by that letter. -/
def shortEscape? (c : Char) : Option Char :=
  if c = '"' ∨ c = '\\' then some c
  else if c = '\x08' then some 'b'
  else if c = '\t' then some 't'
  else if c = '\n' then some 'n'
  else if c = '\x0c' then some 'f'
  else if c = '\r' then some 'r'
  else none

/-- The spelling of a character inside quotes. Control characters without a letter of their own
have four hexadecimal digits. -/
def escapeChar (c : Char) : List Char :=
  match shortEscape? c with
  | some letter => ['\\', letter]
  | none =>
    if c < ' ' then
      ['\\', 'u', '0', '0', Nat.digitChar (c.toNat / 16), Nat.digitChar (c.toNat % 16)]
    else [c]

/-- The spelling of a text inside quotes. -/
def escape (s : String) : String := String.ofList (s.toList.flatMap escapeChar)

/-- The character a letter after a backslash stands for. -/
def unescapeLetter? : Char → Option Char
  | '"' => some '"'
  | '\\' => some '\\'
  | '/' => some '/'
  | 'b' => some '\x08'
  | 't' => some '\t'
  | 'n' => some '\n'
  | 'f' => some '\x0c'
  | 'r' => some '\r'
  | _ => none

/-- The value of a hexadecimal digit of either case. -/
def hexDigit? (c : Char) : Option Nat :=
  if '0' ≤ c ∧ c ≤ '9' then some (c.toNat - 48)
  else if 'a' ≤ c ∧ c ≤ 'f' then some (c.toNat - 87)
  else if 'A' ≤ c ∧ c ≤ 'F' then some (c.toNat - 55)
  else none

/-- The value of four hexadecimal digits. -/
def hexUnit? (a b c d : Char) : Option Nat := do
  return 4096 * (← hexDigit? a) + 256 * (← hexDigit? b) + 16 * (← hexDigit? c) + (← hexDigit? d)

/-- A spelling is well formed when every backslash begins an escape. Whether the units of
hexadecimal escapes make up characters is left to `unescape?`. -/
def wellSpelled : List Char → Bool
  | [] => true
  | '\\' :: 'u' :: a :: b :: c :: d :: rest => (hexUnit? a b c d).isSome && wellSpelled rest
  | '\\' :: c :: rest => (unescapeLetter? c).isSome && wellSpelled rest
  | ['\\'] => false
  | _ :: rest => wellSpelled rest

/-- What a hexadecimal escape contributes: a character, or half of one that takes two. -/
inductive Unit16 where
  | char (c : Char)
  | high (n : Nat)
  | low (n : Nat)

def Unit16.ofNat (n : Nat) : Unit16 :=
  if 0xD800 ≤ n ∧ n < 0xDC00 then .high (n - 0xD800)
  else if 0xDC00 ≤ n ∧ n < 0xE000 then .low (n - 0xDC00)
  else .char (Char.ofNat n)

/-- The character two halves make. -/
def joinHalves (high low : Nat) : Char := Char.ofNat (0x10000 + 1024 * high + low)

/-- Resolves the escapes of a spelling. A high half waits in the first argument; a half that finds
no partner makes the spelling stand for no text. -/
def resolve : Option Nat → List Char → Option (List Char)
  | none, [] => some []
  | some _, [] => none
  | pending, '\\' :: 'u' :: a :: b :: c :: d :: rest => do
    match pending, Unit16.ofNat (← hexUnit? a b c d) with
    | none, .char x => return x :: (← resolve none rest)
    | none, .high h => resolve (some h) rest
    | some h, .low l => return joinHalves h l :: (← resolve none rest)
    | _, _ => none
  | none, '\\' :: c :: rest => return (← unescapeLetter? c) :: (← resolve none rest)
  | none, c :: rest => if c = '\\' then none else return c :: (← resolve none rest)
  | some _, _ :: _ => none

/-- The text a spelling stands for. -/
def unescape? (spelling : String) : Option String :=
  (resolve none spelling.toList).map String.ofList

/-- The value that stands for a text. -/
def ofString (s : String) : Json := .string (escape s)

/-- The text a value stands for, if it is a string. -/
def string? : Json → Option String
  | .string spelling => unescape? spelling
  | _ => none

def ofNat (n : Nat) : Json := .number (Decimal.text n)

/-- The number a value stands for, if it is spelled with digits alone. -/
def nat? : Json → Option Nat
  | .number spelling => Decimal.value? spelling.toList
  | _ => none

def ofFields (fields : List (String × Json)) : Json :=
  .object (fields.map fun (name, value) => (escape name, value))

end Json

end PerpExchange
