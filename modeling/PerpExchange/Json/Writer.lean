import PerpExchange.Json.Basic

/-!
JSON text without blanks. Each function writes in front of a text that is already there.
-/

namespace PerpExchange.Json

/-- A spelling in quotes. -/
def quoteOnto (spelling : String) (rest : List Char) : List Char :=
  '"' :: spelling.toList ++ '"' :: rest

mutual

def writeOnto : Json → List Char → List Char
  | .null, rest => 'n' :: 'u' :: 'l' :: 'l' :: rest
  | .bool true, rest => 't' :: 'r' :: 'u' :: 'e' :: rest
  | .bool false, rest => 'f' :: 'a' :: 'l' :: 's' :: 'e' :: rest
  | .number spelling, rest => spelling.toList ++ rest
  | .string spelling, rest => quoteOnto spelling rest
  | .array [], rest => '[' :: ']' :: rest
  | .array (item :: items), rest => '[' :: writeOnto item (writeItemsOnto items (']' :: rest))
  | .object [], rest => '\x7b' :: '\x7d' :: rest
  | .object ((name, value) :: members), rest =>
    '\x7b' :: quoteOnto name (':' :: writeOnto value (writeMembersOnto members ('\x7d' :: rest)))

/-- The further items of an array, each behind a comma. -/
def writeItemsOnto : List Json → List Char → List Char
  | [], rest => rest
  | item :: items, rest => ',' :: writeOnto item (writeItemsOnto items rest)

/-- The further members of an object, each behind a comma. -/
def writeMembersOnto : List (String × Json) → List Char → List Char
  | [], rest => rest
  | (name, value) :: members, rest =>
    ',' :: quoteOnto name (':' :: writeOnto value (writeMembersOnto members rest))

end

def write (j : Json) : String := String.ofList (writeOnto j [])

end PerpExchange.Json
