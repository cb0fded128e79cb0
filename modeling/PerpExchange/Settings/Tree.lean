import PerpExchange.Decimal
import PerpExchange.Json.Number

/-!
Values of settings before it is known which types they are wanted in. They are taken loosely then: a
number may be given as a text, a text as a number, and a record as a list of its fields. Lists are
held by the runs of equal items in them, since a list may be nothing for most of its length.
-/

namespace PerpExchange.Settings

open Json

inductive Tree where
  | nothing
  | flag (b : Bool)
  | number (n : Number)
  | text (s : String)
  /-- The items of a list, each with how often it stands there in a row. -/
  | list (runs : List (Nat × Tree))
  | table (members : List (String × Tree))
  deriving Inhabited

namespace Tree

mutual

/-- The tree of a document whose containers are nested to a limited depth. All of it has to be in
order, wanted or not: no number too large, and no half of a character in a text. -/
def ofJson? : Nat → Json → Option Tree
  | _, .null => some .nothing
  | _, .bool b => some (.flag b)
  | _, .number spelling => (Number.ofSpelling? spelling).map .number
  | _, .string spelling => (unescape? spelling).map .text
  | room + 1, .array items => (ofItems? room items).map fun items => .list (items.map (1, ·))
  | room + 1, .object members => (ofMembers? room members).map .table
  | 0, .array _ | 0, .object _ => none

def ofItems? : Nat → List Json → Option (List Tree)
  | _, [] => some []
  | room, item :: rest => do return (← ofJson? room item) :: (← ofItems? room rest)

/-- Of members with the same name the last one counts. -/
def ofMembers? : Nat → List (String × Json) → Option (List (String × Tree))
  | _, [] => some []
  | room, (spelling, value) :: rest => do
    let name ← unescape? spelling
    let tree ← ofJson? room value
    let others ← ofMembers? room rest
    return if others.any fun (other, _) => other = name then others else (name, tree) :: others

end

/-- The number a text stands for, in digits or as a word for yes or no. -/
def wordOfText? (s : String) : Option UInt64 :=
  if s.toLower ∈ ["true", "on", "yes"] then some 1
  else if s.toLower ∈ ["false", "off", "no"] then some 0
  else Decimal.word64? s.toList

/-- A value as a whole number. One with a fraction is rounded, a half away from zero, and then the
nearest number there is stands for it. -/
def word? : Tree → Option UInt64
  | .flag b => some (if b then 1 else 0)
  | .number (.whole n) => if 0 ≤ n then some (UInt64.ofNat n.toNat) else none
  | .number (.real x) => some x.round.toUInt64
  | .text s => wordOfText? s
  | .nothing | .list _ | .table _ => none

/-- A value as a text. -/
def text? : Tree → Option String
  | .flag b => some (if b then "true" else "false")
  | .number (.whole n) =>
    some (if n < 0 then String.ofList ('-' :: Decimal.digits n.natAbs) else Decimal.text n.natAbs)
  | .number (.real x) => some (Decimal.ofFloat x)
  | .text s => some s
  | .nothing | .list _ | .table _ => none

/-- The runs of a list. What is no list has none. -/
def runs : Tree → List (Nat × Tree)
  | .list runs => runs
  | _ => []

/-- The length of a list. -/
def length : List (Nat × Tree) → Nat
  | [] => 0
  | (n, _) :: rest => n + length rest

/-- The first items of a list, so many or as many as there are. -/
def firstItems (count : Nat) : List (Nat × Tree) → List Tree
  | [] => []
  | (n, item) :: rest => List.replicate (min count n) item ++ firstItems (count - n) rest

/-- The members of a table. What is no table has none. -/
def members : Tree → List (String × Tree)
  | .table members => members
  | _ => []

/-- Puts a member into a table, in place of one with its name. -/
def put (name : String) (value : Tree) (members : List (String × Tree)) : List (String × Tree) :=
  members.filter (fun (other, _) => other ≠ name) ++ [(name, value)]

mutual

/-- Lays a value over another. A table keeps what it covers member by member; anything else hides
it. -/
def overlay (under : Tree) : Tree → Tree
  | .table members => .table (overlayMembers under.members members)
  | value => value

def overlayMembers (under : List (String × Tree)) : List (String × Tree) → List (String × Tree)
  | [] => under
  | (name, value) :: rest =>
    overlayMembers (put name (overlay ((under.lookup name).getD .nothing) value) under) rest

end

end Tree

end PerpExchange.Settings
