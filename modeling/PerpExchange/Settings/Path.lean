import PerpExchange.Basic
import PerpExchange.Settings.Tree

/-!
Ways into a tree of settings, and how they are spelled: a name, then names behind points and places
in lists in brackets. A place may be counted from the end of the list, as a negative number.
-/

namespace PerpExchange.Settings

inductive Step where
  | member (name : String)
  | item (place : Int)
  deriving DecidableEq

namespace Step

def isNameChar (c : Char) : Bool := c.isAlphanum || c = '_' || c = '-'

def isBlank (c : Char) : Bool := c = ' ' || c = '\t'

/-- The text between blanks. -/
def trim (cs : List Char) : List Char :=
  ((cs.dropWhile isBlank).reverse.dropWhile isBlank).reverse

/-- The place a text between brackets names. It fits in 64 bits with its sign. -/
def place? (cs : List Char) : Option Int :=
  match trim cs with
  | '-' :: ds => (Decimal.value? ds).bind fun n =>
    if n ≤ 9223372036854775808 then some (-(n : Int)) else none
  | ds => (Decimal.value? ds).bind fun n => if n < 9223372036854775808 then some (n : Int) else none

/-- The steps that follow a name. -/
def following? : List Char → Option (List Step)
  | [] => some []
  | '.' :: cs => do
    let name := cs.takeWhile isNameChar
    if name = [] then none
    return .member (String.ofList name) :: (← following? (cs.dropWhile isNameChar))
  | '[' :: cs => do
    let place ← place? (cs.takeWhile (· ≠ ']'))
    if ']' ∉ cs then none
    return .item place :: (← following? (cs.dropWhile (· ≠ ']')).tail)
  | _ :: _ => none
termination_by cs => cs.length
decreasing_by
  · exact Nat.lt_succ_of_le (List.dropWhile_suffix _).length_le
  · exact Nat.lt_succ_of_le ((List.tail_suffix _).trans (List.dropWhile_suffix _)).length_le

/-- The way a key spells. One that spells none is a name as a whole. -/
def ofKey (key : String) : List Step :=
  match key.toList.takeWhile isNameChar, following? (key.toList.dropWhile isNameChar) with
  | c :: cs, some steps => .member (String.ofList (c :: cs)) :: steps
  | _, _ => [.member key]

end Step

namespace Tree

/-- No list is longer, by how many places can be addressed. -/
def maxLength : Nat := 96076792050570581

/-- The longest list that memory is enough for. -/
def memoryLength : Nat := 268435456

/-- Makes places with nothing behind the end of a list or in front of its beginning, so that it has
a place, and tells which one that is then. -/
def makeRoom (place : Int) (runs : List (Nat × Tree)) : Checked (List (Nat × Tree) × Nat) :=
  let size := length runs
  let missing := if 0 ≤ place then place.toNat + 1 - size else place.natAbs - size
  if missing = 0 then .ok (runs, if 0 ≤ place then place.toNat else size - place.natAbs)
  else if maxLength < size + missing then .error .lengthOverflow
  else if memoryLength < size + missing then .error .outOfMemory
  else if 0 ≤ place then .ok (runs ++ [(missing, .nothing)], place.toNat)
  else .ok ((missing, .nothing) :: runs, 0)

/-- A list with so many equal items in front of it. -/
def consRun (n : Nat) (item : Tree) (rest : List (Nat × Tree)) : List (Nat × Tree) :=
  if n = 0 then rest else (n, item) :: rest

/-- Changes the item at a place of a list. -/
def modifyItem (change : Tree → Checked Tree) :
    Nat → List (Nat × Tree) → Checked (List (Nat × Tree))
  | _, [] => return []
  | i, (n, item) :: rest => do
    if i < n then
      return consRun i item ((1, ← change item) :: consRun (n - i - 1) item rest)
    else return (n, item) :: (← modifyItem change (i - n) rest)

/-- Lays a value over what stands at the end of a way. Where the way leads through something that is
no container of its kind, an empty one takes its place. -/
def assign (value : Tree) : List Step → Tree → Checked Tree
  | [], tree => return tree.overlay value
  | .member name :: way, tree => do
    let inner ← assign value way ((tree.members.lookup name).getD .nothing)
    return .table (put name inner tree.members)
  | .item place :: way, tree => do
    let (runs, i) ← makeRoom place tree.runs
    return .list (← modifyItem (assign value way) i runs)

/-- The longest way through a tree that memory is enough for. -/
def maxWay : Nat := 5000

/-- Lays a value over what stands at the end of the way that a key spells. -/
def assignAt (key : String) (value tree : Tree) : Checked Tree :=
  let way := Step.ofKey key
  if maxWay < way.length then .error .outOfMemory else assign value way tree

end Tree

end PerpExchange.Settings
