import PerpExchange.Bytes.Text

/-!
Byte strings of a fixed length: addresses of accounts and contracts, and hashes. They are ordered
byte by byte, and written in hexadecimal with a leading `0x`.
-/

namespace PerpExchange

/-- A byte string of a given length. -/
structure Bytes (n : Nat) where
  toList : List UInt8
  length_eq : toList.length = n
  deriving DecidableEq

/-- An account or a contract. -/
abbrev Address : Type := Bytes 20

/-- A digest: the id of an order, an event topic, or the id of a transaction. -/
abbrev Hash : Type := Bytes 32

namespace Bytes

variable {n : Nat}

theorem ext_toList {a b : Bytes n} (h : a.toList = b.toList) : a = b := by
  cases a; cases b; cases h; rfl

instance : Ord (Bytes n) := ⟨compareOn Bytes.toList⟩

instance : Std.TransCmp (compare : Bytes n → Bytes n → Ordering) :=
  inferInstanceAs (Std.TransCmp (compareOn Bytes.toList))

instance : Std.LawfulEqCmp (compare : Bytes n → Bytes n → Ordering) where
  compare_self := Std.ReflCmp.compare_self
  eq_of_compare {a b} h :=
    ext_toList (Std.LawfulEqCmp.eq_of_compare (show compare a.toList b.toList = .eq from h))

instance : Std.TransCmp (compare : Address → Address → Ordering) :=
  inferInstanceAs (Std.TransCmp (compare : Bytes 20 → Bytes 20 → Ordering))

instance : Std.TransCmp (compare : Hash → Hash → Ordering) :=
  inferInstanceAs (Std.TransCmp (compare : Bytes 32 → Bytes 32 → Ordering))

instance : LawfulBEq Hash := inferInstanceAs (LawfulBEq (Bytes 32))

/-- The leading bytes of a list, with zeros after them where it is too short. -/
def ofList (n : Nat) (bs : List UInt8) : Bytes n :=
  ⟨bs.take n ++ List.replicate (n - bs.length) 0, by
    rw [List.length_append, List.length_take, List.length_replicate]; omega⟩

/-- The string of zeros. -/
def zero (n : Nat) : Bytes n := ofList n []

instance : Inhabited (Bytes n) := ⟨zero n⟩

/-- The last bytes of a number, the highest first. -/
def bigEndian : Nat → Nat → List UInt8
  | 0, _ => []
  | width + 1, m => bigEndian width (m / 256) ++ [UInt8.ofNat m]

/-- The string that ends in the eight bytes of a word. -/
def ofWord (n : Nat) (w : UInt64) : Bytes n := ofList n (bigEndian n w.toNat)

/-- The bytes of a list that has the right length. -/
def ofExact? (n : Nat) (bs : List UInt8) : Option (Bytes n) :=
  if h : bs.length = n then some ⟨bs, h⟩ else none

/-- Why a text denotes no byte string of the length asked for. -/
inductive ParseError where
  | hex (cause : HexError)
  | length (expected actual : Nat)
  deriving DecidableEq

def ParseError.message : ParseError → String
  | .hex cause => "Invalid hex: " ++ cause.message
  | .length expected actual =>
    "Expected " ++ Decimal.text expected ++ " bytes, got " ++ Decimal.text actual

/-- Reads hexadecimal with or without a leading `0x`. -/
def parse (n : Nat) (s : String) : Except ParseError (Bytes n) :=
  match Hex.read s with
  | .error cause => .error (.hex cause)
  | .ok bs =>
    match ofExact? n bs with
    | some b => .ok b
    | none => .error (.length n bs.length)

def toText (b : Bytes n) : String := Hex.write b.toList

end Bytes

end PerpExchange
