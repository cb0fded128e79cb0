import PerpExchange.Json.Reader

/-!
What the spelling of a number is worth. A whole number that fits in 64 bits is exact; any other is a
floating-point number, made from the leading digits that fit in 64 bits by one multiplication with
or division by a power of ten, so that it can be a neighbour of the nearest one.
-/

namespace PerpExchange.Json

/-- A number: exact, or floating-point. -/
inductive Number where
  | whole (n : Int)
  | real (x : Float)

namespace Number

/-- Appends digits to a number for as long as it fits in 64 bits, and counts them. -/
def absorb (n : Nat) : List Char → Nat × Nat
  | [] => (n, 0)
  | c :: cs =>
    let next := 10 * n + (c.toNat - 48)
    if next < UInt64.size then
      let (m, count) := absorb next cs
      (m, count + 1)
    else (n, 0)

/-- The power of ten a spelling ends in, which begins with the letter `e` if there is one. -/
def exponentOf : List Char → Int
  | _ :: '-' :: ds => -(Nat.ofDigitChars 10 ds 0 : Int)
  | _ :: '+' :: ds => Nat.ofDigitChars 10 ds 0
  | _ :: ds => Nat.ofDigitChars 10 ds 0
  | [] => 0

/-- The greatest power of ten that is a floating-point number. -/
def greatestPower : Nat := 308

def tenTo (n : Nat) : Float := Float.ofScientific 1 false n

/-- A number divided by a power of ten, by as much as possible at a time. -/
def shrink (x : Float) (n : Nat) : Float :=
  if n ≤ greatestPower then x / tenTo n
  else if x == 0 then x
  else shrink (x / tenTo greatestPower) (n - greatestPower)
termination_by n
decreasing_by simp only [greatestPower] at *; omega

/-- A number times a power of ten, unless that is too large. -/
def scale? (x : Float) (power : Int) : Option Float :=
  if power < 0 then some (shrink x power.natAbs)
  else if power ≤ greatestPower then
    let y := x * tenTo power.toNat
    if y.isInf then none else some y
  else if x == 0 then some x
  else none

/-- The largest magnitude of a negative whole number. -/
def greatestNegative : Nat := 9223372036854775808

def ofUnsigned? (negative : Bool) (cs : List Char) : Option Number :=
  let (digits, tail) := spanDigits cs
  let (n, taken) := absorb 0 digits
  let left := digits.length - taken
  let signed (x : Float) : Number := .real (if negative then -x else x)
  if tail = [] ∧ left = 0 then
    if !negative then some (.whole n)
    else if n = 0 ∨ greatestNegative < n then some (signed (UInt64.ofNat n).toFloat)
    else some (.whole (-(n : Int)))
  else
    let (fraction, tail) := match tail with
      | '.' :: rest => spanDigits rest
      | _ => ([], tail)
    let (m, places) := absorb n fraction
    (scale? (UInt64.ofNat m).toFloat ((left : Int) - places + exponentOf tail)).map signed

/-- The number a spelling is worth, unless it is too large. -/
def ofSpelling? (spelling : String) : Option Number :=
  match spelling.toList with
  | '-' :: cs => ofUnsigned? true cs
  | cs => ofUnsigned? false cs

end Number

end PerpExchange.Json
