/-!
Numbers in decimal. Whole numbers are written without a sign and without a leading zero; `value?`
also reads those with leading zeros. Floating-point numbers are written with the fewest digits that
read back as the same number, and without an exponent.
-/

namespace PerpExchange.Decimal

/-- The digits of a number, none of them a leading zero. -/
def digits (n : Nat) : List Char := Nat.toDigits 10 n

def text (n : Nat) : String := String.ofList (digits n)

/-- The digits of a number with zeros in front, up to a width. -/
def padded (width n : Nat) : List Char := (digits n).leftpad width '0'

/-- The number a run of at least one digit denotes. -/
def value? (cs : List Char) : Option Nat :=
  if cs ≠ [] ∧ cs.all Char.isDigit then some (Nat.ofDigitChars 10 cs 0) else none

theorem value?_digits (n : Nat) : value? (digits n) = some n := by
  have h : (digits n).all Char.isDigit = true :=
    List.all_eq_true.2 fun _ hc => Nat.isDigit_of_mem_toDigits (by decide) (by decide) hc
  have h' : digits n ≠ [] := Nat.toDigits_ne_nil
  rw [value?, if_pos ⟨h', h⟩, digits, Nat.ofDigitChars_toDigits (by decide) (by decide)]

/-- The 64-bit word a number in decimal denotes, with or without a plus sign. -/
def word64? (cs : List Char) : Option UInt64 := do
  let n ← value? (match cs with
    | '+' :: rest => rest
    | _ => cs)
  if n < UInt64.size then some (UInt64.ofNat n) else none

/-- A positive floating-point number, `mantissa * 2 ^ exponent`. Just above a power of two, the gap
to the next number below is half of that above. -/
structure Binary where
  mantissa : Nat
  exponent : Int
  isNarrowBelow : Bool
  deriving DecidableEq

namespace Binary

/-- The magnitude of a finite number, from its bits. -/
def ofBits (bits : UInt64) : Binary :=
  let exponent := ((bits >>> 52) &&& 0x7FF).toNat
  let fraction := (bits &&& 0xFFFFFFFFFFFFF).toNat
  if exponent = 0 then ⟨fraction, -1074, false⟩
  else ⟨4503599627370496 + fraction, (exponent : Int) - 1075, fraction = 0 ∧ 1 < exponent⟩

/-- Of the multiples of a power of ten that read back as a number, the nearest to it, and of two
equally near the greater. What lies half way to a neighbour reads back when the mantissa is even. -/
def nearest? (b : Binary) (power : Int) : Option Nat :=
  let scale := Nat.pow 10 (-power).toNat * Nat.pow 2 (b.exponent - 2).toNat
  let unit := Nat.pow 10 power.toNat * Nat.pow 2 (2 - b.exponent).toNat
  let value := 4 * b.mantissa * scale
  let low := (if b.isNarrowBelow then 4 * b.mantissa - 1 else 4 * b.mantissa - 2) * scale
  let high := (4 * b.mantissa + 2) * scale
  let readsBack (n : Nat) : Bool :=
    if b.mantissa % 2 = 0 then low ≤ n * unit && n * unit ≤ high
    else low < n * unit && n * unit < high
  let below := value / unit
  if readsBack below && (!readsBack (below + 1) || 2 * value < (2 * below + 1) * unit) then
    some below
  else if readsBack (below + 1) then some (below + 1)
  else none

/-- A power of ten greater than every number. -/
def highestPower : Int := 309

/-- How many powers of ten there are from the highest down to one of which every number is a
multiple. -/
def powerCount : Nat := 1384

/-- The multiple of the greatest power of ten that reads back as a number, with that power. -/
def shortest (b : Binary) : Nat × Int :=
  ((List.range powerCount).findSome? fun (i : Nat) =>
    (b.nearest? (highestPower - i)).map fun n => (n, highestPower - i)).getD (0, 0)

end Binary

/-- A whole number times a power of ten, with a point if the power is negative. -/
def plain (n : Nat) (power : Int) : List Char :=
  if 0 ≤ power then digits n ++ List.replicate power.toNat '0'
  else
    let places := power.natAbs
    let ds := padded (places + 1) n
    ds.take (ds.length - places) ++ '.' :: ds.drop (ds.length - places)

/-- The text of a finite floating-point number. Zero has a sign too. -/
def ofFloat (x : Float) : String :=
  let bits := x.toBits
  let magnitude := Binary.ofBits bits
  let (n, power) := if magnitude.mantissa = 0 then (0, 0) else magnitude.shortest
  String.ofList ((if bits >>> 63 = 1 then ['-'] else []) ++ plain n power)

end PerpExchange.Decimal
