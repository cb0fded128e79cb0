import PerpExchange.Basic
import PerpExchange.Decimal

/-!
Signed quantities of 128 bits. Sizes, prices, rates and balances are all amounts, each in its own
fixed scale. Every operation says in its name what happens when the exact result does not fit:
the plain ones stop at a fault, the saturating ones go to the nearer end of the range, and those
with a question mark answer nothing.
-/

namespace PerpExchange

/-- A whole number that fits 128 bits with a sign: it lies between minus 2 to the 127, included, and
2 to the 127, not included. -/
structure Amount where
  toInt : Int
  lower : -170141183460469231731687303715884105728 ≤ toInt
  upper : toInt < 170141183460469231731687303715884105728
  deriving DecidableEq

namespace Amount

theorem ext_toInt {a b : Amount} (h : a.toInt = b.toInt) : a = b := by
  cases a; cases b; cases h; rfl

/-- The amount an integer is, if it fits. -/
def ofInt? (i : Int) : Option Amount :=
  if h : -170141183460469231731687303715884105728 ≤ i ∧
      i < 170141183460469231731687303715884105728 then some ⟨i, h.1, h.2⟩
  else none

/-- An integer is an amount exactly when it is the value of one. -/
theorem ofInt?_eq_some_iff {i : Int} {a : Amount} : ofInt? i = some a ↔ a.toInt = i := by
  unfold ofInt?
  split
  · exact ⟨fun e => by cases e; rfl, fun e => congrArg some (ext_toInt e.symm)⟩
  next h => exact ⟨fun e => (by cases e), fun e => (h ⟨e ▸ a.lower, e ▸ a.upper⟩).elim⟩

theorem ofInt?_toInt (a : Amount) : ofInt? a.toInt = some a := ofInt?_eq_some_iff.2 rfl

/-- The amount nearest to an integer. -/
def clamp (i : Int) : Amount :=
  if h : -170141183460469231731687303715884105728 ≤ i ∧
      i < 170141183460469231731687303715884105728 then ⟨i, h.1, h.2⟩
  else if i < 0 then ⟨-170141183460469231731687303715884105728, by decide, by decide⟩
  else ⟨170141183460469231731687303715884105727, by decide, by decide⟩

/-- Clamping goes to the nearer end of the range. -/
theorem toInt_clamp (i : Int) :
    (clamp i).toInt =
      max (-170141183460469231731687303715884105728)
        (min i 170141183460469231731687303715884105727) := by
  unfold clamp
  split
  next h => simp only [Int.max_def, Int.min_def]; split <;> split <;> omega
  next h => split <;> simp only [Int.max_def, Int.min_def] <;> split <;> split <;> omega

instance (n : Nat) : OfNat Amount n := ⟨clamp n⟩

instance : Inhabited Amount := ⟨0⟩

/-- The least amount, the only one without a negation. -/
def least : Amount := ⟨-170141183460469231731687303715884105728, by decide, by decide⟩

/-- The greatest amount. -/
def greatest : Amount := ⟨170141183460469231731687303715884105727, by decide, by decide⟩

instance : LE Amount := ⟨fun a b => a.toInt ≤ b.toInt⟩

instance : LT Amount := ⟨fun a b => a.toInt < b.toInt⟩

instance (a b : Amount) : Decidable (a ≤ b) := Int.decLe a.toInt b.toInt

instance (a b : Amount) : Decidable (a < b) := Int.decLt a.toInt b.toInt

instance : Ord Amount := ⟨fun a b => compare a.toInt b.toInt⟩

instance : Min Amount := ⟨fun a b => if a ≤ b then a else b⟩

instance : Max Amount := ⟨fun a b => if a ≤ b then b else a⟩

/-- The amount an exact result is, or the fault of leaving the range. -/
def fit (fault : Fault) (i : Int) : Checked Amount :=
  match ofInt? i with
  | some a => .ok a
  | none => .error fault

/-- A result is delivered exactly when it is the exact one. -/
theorem fit_eq_ok_iff {f : Fault} {i : Int} {a : Amount} : fit f i = .ok a ↔ a.toInt = i := by
  rw [← ofInt?_eq_some_iff]
  unfold fit
  split <;> simp_all

/-- The sum, if it fits. -/
def add? (a b : Amount) : Option Amount := ofInt? (a.toInt + b.toInt)

/-- The product, if it fits. -/
def mul? (a b : Amount) : Option Amount := ofInt? (a.toInt * b.toInt)

/-- The negation, if it fits. -/
def neg? (a : Amount) : Option Amount := ofInt? (-a.toInt)

def add (a b : Amount) : Checked Amount := fit .addOverflow (a.toInt + b.toInt)

def sub (a b : Amount) : Checked Amount := fit .subOverflow (a.toInt - b.toInt)

def mul (a b : Amount) : Checked Amount := fit .mulOverflow (a.toInt * b.toInt)

def neg (a : Amount) : Checked Amount := fit .negOverflow (-a.toInt)

theorem add_eq_ok_iff {a b c : Amount} : a.add b = .ok c ↔ c.toInt = a.toInt + b.toInt :=
  fit_eq_ok_iff

theorem sub_eq_ok_iff {a b c : Amount} : a.sub b = .ok c ↔ c.toInt = a.toInt - b.toInt :=
  fit_eq_ok_iff

theorem mul_eq_ok_iff {a b c : Amount} : a.mul b = .ok c ↔ c.toInt = a.toInt * b.toInt :=
  fit_eq_ok_iff

theorem neg_eq_ok_iff {a b : Amount} : a.neg = .ok b ↔ b.toInt = -a.toInt := fit_eq_ok_iff

/-- The magnitude; the least amount has none. -/
def abs (a : Amount) : Checked Amount := if a < 0 then a.neg else .ok a

/-- The quotient toward zero. -/
def div (a b : Amount) : Checked Amount :=
  if b = 0 then .error .divisionByZero else fit .divOverflow (a.toInt.tdiv b.toInt)

/-- The quotient whose remainder is not negative. -/
def divEuclid (a b : Amount) : Checked Amount :=
  if b = 0 then .error .divisionByZero else fit .divOverflow (a.toInt / b.toInt)

/-- Ten to the power of a count of decimals; the 39th leaves the range. -/
def tenPow (decimals : UInt32) : Checked Amount :=
  if decimals ≤ 38 then fit .powOverflow (Nat.pow 10 decimals.toNat) else .error .powOverflow

def satAdd (a b : Amount) : Amount := clamp (a.toInt + b.toInt)

def satSub (a b : Amount) : Amount := clamp (a.toInt - b.toInt)

def satMul (a b : Amount) : Amount := clamp (a.toInt * b.toInt)

/-- The magnitude; that of the least amount is the greatest. -/
def satAbs (a : Amount) : Amount := clamp a.toInt.natAbs

/-- One, zero or minus one, by the sign. -/
def signum (a : Amount) : Amount := clamp a.toInt.sign

/-- The lesser of the two magnitudes. -/
def minAbs (a b : Amount) : Checked Amount := do
  let x ← a.abs
  let y ← b.abs
  return min x y

/-!
Prices, ratios and margin balances have six decimals, sizes have eighteen.
-/

/-- One unit at six decimals. -/
def micro : Amount := 1000000

/-- One unit at eighteen decimals. -/
def atto : Amount := 1000000000000000000

/-- Adds six decimals. -/
def scaleMicro (a : Amount) : Checked Amount := a.mul micro

/-- Drops six decimals, toward zero. -/
def dropMicro (a : Amount) : Checked Amount := a.div micro

/-- Drops eighteen decimals, toward zero. -/
def dropAtto (a : Amount) : Checked Amount := a.div atto

/-!
An amount is written with a minus sign when negative and no other sign; reading also takes a plus
sign and leading zeros.
-/

def toText (a : Amount) : String :=
  if a < 0 then String.ofList ('-' :: Decimal.digits a.toInt.natAbs)
  else Decimal.text a.toInt.natAbs

/-- The integer a signed decimal denotes. -/
def integer? : List Char → Option Int
  | '-' :: ds => (Decimal.value? ds).map fun n => -(n : Int)
  | '+' :: ds => (Decimal.value? ds).map Int.ofNat
  | ds => (Decimal.value? ds).map Int.ofNat

def ofText? (s : String) : Option Amount := (integer? s.toList).bind ofInt?

end Amount

end PerpExchange
