/-!
Computations that may stop, and the words of 64 bits that stand for block numbers and times. Times
count seconds.
-/

namespace PerpExchange

/-- Why a step has no answer: a number leaves its width, or more room is asked for than there can
be. -/
inductive Fault where
  | addOverflow
  | subOverflow
  | mulOverflow
  | negOverflow
  | divOverflow
  | powOverflow
  | divisionByZero
  | lengthOverflow
  | outOfMemory
  | bufferTooLarge
  | roomTooLarge
  deriving DecidableEq

/-- The sentence an operator reads when a computation stops. -/
def Fault.message : Fault → String
  | .addOverflow => "attempt to add with overflow"
  | .subOverflow => "attempt to subtract with overflow"
  | .mulOverflow => "attempt to multiply with overflow"
  | .negOverflow => "attempt to negate with overflow"
  | .divOverflow => "attempt to divide with overflow"
  | .powOverflow => "attempt to exponentiate with overflow"
  | .divisionByZero => "attempt to divide by zero"
  | .lengthOverflow => "capacity overflow"
  | .outOfMemory => "memory allocation failed"
  | .bufferTooLarge => "bounded channel capacity is too large"
  | .roomTooLarge =>
    "a semaphore may not have more than MAX_PERMITS permits (2305843009213693951)"

/-- A computation that may stop at a fault. -/
abbrev Checked (α : Type) : Type := Except Fault α

abbrev BlockNumber : Type := UInt64

abbrev Timestamp : Type := UInt64

/-- The block a number of blocks later; it stops at a fault when the count of blocks runs out. -/
def BlockNumber.later (b n : BlockNumber) : Checked BlockNumber :=
  if b.toNat + n.toNat < UInt64.size then .ok (b + n) else .error .addOverflow

/-- The seconds from an earlier time to a later one, and none when it is not later. -/
def Timestamp.since (now earlier : Timestamp) : UInt64 := if earlier ≤ now then now - earlier else 0

end PerpExchange
