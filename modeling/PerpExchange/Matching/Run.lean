import Std.Data.ExtTreeSet
import PerpExchange.Metrics
import PerpExchange.Risk
import PerpExchange.Settlement

/-!
The state of one run. It debits the margin that taking orders need, remembers the orders whose
submission was refused, and keeps a journal of everything it has submitted.
-/

namespace PerpExchange

/-- A submission and whether the executor took it. -/
structure Receipt where
  submission : Submission
  accepted : Bool
  deriving DecidableEq

/-- A run part way through, with the executor in state `σ`. -/
structure RunState (σ : Type) where
  availableMargin : Map Address Amount
  skipped : Std.ExtTreeSet Hash
  matchCount : Nat
  liquidationCount : Nat
  failures : Nat
  metrics : Metrics
  desk : σ
  journal : List Receipt

/-- A step of a run. It may stop at a fault; what it has done by then stays done. -/
abbrev RunM (σ : Type) : Type → Type := EStateM Fault (RunState σ)

instance {σ : Type} : MonadLift Checked (EStateM Fault σ) where
  monadLift
    | .ok a => pure a
    | .error f => throw f

/-- The margin terms of a run. -/
structure MarginTerms where
  minAllowable : Amount
  takerFee : Amount

namespace RunState

variable {σ : Type}

/-- A run that starts with the given margins. -/
def start (availableMargin : Map Address Amount) (metrics : Metrics) (desk : σ) : RunState σ where
  availableMargin
  skipped := ∅
  matchCount := 0
  liquidationCount := 0
  failures := 0
  metrics
  desk
  journal := []

def isSkipped (r : RunState σ) (o : Order) : Bool := r.skipped.contains o.id

def skip (r : RunState σ) (id : Hash) : RunState σ := { r with skipped := r.skipped.insert id }

def count (r : RunState σ) (c : Counter) : RunState σ := { r with metrics := r.metrics.count c }

end RunState

/-- Resting limit orders and orders that only reduce a position need no margin of their own. -/
def Order.isMarginExempt (o : Order) : Bool := o.kind = .limit || o.reduceOnly

namespace RunM

variable {σ : Type}

/-- Debits the margin that filling an order takes, and answers how much that was; nothing if the
trader is short of it. -/
def reserve (terms : MarginTerms) (upperBound : Option Amount) (o : Order) (fill : Amount) :
    RunM σ (Option Amount) := do
  if o.isMarginExempt then return some 0
  let required ←
    requiredMargin o.price (o.side = .short) fill upperBound terms.minAllowable terms.takerFee
  let available := (← get).availableMargin.getD o.trader 0
  modify fun r => { r with availableMargin := r.availableMargin.insert o.trader available }
  if available < required then return none
  let left ← available.sub required
  modify fun r => { r with availableMargin := r.availableMargin.insert o.trader left }
  return some required

/-- Credits margin back to a trader. -/
def release (trader : Address) (amount : Amount) : RunM σ Unit := do
  if amount = 0 then return
  let sum ← ((← get).availableMargin.getD trader 0).add amount
  modify fun r => { r with availableMargin := r.availableMargin.insert trader sum }

def count (c : Counter) : RunM σ Unit := modify fun r => r.count c

def skip (id : Hash) : RunM σ Unit := modify fun r => r.skip id

/-- Hands a submission to the executor and answers whether it was taken. -/
def submit (executor : Executor σ) (s : Submission) : RunM σ Bool := do
  let r ← get
  let (verdict, desk) := executor.submit s r.desk
  let accepted := verdict.isOk
  set { r with
    desk := desk
    journal := r.journal ++ [Receipt.mk s accepted]
    failures := if accepted then r.failures else r.failures + 1 }
  return accepted

end RunM

end PerpExchange
