import PerpExchange.Order.Codec

/-!
Where the decisions of a run go. A run submits each decision to an executor, which takes it or
refuses it; what it has taken waits as an instruction for the chain.
-/

namespace PerpExchange

open Json

/-- A decision handed to the executor, with the orders as they stand when it is made. -/
inductive Submission where
  | matchOrders (long short : Order) (fill : Amount)
  | liquidate (trader : Address) (order : Order) (fill : Amount)
  | cancelOrders (orders : List Order)
  | settleFunding
  | samplePremium
  deriving DecidableEq

namespace Submission

/-- The word a refusal names the submission by. -/
def kind : Submission → String
  | .matchOrders .. => "match"
  | .liquidate .. => "liquidate"
  | .cancelOrders _ => "cancel"
  | .settleFunding => "funding"
  | .samplePremium => "sample_pi"

/-- The orders a submission names. -/
def orders : Submission → List Order
  | .matchOrders long short _ => [long, short]
  | .liquidate _ order _ => [order]
  | .cancelOrders orders => orders
  | .settleFunding => []
  | .samplePremium => []

end Submission

/-- Why an executor refuses a submission. -/
inductive SubmissionError where
  | rejected (kind : String)
  | queueFull (queued : Nat)
  deriving DecidableEq

def SubmissionError.message : SubmissionError → String
  | .rejected kind => "Instruction rejected: " ++ kind
  | .queueFull queued => "Instruction queue is full (" ++ Decimal.text queued ++ " queued)"

/-- Anything that takes or refuses submissions. Its verdicts may depend on a state of its own. -/
structure Executor (σ : Type) where
  submit : Submission → σ → Except SubmissionError Unit × σ
  /-- Drops what has been taken and not handed on. -/
  purge : σ → σ
  /-- How many instructions wait. -/
  queued : σ → Nat

/-- A transaction that waits for the chain. -/
inductive Instruction where
  | matchOrders (long short : Hash) (fill : Amount)
  | liquidate (trader : Address) (order : Hash) (fill : Amount)
  | cancelOrders (orders : List Hash)
  | settleFunding
  | samplePremium
  deriving DecidableEq

def Submission.toInstruction : Submission → Instruction
  | .matchOrders long short fill => .matchOrders long.id short.id fill
  | .liquidate trader order fill => .liquidate trader order.id fill
  | .cancelOrders orders => .cancelOrders (orders.map Order.id)
  | .settleFunding => .settleFunding
  | .samplePremium => .samplePremium

namespace Instruction

/-- The word that tells what an instruction does. -/
def name : Instruction → String
  | .matchOrders .. => "match_orders"
  | .liquidate .. => "liquidate"
  | .cancelOrders _ => "cancel_orders"
  | .settleFunding => "settle_funding"
  | .samplePremium => "sample_premium_index"

def fields : Instruction → List (String × Json)
  | .matchOrders long short fill => [
    ("long_order", encode long), ("short_order", encode short), ("fill_amount", encode fill)]
  | .liquidate trader order fill => [
    ("trader", encode trader), ("order", encode order), ("fill_amount", encode fill)]
  | .cancelOrders orders => [("orders", encode orders)]
  | .settleFunding => []
  | .samplePremium => []

/-- An instruction as JSON, without the number that makes each one unique. -/
def toJson (i : Instruction) : Json := ofFields (("type", ofString i.name) :: i.fields)

end Instruction

/-- A desk that queues instructions, up to a capacity if it has one, and refuses submissions of the
listed kinds and those that name a listed order. -/
structure Desk where
  queue : List Instruction
  capacity : Option Nat
  refusedKinds : List String
  refusedOrders : List Hash
  deriving Inhabited

namespace Desk

def refuses (d : Desk) (s : Submission) : Bool :=
  s.kind ∈ d.refusedKinds || s.orders.any fun o => o.id ∈ d.refusedOrders

def isFull (d : Desk) : Bool := d.capacity.any fun n => n ≤ d.queue.length

def submit (s : Submission) (d : Desk) : Except SubmissionError Unit × Desk :=
  if d.refuses s then (.error (.rejected s.kind), d)
  else if d.isFull then (.error (.queueFull d.queue.length), d)
  else (.ok (), { d with queue := d.queue ++ [s.toInstruction] })

def executor : Executor Desk where
  submit := submit
  purge d := { d with queue := [] }
  queued d := d.queue.length

end Desk

end PerpExchange
