import PerpExchange.Order.Raw

/-!
Orders as the exchange follows them: what was placed, how much of it is filled, and the statuses
it has gone through.
-/

namespace PerpExchange

inductive OrderStatus where
  | placed
  | filled
  | cancelled
  | executionFailed
  deriving DecidableEq, Inhabited

/-- Filled and cancelled orders have left the book for good. -/
def OrderStatus.isTerminal : OrderStatus → Bool
  | .filled | .cancelled => true
  | .placed | .executionFailed => false

/-- A status, the block it came with, and a remark. -/
structure Lifecycle where
  block : BlockNumber
  status : OrderStatus
  info : String
  deriving DecidableEq, Inhabited

/-- An order on the books. The fill has the sign of the size. The last entry of the lifecycle is
the current one. -/
structure Order where
  id : Hash
  market : MarketId
  side : Side
  trader : Address
  size : Amount
  filled : Amount
  salt : Amount
  price : Amount
  reduceOnly : Bool
  block : BlockNumber
  lifecycle : List Lifecycle
  raw : RawOrder
  deriving DecidableEq, Inhabited

namespace Order

/-- An order placed at a block, with nothing filled. -/
def place (id : Hash) (raw : RawOrder) (block : BlockNumber) : Order :=
  let t := raw.terms
  { id, raw, block
    market := t.market
    side := Side.of t.size
    trader := t.trader
    size := t.size
    filled := 0
    salt := t.salt
    price := t.price
    reduceOnly := t.reduceOnly
    lifecycle := [⟨block, .placed, ""⟩] }

def kind (o : Order) : OrderKind := o.raw.kind

def isIoc (o : Order) : Bool := o.kind = .ioc

def isPostOnly (o : Order) : Bool := o.raw.isPostOnly

/-- The current entry of the lifecycle. -/
def status? (o : Order) : Option Lifecycle := o.lifecycle.getLast?

def hasStatus (o : Order) (s : OrderStatus) : Bool := o.status?.any fun l => l.status = s

/-- The part of the size that is not filled, with its sign. -/
def unfilled (o : Order) : Checked Amount := o.size.sub o.filled

/-- Whether the order is void at a time. An expiry of zero is none. -/
def isExpired (o : Order) (now : Timestamp) : Bool :=
  o.raw.expireAt?.any fun time => 0 < time ∧ time < now

end Order

end PerpExchange
