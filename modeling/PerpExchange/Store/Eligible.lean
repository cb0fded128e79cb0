import PerpExchange.Store.Basic

/-!
Which orders of a market may trade now.
-/

namespace PerpExchange.Store

/-- How many blocks an order sits out after its execution failed. -/
def retryAfterBlocks : BlockNumber := 10

/-- Whether the current status of an order lets it trade. One whose execution failed comes back
after some blocks, if the block is known. -/
def statusPermits (l : Lifecycle) (block : Option BlockNumber) : Checked Bool := do
  match l.status with
  | .placed => return true
  | .filled | .cancelled => return false
  | .executionFailed =>
    match block with
    | none => return false
    | some b => return (← l.block.later retryAfterBlocks) ≤ b

/-- The size of the position of a trader in a market. -/
def positionSize (s : Store) (trader : Address) (m : MarketId) : Amount :=
  match s.traders[trader]? with
  | some t =>
    match t.positions[m]? with
    | some p => p.size
    | none => 0
  | none => 0

/-- An order that only reduces a position, cut down to what there is to reduce. -/
def clipToPosition (o : Order) (size : Amount) : Checked (Option Order) := do
  if size = 0 ∨ size.signum = o.size.signum then return none
  let unfilled ← o.unfilled
  let openSize ← unfilled.abs
  let held ← size.abs
  if held < openSize then
    return some { o with filled := ← o.size.sub (← held.mul o.side.sign) }
  return some o

/-- The copy of an order that may trade at a block and a time, if any. -/
def tradeable (s : Store) (o : Order) (block : Option BlockNumber) (now : Timestamp) :
    Checked (Option Order) := do
  match o.status? with
  | none => return none
  | some l =>
    if !(← statusPermits l block) then return none
    if o.isExpired now then return none
    if o.reduceOnly then clipToPosition o (s.positionSize o.trader o.market)
    else return some o

/-- Whether a price lies beyond a bound: too low for a long, too high for a short. -/
def beyond (side : Side) (bound : Option Amount) (price : Amount) : Bool :=
  match side, bound with
  | .long, some lower => price < lower
  | .short, some upper => upper < price
  | _, none => false

/-- The copy of a listed order that may trade, if any. -/
def tradeableEntry (s : Store) (block : Option BlockNumber) (now : Timestamp) (e : BookEntry) :
    Checked (Option Order) :=
  match s.orders[e.id]? with
  | some o => s.tradeable o block now
  | none => return none

/-- The orders of one side that may trade, in order of priority, up to a bound on their price. -/
def eligibleOrders (s : Store) (m : MarketId) (side : Side) (bound : Option Amount)
    (block : Option BlockNumber) (now : Timestamp) : Checked (List Order) :=
  (((s.book m).side side).takeWhile fun e => !beyond side bound e.price).filterMapM
    (s.tradeableEntry block now)

end PerpExchange.Store
