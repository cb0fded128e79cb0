import PerpExchange.Matching.Run

/-!
Crossing the longs of a market against its shorts. Both lists come with the order that trades first
in front. Each long takes what it can from the shorts in turn, as far as prices cross; a pair whose
submission is refused leaves both orders as they were, and both sit out the rest of the run.
-/

namespace PerpExchange

/-- The orders of one market that take part in a run, as it fills them. -/
structure WorkingBook where
  longs : List Order
  shorts : List Order
  deriving Inhabited

/-- The orders with anything left to fill. -/
def openOrders (orders : List Order) : Checked (List Order) :=
  orders.filterM fun o => return (← o.unfilled) ≠ 0

/-- Drops the orders with nothing left to fill. -/
def WorkingBook.prune (b : WorkingBook) : Checked WorkingBook := do
  let longs ← openOrders b.longs
  let shorts ← openOrders b.shorts
  return ⟨longs, shorts⟩

def WorkingBook.side (b : WorkingBook) : Side → List Order
  | .long => b.longs
  | .short => b.shorts

def WorkingBook.withSide (b : WorkingBook) : Side → List Order → WorkingBook
  | .long, orders => { b with longs := orders }
  | .short, orders => { b with shorts := orders }

/-- Whether the later of two orders may take from the earlier. An order that trades at once takes
only from orders that were there before it, and a post-only order never takes. -/
def canCrossInTime (long short : Order) : Bool :=
  if long.block < short.block then !long.isIoc && !short.isPostOnly
  else if short.block < long.block then !short.isIoc && !long.isPostOnly
  else true

/-- What all pairs of a market have in common. -/
structure MatchTerms (σ : Type) where
  executor : Executor σ
  margin : MarginTerms
  /-- The highest acceptable price, if there is one. -/
  upperBound : Option Amount

/-- A fill two orders agree on, with the margin debited for it. -/
structure Agreement where
  fill : Amount
  longMargin : Amount
  shortMargin : Amount

/-- What came of a pair: nothing, a fill, or a refused submission. -/
inductive PairResult where
  | passed
  | filled (long short : Order)
  | refused

variable {σ : Type}

/-- The fill two orders agree on, if their prices cross, their times allow it, both have something
open, and both traders have the margin. -/
def agree (t : MatchTerms σ) (long short : Order) : RunM σ (Option Agreement) := do
  if long.price < short.price then return none
  if !canCrossInTime long short then return none
  let longOpen ← long.unfilled
  let shortOpen ← short.unfilled
  let fill ← longOpen.minAbs shortOpen
  if fill = 0 then return none
  match ← RunM.reserve t.margin t.upperBound long fill with
  | none =>
    RunM.count .insufficientMargin
    return none
  | some longMargin =>
    match ← RunM.reserve t.margin t.upperBound short fill with
    | none =>
      RunM.count .insufficientMargin
      RunM.release long.trader longMargin
      return none
    | some shortMargin => return some ⟨fill, longMargin, shortMargin⟩

/-- Tries to trade a pair. -/
def tradePair (t : MatchTerms σ) (long short : Order) : RunM σ PairResult := do
  match ← agree t long short with
  | none => return .passed
  | some a =>
    if ← RunM.submit t.executor (.matchOrders long short a.fill) then
      let longFilled ← long.filled.add a.fill
      let shortFilled ← short.filled.sub a.fill
      modify fun r => { r with matchCount := r.matchCount + 1 }
      RunM.count .matchSubmitted
      return .filled { long with filled := longFilled } { short with filled := shortFilled }
    else
      RunM.count .matchRefused
      RunM.release long.trader a.longMargin
      RunM.release short.trader a.shortMargin
      RunM.skip long.id
      RunM.skip short.id
      return .refused

/-- Offers a long to the shorts in turn, and answers with both as they stand afterwards. -/
def crossLong (t : MatchTerms σ) (long : Order) : List Order → RunM σ (Order × List Order)
  | [] => return (long, [])
  | short :: rest => do
    if (← long.unfilled) = 0 then return (long, short :: rest)
    if long.price < short.price then return (long, short :: rest)
    if (← get).isSkipped short then
      let (long, rest) ← crossLong t long rest
      return (long, short :: rest)
    match ← tradePair t long short with
    | .passed =>
      let (long, rest) ← crossLong t long rest
      return (long, short :: rest)
    | .filled long short =>
      let (long, rest) ← crossLong t long rest
      return (long, short :: rest)
    | .refused => return (long, short :: rest)

/-- Crosses the longs against the shorts, until no short is left or none crosses. -/
def crossAll (t : MatchTerms σ) : List Order → List Order → RunM σ (List Order × List Order)
  | [], shorts => return ([], shorts)
  | long :: longs, [] => return (long :: longs, [])
  | long :: longs, best :: shorts => do
    if long.price < best.price then return (long :: longs, best :: shorts)
    if (← get).isSkipped long then
      let (longs, shorts) ← crossAll t longs (best :: shorts)
      return (long :: longs, shorts)
    let (long, shorts) ← crossLong t long (best :: shorts)
    let shorts ← openOrders shorts
    let (longs, shorts) ← crossAll t longs shorts
    return (long :: longs, shorts)

end PerpExchange
