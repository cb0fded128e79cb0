import PerpExchange.Matching.Crossing

/-!
Liquidating positions against resting orders. A long position is sold into the longs of its market
and a short position is bought back from the shorts, in turn and as far as the liquidation bounds
of the market allow.
-/

namespace PerpExchange

/-- A position that is to be liquidated, up to a size, of which some may be done already. -/
structure LiquidablePosition where
  trader : Address
  market : MarketId
  side : Side
  size : Amount
  marginFraction : Amount
  filledSize : Amount
  deriving DecidableEq

def LiquidablePosition.unfilled (p : LiquidablePosition) : Checked Amount := p.size.sub p.filledSize

/-- Whether a price is out of bounds for absorbing a position of a side. -/
def PriceBounds.excludes (b : PriceBounds) (side : Side) (price : Amount) : Bool :=
  match side with
  | .long => price < b.lower
  | .short => b.upper < price

/-- What all candidates have in common. -/
structure LiquidationTerms (σ : Type) where
  executor : Executor σ
  margin : MarginTerms
  bounds : MarketId → PriceBounds

variable {σ : Type}

/-- Offers what remains of a position to the orders in turn, and answers with what remains and the
orders as they stand afterwards. A refused submission ends the walk. -/
def absorb (t : LiquidationTerms σ) (p : LiquidablePosition) (remaining : Amount) :
    List Order → RunM σ (Amount × List Order)
  | [] => return (remaining, [])
  | o :: rest => do
    if remaining = 0 then return (remaining, o :: rest)
    if (t.bounds p.market).excludes p.side o.price then return (remaining, o :: rest)
    if (← get).isSkipped o then
      let (remaining, rest) ← absorb t p remaining rest
      return (remaining, o :: rest)
    let fill ← remaining.minAbs (← o.unfilled)
    if fill = 0 then
      let (remaining, rest) ← absorb t p remaining rest
      return (remaining, o :: rest)
    match ← RunM.reserve t.margin (t.bounds p.market).upperLimit? o fill with
    | none =>
      RunM.count .insufficientMargin
      let (remaining, rest) ← absorb t p remaining rest
      return (remaining, o :: rest)
    | some reserved =>
      if ← RunM.submit t.executor (.liquidate p.trader o fill) then
        let filled ← o.filled.add (← fill.mul o.side.sign)
        let remaining ← remaining.sub fill
        modify fun r => { r with liquidationCount := r.liquidationCount + 1 }
        RunM.count .liquidationSubmitted
        let (remaining, rest) ← absorb t p remaining rest
        return (remaining, { o with filled := filled } :: rest)
      else
        RunM.count .liquidationRefused
        RunM.release o.trader reserved
        RunM.skip o.id
        return (remaining, o :: rest)

/-- Liquidates one position in the book of its market, if the market has one. -/
def liquidate (t : LiquidationTerms σ) (p : LiquidablePosition)
    (books : Map MarketId WorkingBook) : RunM σ (Map MarketId WorkingBook) := do
  let remaining ← p.unfilled
  match books[p.market]? with
  | none => return books
  | some book =>
    let (_, orders) ← absorb t p remaining (book.side p.side)
    let book ← (book.withSide p.side orders).prune
    return books.insert p.market book

/-- Liquidates positions in turn. -/
def liquidateAll (t : LiquidationTerms σ) :
    List LiquidablePosition → Map MarketId WorkingBook → RunM σ (Map MarketId WorkingBook)
  | [], books => return books
  | p :: rest, books => do liquidateAll t rest (← liquidate t p books)

end PerpExchange
