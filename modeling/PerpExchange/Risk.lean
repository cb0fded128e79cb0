import PerpExchange.Ledger
import PerpExchange.Params

/-!
What positions and orders are worth, and what margin they need. Where a market has two prices, a
trader is valued at the one that is worse for them.
-/

namespace PerpExchange

/-- The parameters a valuation uses, as they stand at its start. -/
structure RiskState where
  collaterals : List Collateral
  oraclePrices : Map MarketId Amount
  midPrices : Map MarketId Amount
  activeMarkets : List MarketId
  maintenanceMargin : Amount
  minAllowableMargin : Amount
  takerFee : Amount

namespace RiskState

def ofParams (p : ProtocolParams) : RiskState where
  collaterals := p.collaterals
  oraclePrices := p.markets.map fun _ q => q.oraclePrice
  midPrices := p.markets.map fun _ q => q.midPrice
  activeMarkets := p.activeMarkets
  maintenanceMargin := p.maintenanceMargin
  minAllowableMargin := p.minAllowableMargin
  takerFee := p.takerFee

def oraclePrice (s : RiskState) (m : MarketId) : Amount := s.oraclePrices.getD m 0

/-- The mid price, or the oracle price where none is quoted. -/
def midPrice (s : RiskState) (m : MarketId) : Amount :=
  match s.midPrices[m]? with
  | some price => if 0 < price then price else s.oraclePrice m
  | none => s.oraclePrice m

end RiskState

/-- What a configuration answers while a run lasts: the parameters of valuations, among which each
active market is named once, and the bounds of every market. Orders trade within the acceptable
bounds and liquidations within their own. -/
structure Configuration extends RiskState where
  nodup_activeMarkets : activeMarkets.Nodup
  acceptableBounds : MarketId → PriceBounds
  liquidationBounds : MarketId → PriceBounds

/-- The answers of a configuration that is held as parameters. -/
def ProtocolParams.configuration (p : ProtocolParams) : Configuration where
  toRiskState := .ofParams p
  nodup_activeMarkets := p.nodup_activeMarkets
  acceptableBounds m := (p.market m).acceptableBounds
  liquidationBounds m := (p.market m).liquidationBounds

/-- The margin fraction of a trader without exposure. -/
def maxMarginFraction : Amount := 9223372036854775807

/-- The funding of a position since its last premium fraction, rounded toward zero. A negative
product is raised by one unit less than a whole before it is rounded down. -/
def pendingFunding (cumulative last size : Amount) : Checked Amount := do
  let payment := (cumulative.satSub last).satMul size
  if payment < 0 then
    let raised ← payment.add Amount.atto
    (← raised.sub 1).divEuclid Amount.atto
  else payment.dropAtto

/-- The funding of all positions together. -/
def totalPendingFunding (positions : Map MarketId Position) : Amount :=
  positions.toList.foldl (fun sum (_, p) => sum.satAdd p.unrealisedFunding) 0

/-- What a deposit counts for: its value in quote units first, then its weight. -/
def collateralValue (c : Collateral) (deposit : Amount) : Checked Amount := do
  let value ← (deposit.satMul c.price).div (← Amount.tenPow c.decimals)
  (value.satMul c.weight).dropMicro

/-- What deposits of the collaterals, in their order, count for together. -/
def normalizedMargin (collaterals : List Collateral) (deposits : List Amount) : Checked Amount :=
  (collaterals.zip deposits).foldlM
    (fun sum (c, deposit) => return sum.satAdd (← collateralValue c deposit)) 0

/-- The magnitude of size times price, in quote units. -/
def notionalPosition (price size : Amount) : Checked Amount := do
  (← (size.satMul price).dropAtto).abs

/-- A position at a price: its notional, and its profit against what it was opened for. -/
structure Valuation where
  notional : Amount
  pnl : Amount
  deriving DecidableEq

def Position.valueAt (p : Position) (price : Amount) : Checked Valuation := do
  if p.size = 0 then return ⟨0, 0⟩
  let notional ← notionalPosition price p.size
  let pnl ← if 0 < p.size then notional.sub p.openNotional else p.openNotional.sub notional
  return ⟨notional, pnl⟩

/-- The sum of margin and profit as a fraction of the notional, with six decimals. -/
def marginFractionOf (margin pnl notional : Amount) : Checked Amount := do
  if notional = 0 then return maxMarginFraction
  (← (← margin.add pnl).scaleMicro).div notional

/-- What a trader brings to a valuation. -/
structure RiskUser where
  positions : Map MarketId Position
  deposits : List Amount
  pendingFunding : Amount
  reserved : Amount

def RiskUser.ofTrader (t : Trader) (collateralCount : Nat) : RiskUser where
  positions := t.positions
  deposits := t.margin.deposits collateralCount
  pendingFunding := totalPendingFunding t.positions
  reserved := t.margin.reserved

/-- What a valuation is for: to see whether a trader is to be liquidated, or whether there is room
for new risk. -/
inductive MarginMode where
  | maintenance
  | minAllowable
  deriving DecidableEq

/-- What is left of the profit once the least margin for new risk is set aside. -/
def headroom (s : RiskState) (v : Valuation) : Checked Amount := do
  v.pnl.sub (← (← v.notional.mul s.minAllowableMargin).dropMicro)

/-- Whether the first valuation is as bad for the trader as the second, or worse. -/
def noBetter (s : RiskState) (margin : Amount) (mode : MarginMode) (v w : Valuation) :
    Checked Bool :=
  match mode with
  | .maintenance => do
    let x ← marginFractionOf margin v.pnl v.notional
    let y ← marginFractionOf margin w.pnl w.notional
    return x ≤ y
  | .minAllowable => do
    let x ← headroom s v
    let y ← headroom s w
    return x ≤ y

/-- A position at the oracle price or the mid price, whichever is worse; ties keep the oracle. -/
def worseValuation (s : RiskState) (margin : Amount) (mode : MarginMode) (m : MarketId)
    (p : Position) : Checked Valuation := do
  let oracle ← p.valueAt (s.oraclePrice m)
  let mid ← p.valueAt (s.midPrice m)
  return if ← noBetter s margin mode oracle mid then oracle else mid

/-- The position a market is valued by: one that is open, in a market with an oracle price. -/
def valuedPosition? (s : RiskState) (u : RiskUser) (m : MarketId) : Option Position :=
  match u.positions[m]? with
  | some p => if p.size = 0 ∨ s.oraclePrice m = 0 then none else some p
  | none => none

/-- The notional and the profit of all open positions in active markets. -/
def totalValuation (s : RiskState) (u : RiskUser) (margin : Amount) (mode : MarginMode) :
    Checked Valuation :=
  s.activeMarkets.foldlM (fun total m =>
    match valuedPosition? s u m with
    | none => return total
    | some p => do
      let v ← worseValuation s margin mode m p
      let notional ← total.notional.add v.notional
      let pnl ← total.pnl.add v.pnl
      return ⟨notional, pnl⟩) ⟨0, 0⟩

/-- What the deposits of a trader count for, less the funding they owe. -/
def fundedMargin (s : RiskState) (u : RiskUser) : Checked Amount := do
  return (← normalizedMargin s.collaterals u.deposits).satSub u.pendingFunding

/-- The margin fraction that decides on liquidation. -/
def marginFraction (s : RiskState) (u : RiskUser) : Checked Amount := do
  let margin ← fundedMargin s u
  let total ← totalValuation s u margin .maintenance
  marginFractionOf margin total.pnl total.notional

/-- The margin that is free for new orders. -/
def availableMargin (s : RiskState) (u : RiskUser) : Checked Amount := do
  let margin ← fundedMargin s u
  let total ← totalValuation s u margin .minAllowable
  let utilized ← (← total.notional.mul s.minAllowableMargin).dropMicro
  (← (← margin.add total.pnl).sub utilized).sub u.reserved

/-- How much of a position may be liquidated at once, with the sign of the size: a share of it, but
at least the least size of the market, and never more than all of it. -/
def liquidationThreshold (maxRatio minSize size : Amount) : Checked Amount := do
  if size = 0 then return 0
  let share ← (size.satAbs.satMul maxRatio).dropMicro
  (min (max share minSize) size.satAbs).mul size.signum

/-- The margin a fill needs. A short below the upper bound is charged at the bound, the worst price
it may be filled at. -/
def requiredMargin (price : Amount) (isShort : Bool) (fill : Amount) (upperBound : Option Amount)
    (minAllowable takerFee : Amount) : Checked Amount := do
  let charged := match upperBound with
    | some upper => if isShort ∧ price < upper then upper else price
    | none => price
  let quote ← notionalPosition charged fill
  (← quote.mul (← minAllowable.add takerFee)).dropMicro

/-- The margin that cancelling the rest of an order sets free. -/
def orderMargin (price unfilled minAllowable : Amount) : Checked Amount := do
  (← (← notionalPosition price unfilled).mul minAllowable).dropMicro

end PerpExchange
