import PerpExchange.Risk
import PerpExchange.Store.Basic

/-!
The ledgers of traders: positions, margins and funding.
-/

namespace PerpExchange.Store

def trader (s : Store) (a : Address) : Trader := s.traders.getD a default

def setTrader (s : Store) (a : Address) (t : Trader) : Store :=
  { s with traders := s.traders.insert a t }

def cumulativePremiumOf (s : Store) (m : MarketId) : Amount := s.cumulativePremium.getD m 0

/-- A position with a new size and notional. Opening it starts its funding afresh, and closing it
clears the funding. -/
def resize (p : Position) (cumulative size openNotional : Amount) : Position :=
  let opens := p.size = 0 ∧ size ≠ 0
  { p with
    size, openNotional
    lastPremium := if opens then cumulative else p.lastPremium
    unrealisedFunding := if opens ∨ size = 0 then 0 else p.unrealisedFunding }

/-- The liquidation threshold of a position after a change, no larger than the position. A
liquidation leaves the threshold as it was, apart from that. -/
def thresholdAfter (q : MarketParams) (p : Position) (size : Amount) (isLiquidation : Bool) :
    Checked Amount := do
  let threshold ←
    if isLiquidation then pure p.liquidationThreshold
    else liquidationThreshold q.maxLiquidationRatio q.minSizeRequirement size
  (min threshold.satAbs size.satAbs).mul size.signum

/-- Overwrites the position of a trader in a market. -/
def updatePosition (s : Store) (params : ProtocolParams) (a : Address) (m : MarketId)
    (size openNotional : Amount) (isLiquidation : Bool) : Checked Store := do
  let t := s.trader a
  let p := resize (t.positions.getD m default) (s.cumulativePremiumOf m) size openNotional
  let threshold ← thresholdAfter (params.market m) p size isLiquidation
  return s.setTrader a
    { t with positions := t.positions.insert m { p with liquidationThreshold := threshold } }

/-- Changes a deposit by an amount. A change that leaves the range is counted and dropped. -/
def updateMargin (s : Store) (a : Address) (c : CollateralId) (delta : Amount) :
    Store × List Counter :=
  let t := s.trader a
  let balance := t.margin.deposited.getD c 0
  let (balance, counters) := match balance.add? delta with
    | some sum => (sum, [])
    | none => (balance, [Counter.arithmeticOverflow])
  (s.setTrader a { t with
    margin := { t.margin with deposited := t.margin.deposited.insert c balance } }, counters)

/-- Changes the reserved margin by an amount. A change that leaves the range is counted and
dropped. -/
def updateReserved (s : Store) (a : Address) (delta : Amount) : Store × List Counter :=
  let t := s.trader a
  let (reserved, counters) := match t.margin.reserved.add? delta with
    | some sum => (sum, [])
    | none => (t.margin.reserved, [Counter.arithmeticOverflow])
  (s.setTrader a { t with margin := { t.margin with reserved } }, counters)

/-- A trader whose position in a market owes funding up to a cumulative premium fraction. -/
def accrueFunding (m : MarketId) (cumulative : Amount) (t : Trader) : Checked Trader := do
  match t.positions[m]? with
  | none => return t
  | some p =>
    let funding ← pendingFunding cumulative p.lastPremium p.size
    return { t with positions := t.positions.insert m { p with unrealisedFunding := funding } }

/-- Sets the cumulative premium fraction of a market, and what every position in it owes. -/
def updateFunding (s : Store) (m : MarketId) (cumulative : Amount) : Checked Store := do
  let traders ← s.traders.toList.foldlM (fun traders (a, t) => do
    return traders.insert a (← accrueFunding m cumulative t)) s.traders
  return { s with traders, cumulativePremium := s.cumulativePremium.insert m cumulative }

/-- Settles the funding of a position up to a cumulative premium fraction. -/
def resetFunding (s : Store) (m : MarketId) (a : Address) (cumulative : Amount) : Store :=
  { s with traders := s.traders.modify a fun t =>
      { t with positions := t.positions.modify m fun p =>
        { p with unrealisedFunding := 0, lastPremium := cumulative } } }

def setLastPrice (s : Store) (m : MarketId) (price : Amount) : Store :=
  { s with lastPrice := s.lastPrice.insert m price }

end PerpExchange.Store
