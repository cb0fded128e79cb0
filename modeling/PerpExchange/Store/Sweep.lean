import PerpExchange.Matching.Liquidation
import PerpExchange.Sorting
import PerpExchange.Store.Basic

/-!
The sweep over all traders before a run: whose positions are to be liquidated, and whose orders are
to be cancelled because they need more margin than there is.
-/

namespace PerpExchange

/-- What a sweep finds. Positions come with the lowest margin fraction first. -/
structure SweepResult where
  liquidable : List LiquidablePosition
  ordersToCancel : Map Address (List Order)
  availableMargin : Map Address Amount

namespace Store

/-- The orders of a trader that may be cancelled to free margin. -/
def cancellable (s : Store) (a : Address) : List Order :=
  s.orders.values.filter fun o =>
    o.trader = a && o.kind = .limit && !o.reduceOnly && o.hasStatus .placed

/-- How far the price of an order is from the oracle price. -/
def oracleDistance (r : RiskState) (o : Order) : Checked Amount := do
  (← o.price.sub (r.oraclePrice o.market)).abs

/-- Whether an order is farther from the oracle price than another, or as far with the lesser id. -/
def isFarther (r : RiskState) (o p : Order) : Bool :=
  let distance (q : Order) : Amount := (oracleDistance r q).toOption.getD 0
  ((compare (distance p) (distance o)).then (compare o.id p.id)).isLT

/-- Orders with the farthest from the oracle price first, and of those equally far the least id.
Each is measured when it is first inspected, and not at all if it stands alone. -/
def farthestFirst (r : RiskState) (orders : List Order) : Checked (List Order) := do
  let _ ← (Sorting.inspected (isFarther r) orders).mapM (oracleDistance r)
  return orders.mergeSort fun o p => !isFarther r p o

/-- Takes orders from the front until the margin they free covers a deficit. -/
def coverDeficit (r : RiskState) (available : Amount) : List Order → Checked (List Order)
  | [] => return []
  | o :: rest => do
    if 0 ≤ available then return []
    let freed ← orderMargin o.price (← o.unfilled) r.minAllowableMargin
    return o :: (← coverDeficit r (← available.add freed) rest)

def selectCancellations (s : Store) (r : RiskState) (a : Address) (available : Amount) :
    Checked (List Order) := do
  coverDeficit r available (← farthestFirst r (s.cancellable a))

/-- The positions of a trader that may be liquidated, in order of markets. -/
def liquidablePositions (a : Address) (t : Trader) (marginFraction : Amount) :
    Checked (List LiquidablePosition) :=
  (t.positions.toList.filter fun (_, p) => p.liquidationThreshold ≠ 0).mapM fun (m, p) => do
    return ⟨a, m, Side.of p.size, ← p.liquidationThreshold.abs, marginFraction, 0⟩

/-- Looks at one trader. -/
def sweepTrader (s : Store) (r : RiskState) (found : SweepResult) (a : Address) (t : Trader) :
    Checked SweepResult := do
  let user := RiskUser.ofTrader t r.collaterals.length
  let fraction ← marginFraction r user
  let available ← availableMargin r user
  let found := { found with availableMargin := found.availableMargin.insert a available }
  if fraction < r.maintenanceMargin then
    let positions ← liquidablePositions a t fraction
    return { found with liquidable := found.liquidable ++ positions }
  else if available < 0 then
    match ← s.selectCancellations r a available with
    | [] => return found
    | orders => return { found with ordersToCancel := found.ordersToCancel.insert a orders }
  else return found

/-- Which of two positions is liquidated first. -/
def liquidationOrder (p q : LiquidablePosition) : Ordering :=
  ((compare p.marginFraction q.marginFraction).then (compare p.trader q.trader)).then
    (compare p.market q.market)

/-- Looks at all traders, in order of their addresses. -/
def sweep (s : Store) (r : RiskState) : Checked SweepResult := do
  let found ← s.traders.toList.foldlM (fun found (a, t) => s.sweepTrader r found a t) ⟨[], ∅, ∅⟩
  return { found with
    liquidable := found.liquidable.mergeSort fun p q => (liquidationOrder p q).isLE }

end Store

end PerpExchange
