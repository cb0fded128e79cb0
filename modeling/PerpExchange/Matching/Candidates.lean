import PerpExchange.Matching.Crossing
import PerpExchange.Store.Eligible

/-!
The orders of a market that take part in a run: those that may trade, that are not being cancelled,
and whose price can still be of use. A short is of use up to the price at which it meets the best
long or absorbs a liquidation.
-/

namespace PerpExchange.Store

/-- Orders without those that are being cancelled. -/
def withoutCancelled (cancelled : List Hash) (orders : List Order) : List Order :=
  orders.filter fun o => o.id ∉ cancelled

/-- The orders of one side that take part in a run, up to a bound on their price. -/
def candidates (s : Store) (m : MarketId) (side : Side) (bound : Amount) (block : BlockNumber)
    (now : Timestamp) (cancelled : List Hash) : Checked (List Order) := do
  return withoutCancelled cancelled (← s.eligibleOrders m side (some bound) (some block) now)

/-- The highest price at which a short of a market is of use. -/
def shortBound (config : Configuration) (m : MarketId) (longs : List Order) : Amount :=
  let liquidation := config.liquidationBounds m
  match longs.head? with
  | some best => min (max best.price liquidation.upper) (config.acceptableBounds m).upper
  | none => liquidation.upper

def workingBook (s : Store) (config : Configuration) (m : MarketId) (block : BlockNumber)
    (now : Timestamp) (cancelled : List Hash) : Checked WorkingBook := do
  let longs ← s.candidates m .long (config.acceptableBounds m).lower block now cancelled
  let shorts ← s.candidates m .short (shortBound config m longs) block now cancelled
  return ⟨longs, shorts⟩

/-- The working books of all active markets. -/
def workingBooks (s : Store) (config : Configuration) (block : BlockNumber) (now : Timestamp)
    (cancelled : List Hash) : Checked (Map MarketId WorkingBook) :=
  config.activeMarkets.foldlM (fun books m => do
    return books.insert m (← s.workingBook config m block now cancelled)) ∅

end PerpExchange.Store
