import PerpExchange.Proofs.HeadEffect

/-! What logs of accepted blocks do to a store: they change its ledgers by what the ledgers hold,
and neither read nor touch the orders. -/
namespace PerpExchange

namespace Store

/-- The orders of one store with the ledgers of another. -/
def withLedgersOf (t s : Store) : Store :=
  { s with orders := t.orders, books := t.books, lastAcceptedBlock := t.lastAcceptedBlock }

@[simp] theorem withLedgersOf_self (s : Store) : s.withLedgersOf s = s := rfl

variable (t s : Store)

theorem updateMargin_withLedgersOf (a : Address) (c : CollateralId) (delta : Amount) :
    (t.withLedgersOf s).updateMargin a c delta =
      (t.withLedgersOf (s.updateMargin a c delta).1, (s.updateMargin a c delta).2) := by
  have htrader : (t.withLedgersOf s).trader a = s.trader a := rfl
  unfold updateMargin
  rw [htrader]
  simp only
  split <;> rfl

theorem updateReserved_withLedgersOf (a : Address) (delta : Amount) :
    (t.withLedgersOf s).updateReserved a delta =
      (t.withLedgersOf (s.updateReserved a delta).1, (s.updateReserved a delta).2) := by
  have htrader : (t.withLedgersOf s).trader a = s.trader a := rfl
  unfold updateReserved
  rw [htrader]
  simp only
  split <;> rfl

theorem applyMarginAccount_withLedgersOf (e : MarginAccountEvent) (l : Log) :
    (t.withLedgersOf s).applyMarginAccount e l =
      (t.withLedgersOf (s.applyMarginAccount e l).1, (s.applyMarginAccount e l).2) := by
  have hmargin : ∀ a c negate amount, (t.withLedgersOf s).changeMargin a c negate amount =
      (t.withLedgersOf (s.changeMargin a c negate amount).1,
        (s.changeMargin a c negate amount).2) := by
    intro a c negate amount
    unfold changeMargin
    split
    · rfl
    · exact updateMargin_withLedgersOf t s a c _
  have hreserved : ∀ a negate amount, (t.withLedgersOf s).changeReserved a negate amount =
      (t.withLedgersOf (s.changeReserved a negate amount).1,
        (s.changeReserved a negate amount).2) := by
    intro a negate amount
    unfold changeReserved
    split
    · rfl
    · exact updateReserved_withLedgersOf t s a _
  cases e with
  | marginAdded trader collateral amount time => exact hmargin ..
  | marginRemoved trader collateral amount time => exact hmargin ..
  | marginReserved trader amount => exact hreserved ..
  | marginReleased trader amount => exact hreserved ..
  | pnlRealized trader pnl time => exact hmargin ..

theorem updatePosition_withLedgersOf (params : ProtocolParams) (a : Address) (m : MarketId)
    (size openNotional : Amount) (isLiquidation : Bool) :
    (t.withLedgersOf s).updatePosition params a m size openNotional isLiquidation =
      (s.updatePosition params a m size openNotional isLiquidation).map (t.withLedgersOf ·) := by
  have htrader : (t.withLedgersOf s).trader a = s.trader a := rfl
  have hpremium : (t.withLedgersOf s).cumulativePremiumOf m = s.cumulativePremiumOf m := rfl
  unfold updatePosition
  rw [htrader, hpremium]
  simp only
  cases thresholdAfter (params.market m) (resize ((s.trader a).positions.getD m default)
    (s.cumulativePremiumOf m) size openNotional) size isLiquidation <;> rfl

theorem updateFunding_withLedgersOf (m : MarketId) (cumulative : Amount) :
    (t.withLedgersOf s).updateFunding m cumulative =
      (s.updateFunding m cumulative).map (t.withLedgersOf ·) := by
  have htraders : (t.withLedgersOf s).traders = s.traders := rfl
  unfold updateFunding
  rw [htraders]
  cases s.traders.toList.foldlM (fun traders x => do
    return traders.insert x.1 (← accrueFunding m cumulative x.2)) s.traders <;> rfl

theorem applyClearingHouse_withLedgersOf (params : ProtocolParams) (e : ClearingHouseEvent) :
    (t.withLedgersOf s).applyClearingHouse params e =
      (s.applyClearingHouse params e).map (t.withLedgersOf ·) := by
  cases e with
  | fundingRateUpdated market premium price cumulative next time =>
    unfold applyClearingHouse
    simp only [updateFunding_withLedgersOf]
    cases s.updateFunding market cumulative <;> rfl
  | fundingPaid trader market payment cumulative => rfl
  | positionModified c =>
    exact updatePosition_withLedgersOf t (s.setLastPrice c.market c.price) params ..
  | positionLiquidated c =>
    exact updatePosition_withLedgersOf t (s.setLastPrice c.market c.price) params ..
  | premiumSampled premium next => rfl
  | premiumSampleSkipped next => rfl

/-- What an accepted event does is settled by the ledgers. -/
theorem applyAccepted_withLedgersOf (params : ProtocolParams) (e : ContractEvent) (l : Log) :
    (t.withLedgersOf s).applyAccepted params e l =
      (s.applyAccepted params e l).map fun r => (t.withLedgersOf r.1, r.2) := by
  cases e with
  | orderBook e => rfl
  | iocOrderBook e => rfl
  | marginAccount e =>
    simp only [applyAccepted, applyMarginAccount_withLedgersOf]
    rfl
  | clearingHouse e =>
    simp only [applyAccepted, applyClearingHouse_withLedgersOf]
    split
    · rfl
    · cases s.applyClearingHouse params e <;> rfl

/-- A store after a log of an accepted block. -/
def afterAccepted (contracts : ContractAddresses) (params : ProtocolParams) (s : Store) (l : Log) :
    Checked Store :=
  match readLog contracts l fun _ => true with
  | .error _ => .ok s
  | .ok e => (s.applyAccepted params e l).map Prod.fst

variable (contracts : ContractAddresses) (params : ProtocolParams)

theorem afterAccepted_withLedgersOf (l : Log) :
    (t.withLedgersOf s).afterAccepted contracts params l =
      (s.afterAccepted contracts params l).map (t.withLedgersOf ·) := by
  unfold afterAccepted
  cases readLog contracts l fun _ => true with
  | error counters => rfl
  | ok e =>
    simp only [applyAccepted_withLedgersOf]
    cases s.applyAccepted params e l <;> rfl

theorem foldlM_afterAccepted_withLedgersOf (logs : List Log) :
    logs.foldlM (afterAccepted contracts params) (t.withLedgersOf s) =
      (logs.foldlM (afterAccepted contracts params) s).map (t.withLedgersOf ·) := by
  induction logs generalizing s with
  | nil => rfl
  | cons l logs ih =>
    rw [List.foldlM_cons, List.foldlM_cons, afterAccepted_withLedgersOf]
    cases s.afterAccepted contracts params l with
    | error f => rfl
    | ok s' => exact ih s'

end Store

namespace Intake
variable (contracts : ContractAddresses) (params : ProtocolParams)

theorem store_acceptedLog (i : Intake) (replaying : Bool) (l : Log) :
    (acceptedLog contracts params replaying i l).map Intake.store =
      i.store.afterAccepted contracts params l := by
  unfold acceptedLog Store.afterAccepted
  cases readLog contracts l fun _ => true with
  | error counters => rfl
  | ok e =>
    simp only
    cases i.store.applyAccepted params e l with
    | error f => rfl
    | ok r => exact congrArg Except.ok (store_publish ..)

/-- What logs of accepted blocks make of the store does not depend on the metrics, the feeds, or
whether they are replayed. -/
theorem store_acceptedLogs (i : Intake) (logs : List Log) (replaying : Bool) :
    (i.acceptedLogs contracts params logs replaying).map Intake.store =
      (logs.mergeSort Log.before).foldlM (Store.afterAccepted contracts params) i.store := by
  unfold acceptedLogs
  induction logs.mergeSort Log.before generalizing i with
  | nil => rfl
  | cons l logs ih =>
    rw [List.foldlM_cons, List.foldlM_cons, ← store_acceptedLog contracts params i replaying]
    cases acceptedLog contracts params replaying i l with
    | error f => rfl
    | ok i' => exact ih i'

end Intake
end PerpExchange
