import PerpExchange.Proofs.Funding
import PerpExchange.Proofs.Histories

/-! Updates of the ledgers never stop, and the liquidation threshold of a position they leave behind
is a part of the position. -/
namespace PerpExchange
open Checked

namespace Amount
variable {a b : Amount}

/-- All amounts but the least can be given the sign of another. -/
theorem yields_mul_signum (h : a ≠ least) :
    Yields (a.mul b.signum) fun c => c.toInt = a.toInt * b.toInt.sign := by
  rw [← toInt_signum]
  apply yields_mul
  rw [ne_least_iff] at h
  have hhigh := a.upper
  rw [toInt_signum]
  rcases Int.sign_trichotomy b.toInt with hb | hb | hb <;> rw [hb] <;> constructor <;> omega

end Amount

/-- A threshold that is zero or a part of a size, with its sign. -/
structure ThresholdOf (size threshold : Amount) : Prop where
  natAbs_le : threshold.toInt.natAbs ≤ size.toInt.natAbs
  nonneg : 0 ≤ size.toInt → 0 ≤ threshold.toInt
  nonpos : size.toInt ≤ 0 → threshold.toInt ≤ 0
  ne_least : threshold ≠ Amount.least

/-- The share of a position that may be liquidated is in range, whatever the ratio and the least
size are. -/
theorem yields_liquidationThreshold (maxRatio minSize size : Amount) :
    Yields (liquidationThreshold maxRatio minSize size) fun _ => True := by
  unfold liquidationThreshold
  split
  · exact yields_ok trivial
  · apply (Amount.yields_dropMicro _).bind
    intro share hshare
    have hlow := (size.satAbs.satMul maxRatio).lower
    have hhigh := (size.satAbs.satMul maxRatio).upper
    have hshare := hshare.natAbs_eq
    have hsize := size.toInt_satAbs
    have hne : min (max share minSize) size.satAbs ≠ Amount.least := by
      rw [Amount.ne_least_iff, Amount.toInt_min, Amount.toInt_max]
      omega
    exact (Amount.yields_mul_signum hne).mono fun _ _ => trivial

/-- A magnitude within that of a size, with the sign of the size, is a threshold of it. -/
theorem yields_threshold {threshold size : Amount} :
    Yields ((min threshold.satAbs size.satAbs).mul size.signum) (ThresholdOf size) := by
  have hthreshold := threshold.toInt_satAbs
  have hsize := size.toInt_satAbs
  have hmin := Amount.toInt_min threshold.satAbs size.satAbs
  have hne : min threshold.satAbs size.satAbs ≠ Amount.least := by
    rw [Amount.ne_least_iff]
    omega
  apply (Amount.yields_mul_signum hne).mono
  intro t ht
  have hne : t ≠ Amount.least := by
    rw [Amount.ne_least_iff, ht]
    rcases Int.sign_trichotomy size.toInt with hs | hs | hs <;> rw [hs] <;> omega
  rcases Int.lt_trichotomy size.toInt 0 with hs | hs | hs
  · rw [Int.sign_eq_neg_one_of_neg hs] at ht
    exact ⟨by omega, by omega, by omega, hne⟩
  · rw [hs, Int.sign_zero] at ht
    exact ⟨by omega, by omega, by omega, hne⟩
  · rw [Int.sign_eq_one_of_pos hs] at ht
    exact ⟨by omega, by omega, by omega, hne⟩

theorem yields_thresholdAfter (q : MarketParams) (p : Position) (size : Amount)
    (isLiquidation : Bool) :
    Yields (Store.thresholdAfter q p size isLiquidation) (ThresholdOf size) := by
  unfold Store.thresholdAfter
  simp only
  split
  · rw [pure_eq, ok_bind]
    exact yields_threshold
  · exact (yields_liquidationThreshold _ _ _).bind fun _ _ => yields_threshold

/-- Every position has a threshold of its own size. -/
def Trader.HasThresholds (t : Trader) : Prop :=
  ∀ (m : MarketId) (p : Position), t.positions[m]? = some p →
    ThresholdOf p.size p.liquidationThreshold

def Store.HasThresholds (s : Store) : Prop :=
  ∀ (a : Address) (t : Trader), s.traders[a]? = some t → t.HasThresholds

namespace Trader
variable {t : Trader}

theorem hasThresholds_default : (default : Trader).HasThresholds := by
  intro m p hp
  have hempty : (default : Trader).positions = ∅ := rfl
  rw [hempty, Std.ExtTreeMap.getElem?_empty] at hp
  cases hp

theorem HasThresholds.insert {m : MarketId} {p : Position} (h : t.HasThresholds)
    (hp : ThresholdOf p.size p.liquidationThreshold) :
    { t with positions := t.positions.insert m p }.HasThresholds := by
  intro m' p' hp'
  rw [Map.getElem?_insert_key] at hp'
  split at hp'
  · cases hp'
    exact hp
  · exact h m' p' hp'

theorem HasThresholds.accrue {t' : Trader} {m : MarketId} {cumulative : Amount}
    (h : t.HasThresholds) (ha : t.Accrues m cumulative t') : t'.HasThresholds := by
  cases ha with
  | idle => exact h
  | @owing p funding hp =>
    have hp : ThresholdOf p.size p.liquidationThreshold := h m p hp
    exact h.insert hp

end Trader

namespace Store
variable {s : Store}

theorem trader_setTrader (s : Store) (a a' : Address) (t : Trader) :
    (s.setTrader a t).trader a' = if a = a' then t else s.trader a' := Map.getD_insert_key

theorem hasThresholds_trader (h : s.HasThresholds) (a : Address) : (s.trader a).HasThresholds := by
  rw [trader, Map.getD_of_getElem?]
  cases ht : s.traders[a]? with
  | none => exact Trader.hasThresholds_default
  | some t => exact h a t ht

theorem HasThresholds.setTrader {t : Trader} (h : s.HasThresholds) (a : Address)
    (ht : t.HasThresholds) : (s.setTrader a t).HasThresholds := by
  intro a' t' ht'
  rw [Store.setTrader, Map.getElem?_insert_key] at ht'
  split at ht'
  · cases ht'
    exact ht
  · exact h a' t' ht'

theorem yields_updatePosition (s : Store) (params : ProtocolParams) (a : Address) (m : MarketId)
    (size openNotional : Amount) (isLiquidation : Bool) :
    Yields (s.updatePosition params a m size openNotional isLiquidation) fun s' =>
      s.HasThresholds → s'.HasThresholds := by
  apply (yields_thresholdAfter _ _ size isLiquidation).bind
  intro threshold hthreshold
  exact yields_ok fun h => h.setTrader a ((hasThresholds_trader h a).insert hthreshold)

theorem yields_updateFunding (s : Store) (m : MarketId) (cumulative : Amount) :
    Yields (s.updateFunding m cumulative) fun s' => s.HasThresholds → s'.HasThresholds := by
  apply (s.yields_updateFunding_accrues m cumulative).mono
  intro s' haccrues h a t' ht'
  have ht : s'.trader a = t' := by rw [trader, Map.getD_of_getElem?, ht', Option.getD_some]
  exact ht ▸ (hasThresholds_trader h a).accrue (haccrues a)

theorem HasThresholds.resetFunding (h : s.HasThresholds) (m : MarketId) (a : Address)
    (cumulative : Amount) : (s.resetFunding m a cumulative).HasThresholds := by
  intro a' t' ht'
  rw [Store.resetFunding, Map.getElem?_modify_key] at ht'
  split at ht'
  next =>
    obtain ⟨t, ht, rfl⟩ := Option.map_eq_some_iff.mp ht'
    intro m' p' hp'
    rw [Map.getElem?_modify_key] at hp'
    split at hp'
    next =>
      obtain ⟨p, hp, rfl⟩ := Option.map_eq_some_iff.mp hp'
      exact h a' t ht m' p hp
    next => exact h a' t ht m' p' hp'
  next => exact h a' t' ht'

theorem HasThresholds.updateMargin (h : s.HasThresholds) (a : Address) (c : CollateralId)
    (delta : Amount) : (s.updateMargin a c delta).1.HasThresholds :=
  h.setTrader a (hasThresholds_trader h a)

theorem HasThresholds.updateReserved (h : s.HasThresholds) (a : Address) (delta : Amount) :
    (s.updateReserved a delta).1.HasThresholds := h.setTrader a (hasThresholds_trader h a)

theorem yields_applyClearingHouse (s : Store) (params : ProtocolParams) (e : ClearingHouseEvent) :
    Yields (s.applyClearingHouse params e) fun s' => s.HasThresholds → s'.HasThresholds := by
  cases e with
  | fundingRateUpdated market premium price cumulative next time =>
    exact (s.yields_updateFunding market cumulative).bind fun s' hkeep => yields_ok hkeep
  | fundingPaid trader market payment cumulative =>
    exact yields_ok fun h => h.resetFunding market trader cumulative
  | positionModified c =>
    exact (s.setLastPrice c.market c.price).yields_updatePosition params ..
  | positionLiquidated c =>
    exact (s.setLastPrice c.market c.price).yields_updatePosition params ..
  | premiumSampled premium next => exact yields_ok id
  | premiumSampleSkipped next => exact yields_ok id

theorem HasThresholds.applyMarginAccount (h : s.HasThresholds) (e : MarginAccountEvent) (l : Log) :
    (s.applyMarginAccount e l).1.HasThresholds := by
  have hmargin : ∀ a c negate amount, (s.changeMargin a c negate amount).1.HasThresholds := by
    intro a c negate amount
    unfold changeMargin
    split
    · exact h
    · exact h.updateMargin a c _
  have hreserved : ∀ a negate amount, (s.changeReserved a negate amount).1.HasThresholds := by
    intro a negate amount
    unfold changeReserved
    split
    · exact h
    · exact h.updateReserved a _
  cases e with
  | marginAdded trader collateral amount time => exact hmargin _ _ _ _
  | marginRemoved trader collateral amount time => exact hmargin _ _ _ _
  | marginReserved trader amount => exact hreserved _ _ _
  | marginReleased trader amount => exact hreserved _ _ _
  | pnlRealized trader pnl time => exact hmargin _ _ _ _

/-- An accepted event is applied to its end. -/
theorem yields_applyAccepted (s : Store) (params : ProtocolParams) (e : ContractEvent) (l : Log) :
    Yields (s.applyAccepted params e l) fun r => s.HasThresholds → r.1.HasThresholds := by
  cases e with
  | orderBook e => exact yields_ok id
  | iocOrderBook e => exact yields_ok id
  | marginAccount e => exact yields_ok fun h => h.applyMarginAccount e l
  | clearingHouse e =>
    simp only [applyAccepted]
    split
    · exact yields_ok id
    · exact (s.yields_applyClearingHouse params e).bind fun s' hkeep => yields_ok hkeep

end Store

namespace Intake
variable (contracts : ContractAddresses) (params : ProtocolParams) (replaying : Bool)

theorem yields_acceptedLog (i : Intake) (l : Log) :
    Yields (acceptedLog contracts params replaying i l) fun i' =>
      i.store.HasThresholds → i'.store.HasThresholds := by
  unfold acceptedLog
  split
  · exact yields_ok id
  next e he =>
    apply (i.store.yields_applyAccepted params e l).bind
    rintro ⟨s', counters⟩ hkeep
    refine yields_ok fun h => ?_
    rw [store_publish, store_count]
    exact hkeep h

/-- A batch of logs is taken to its end, whatever they carry. -/
theorem yields_acceptedLogs (i : Intake) (logs : List Log) :
    Yields (i.acceptedLogs contracts params logs replaying) fun i' =>
      i.store.HasThresholds → i'.store.HasThresholds := by
  apply yields_foldlM
  · intro i' l _ hkeep
    exact (yields_acceptedLog contracts params replaying i' l).mono fun _ hl h => hl (hkeep h)
  · exact id

end Intake

namespace Store
variable {s : Store}

/-- In every store the chain leads to, every position has a threshold of its own size. -/
theorem Ingested.hasThresholds (h : s.Ingested) : s.HasThresholds := by
  induction h with
  | empty =>
    intro a t ht
    have hempty : Store.empty.traders = ∅ := rfl
    rw [hempty, Std.ExtTreeMap.getElem?_empty] at ht
    cases ht
  | @head i h contracts logs ih =>
    intro a t ht
    rw [(i.headLogs_reorders contracts logs).traders_eq] at ht
    exact ih a t ht
  | @accepted i i' contracts params logs replaying h hi ih =>
    obtain ⟨i'', hi', hkeep⟩ := i.yields_acceptedLogs contracts params replaying logs
    rw [hi] at hi'
    cases hi'
    exact hkeep ih
  | @accept s h block time ih =>
    intro a t ht
    have htraders : (s.accept block time).1.traders = s.traders :=
      (s.deleteAll_reorders _).traders_eq
    rw [htraders] at ht
    exact ih a t ht

end Store
end PerpExchange
