import PerpExchange.Proofs.Positions

/-! What every position of a store is like after operations on its ledgers, in any sequence. -/
namespace PerpExchange
open Checked

/-- An operation on the ledgers of a store. A position is changed under the parameters of the
moment. -/
inductive LedgerOperation where
  | changePosition (params : ProtocolParams) (a : Address) (m : MarketId)
    (size openNotional : Amount) (isLiquidation : Bool)
  | accrueFunding (m : MarketId) (cumulative : Amount)
  | settleFunding (m : MarketId) (a : Address) (cumulative : Amount)
  | changeMargin (a : Address) (c : CollateralId) (delta : Amount)
  | changeReserved (a : Address) (delta : Amount)

theorem pendingFunding_of_flat (cumulative last : Amount) :
    pendingFunding cumulative last 0 = .ok 0 := by
  have hproduct : (cumulative.satSub last).satMul 0 = 0 := by
    rw [Amount.satMul, Amount.toInt_zero, Int.mul_zero]
    rfl
  unfold pendingFunding
  rw [hproduct]
  decide

namespace Position
variable {p q : Position}

/-- What an operation can make of a position. -/
inductive Touched (p : Position) : Position → Prop
  | kept : Touched p p
  | changed {params : MarketParams} {cumulative size openNotional threshold : Amount}
    {isLiquidation : Bool}
    (h : Store.thresholdAfter params (Store.resize p cumulative size openNotional) size
      isLiquidation = .ok threshold) :
    Touched p { Store.resize p cumulative size openNotional with
      liquidationThreshold := threshold }
  | accrued {cumulative funding : Amount}
    (h : pendingFunding cumulative p.lastPremium p.size = .ok funding) :
    Touched p { p with unrealisedFunding := funding }
  | settled (cumulative : Amount) :
    Touched p { p with unrealisedFunding := 0, lastPremium := cumulative }

/-- A position that owes no funding once it is closed, and of which a part may be liquidated. -/
structure Consistent (p : Position) : Prop where
  closed : p.size = 0 → p.unrealisedFunding = 0
  threshold : ThresholdOf p.size p.liquidationThreshold

theorem consistent_default : (default : Position).Consistent :=
  ⟨fun _ => rfl, ⟨Nat.le_refl 0, fun h => h, fun h => h, by decide⟩⟩

theorem Touched.consistent (h : p.Touched q) (hp : p.Consistent) : q.Consistent := by
  cases h with
  | kept => exact hp
  | @changed params cumulative size openNotional threshold isLiquidation h =>
    obtain ⟨threshold', h', ht⟩ := yields_thresholdAfter params
      (Store.resize p cumulative size openNotional) size isLiquidation
    rw [h] at h'
    cases h'
    exact ⟨fun hsize => if_pos (.inr hsize), ht⟩
  | @accrued cumulative funding h =>
    refine ⟨fun hsize => ?_, hp.threshold⟩
    have hsize : p.size = 0 := hsize
    rw [hsize, pendingFunding_of_flat] at h
    exact (Except.ok.inj h).symm
  | settled cumulative => exact ⟨fun _ => rfl, hp.threshold⟩

/-- What may be liquidated of a consistent position is nothing or goes the way of the position. -/
theorem Consistent.threshold_eq_zero_or (h : p.Consistent) :
    p.liquidationThreshold = 0 ∨ p.liquidationThreshold.signum = p.size.signum := by
  have hle := h.threshold.natAbs_le
  have hnonneg := h.threshold.nonneg
  have hnonpos := h.threshold.nonpos
  rw [Amount.eq_iff, Amount.toInt_zero, Amount.signum_eq_iff]
  omega

theorem Consistent.of_closed (h : p.Consistent) (hsize : p.size = 0) :
    p.unrealisedFunding = 0 ∧ p.liquidationThreshold = 0 := by
  refine ⟨h.closed hsize, ?_⟩
  have hle := h.threshold.natAbs_le
  rw [hsize, Amount.toInt_zero] at hle
  rw [Amount.eq_iff, Amount.toInt_zero]
  omega

end Position

/-- The position of a trader in a market, which is flat if there never was one. -/
def Trader.position (t : Trader) (m : MarketId) : Position := t.positions.getD m default

namespace Store
variable {s s' : Store}

def position (s : Store) (a : Address) (m : MarketId) : Position := (s.trader a).position m

/-- The store after an operation. One that leaves the range of a margin does nothing. -/
def operateLedger (s : Store) : LedgerOperation → Checked Store
  | .changePosition params a m size openNotional isLiquidation =>
    s.updatePosition params a m size openNotional isLiquidation
  | .accrueFunding m cumulative => s.updateFunding m cumulative
  | .settleFunding m a cumulative => .ok (s.resetFunding m a cumulative)
  | .changeMargin a c delta => .ok (s.updateMargin a c delta).1
  | .changeReserved a delta => .ok (s.updateReserved a delta).1

/-- Each position of the second store is what an operation can make of the one of the first. -/
def Touches (s s' : Store) : Prop := ∀ a m, (s.position a m).Touched (s'.position a m)

theorem Touches.setTrader {t : Trader} (h : s.Touches s') (a : Address)
    (ht : ∀ m, (s.position a m).Touched (t.position m)) : s.Touches (s'.setTrader a t) := by
  intro a' m
  rw [position.eq_def (s'.setTrader a t), trader_setTrader]
  split
  next ha => exact ha ▸ ht m
  next => exact h a' m

theorem touched_insert {t : Trader} {m : MarketId} {p : Position} (hp : (t.position m).Touched p)
    (m' : MarketId) :
    (t.position m').Touched ({ t with positions := t.positions.insert m p }.position m') := by
  rw [Trader.position, Trader.position, Map.getD_insert_key]
  split
  next hm => exact hm ▸ hp
  next => exact .kept

theorem yields_updatePosition_touches (s : Store) (params : ProtocolParams) (a : Address)
    (m : MarketId) (size openNotional : Amount) (isLiquidation : Bool) :
    Yields (s.updatePosition params a m size openNotional isLiquidation) s.Touches := by
  obtain ⟨threshold, h, -⟩ := yields_thresholdAfter (params.market m)
    (resize (s.position a m) (s.cumulativePremiumOf m) size openNotional) size isLiquidation
  refine ⟨_, Checked.bind_eq_ok.mpr ⟨threshold, h, rfl⟩, ?_⟩
  exact Touches.setTrader (fun _ _ => .kept) a (touched_insert (.changed h))

theorem touched_of_accrues {t t' : Trader} {m : MarketId} {cumulative : Amount}
    (h : t.Accrues m cumulative t') (m' : MarketId) :
    (t.position m').Touched (t'.position m') := by
  cases h with
  | idle => exact .kept
  | owing hp h =>
    refine touched_insert ?_ m'
    rw [Trader.position, Map.getD_of_getElem?, hp]
    exact .accrued h

theorem yields_updateFunding_touches (s : Store) (m : MarketId) (cumulative : Amount) :
    Yields (s.updateFunding m cumulative) s.Touches := by
  apply (s.yields_updateFunding_accrues m cumulative).mono
  intro s' haccrues a
  exact touched_of_accrues (haccrues a)

theorem resetFunding_touches (s : Store) (m : MarketId) (a : Address) (cumulative : Amount) :
    s.Touches (s.resetFunding m a cumulative) := by
  have hpositions : ∀ (t : Trader) (m' : MarketId), (t.position m').Touched
      ({ t with positions := t.positions.modify m fun p =>
        { p with unrealisedFunding := 0, lastPremium := cumulative } }.position m') := by
    intro t m'
    simp only [Trader.position, Map.getD_of_getElem?, Map.getElem?_modify_key]
    split
    next =>
      cases t.positions[m']? with
      | none => exact .kept
      | some p => exact .settled cumulative
    next => exact .kept
  intro a' m'
  simp only [position, trader, resetFunding, Map.getD_of_getElem?, Map.getElem?_modify_key]
  split
  next =>
    cases s.traders[a']? with
    | none => exact .kept
    | some t => exact hpositions t m'
  next => exact .kept

/-- An operation answers, and touches each position in one of the ways there are. -/
theorem yields_operateLedger (s : Store) (x : LedgerOperation) :
    Yields (s.operateLedger x) s.Touches := by
  cases x with
  | changePosition params a m size openNotional isLiquidation =>
    exact s.yields_updatePosition_touches params a m size openNotional isLiquidation
  | accrueFunding m cumulative => exact s.yields_updateFunding_touches m cumulative
  | settleFunding m a cumulative => exact yields_ok (s.resetFunding_touches m a cumulative)
  | changeMargin a c delta =>
    exact yields_ok (Touches.setTrader (fun _ _ => .kept) a fun _ => .kept)
  | changeReserved a delta =>
    exact yields_ok (Touches.setTrader (fun _ _ => .kept) a fun _ => .kept)

/-- Every position of a store is consistent. -/
def AllConsistent (s : Store) : Prop := ∀ a m, (s.position a m).Consistent

theorem allConsistent_empty : empty.AllConsistent := by
  intro a m
  have htrader : empty.trader a = default := Std.ExtTreeMap.getD_empty
  rw [position, htrader, Trader.position]
  exact Position.consistent_default

theorem yields_ledgerOperations (h : s.AllConsistent) (ops : List LedgerOperation) :
    Yields (ops.foldlM operateLedger s) AllConsistent :=
  yields_foldlM (fun s x _ hs => (s.yields_operateLedger x).mono fun _ ht a m =>
    (ht a m).consistent (hs a m)) h

/-- Whatever is done to the ledgers of a store that began empty, in any sequence and under any
parameters, is done to its end. It leaves closed positions that owe nothing and of which nothing
may be liquidated, and of any position no more may be liquidated than there is, on its own side. -/
theorem consistent_of_ledgerOperations (ops : List LedgerOperation) :
    ∃ s, ops.foldlM operateLedger empty = .ok s ∧
      ∀ (a : Address) (t : Trader) (m : MarketId) (p : Position),
        s.traders[a]? = some t → t.positions[m]? = some p →
          (p.size = 0 → p.unrealisedFunding = 0 ∧ p.liquidationThreshold = 0) ∧
          (p.liquidationThreshold = 0 ∨ p.liquidationThreshold.signum = p.size.signum) ∧
          p.liquidationThreshold.toInt.natAbs ≤ p.size.toInt.natAbs := by
  obtain ⟨s, hs, hall⟩ := yields_ledgerOperations allConsistent_empty ops
  refine ⟨s, hs, fun a t m p ht hp => ?_⟩
  have hp : s.position a m = p := by
    rw [position, trader, Trader.position, Map.getD_of_getElem?, Map.getD_of_getElem?, ht,
      Option.getD_some, hp, Option.getD_some]
  have hconsistent := hall a m
  rw [hp] at hconsistent
  exact ⟨hconsistent.of_closed, hconsistent.threshold_eq_zero_or, hconsistent.threshold.natAbs_le⟩

/-- A long is liquidated to a short and closed, with funding in between. Then, under other
parameters, it becomes the greatest short there can be. -/
def busyLedger : List LedgerOperation :=
  let sparing := ProtocolParams.adjustMarket default 0 fun q =>
    { q with maxLiquidationRatio := 0, minSizeRequirement := 5 }
  [.changePosition default default 0 8 40 false, .accrueFunding 0 3000000000000000000,
    .changePosition default default 0 (.clamp (-1)) 5 true, .accrueFunding 0 1000000000000000000,
    .settleFunding 0 default 1000000000000000000, .changePosition default default 0 0 0 true,
    .accrueFunding 0 5000000000000000000, .changeMargin default 0 Amount.greatest,
    .changeMargin default 0 1, .changeReserved default (.clamp (-7)),
    .changePosition sparing default 0 Amount.least 9 false, .accrueFunding 0 6000000000000000000]

theorem consistent_after_busyLedger : ∃ s t p, busyLedger.foldlM operateLedger empty = .ok s ∧
    s.traders[(default : Address)]? = some t ∧ t.positions[(0 : MarketId)]? = some p ∧
    (p.size, p.unrealisedFunding.toInt, p.liquidationThreshold.toInt) =
      (Amount.least, -170141183460469231731, -5) ∧
    p.liquidationThreshold.signum = p.size.signum ∧
    p.liquidationThreshold.toInt.natAbs ≤ p.size.toInt.natAbs := by
  obtain ⟨s, hs, hall⟩ := consistent_of_ledgerOperations busyLedger
  have hrun : (match busyLedger.foldlM operateLedger empty with
    | .ok s => (s.traders[(default : Address)]?).bind fun t =>
      (t.positions[(0 : MarketId)]?).map fun p =>
        (p.size, p.unrealisedFunding.toInt, p.liquidationThreshold.toInt)
    | .error _ => none) = some (Amount.least, -170141183460469231731, -5) := by decide +kernel
  simp only [hs] at hrun
  obtain ⟨t, ht, hrun⟩ := Option.bind_eq_some_iff.mp hrun
  obtain ⟨p, hp, hfields⟩ := Option.map_eq_some_iff.mp hrun
  obtain ⟨-, hsign, hle⟩ := hall default t 0 p ht hp
  refine ⟨s, t, p, hs, ht, hp, hfields, hsign.resolve_left fun h0 => ?_, hle⟩
  rw [h0] at hfields
  cases (Prod.mk.inj (Prod.mk.inj hfields).2).2

end Store
end PerpExchange
