import PerpExchange.Proofs.Eligibility
import PerpExchange.Proofs.LoopCompletion

/-! A run comes to its end on every store the chain leads to that leaves room for what a run computes
from it: the blocks a failed order sits out, the magnitudes of sizes, and the sums of a valuation. -/
namespace PerpExchange
open Checked

/-- Prices and rates between zero and a whole unit, and decimals that have a power of ten. -/
structure ProtocolParams.InScale (p : ProtocolParams) : Prop where
  oracle : ∀ (m : MarketId) (q : MarketParams), p.markets[m]? = some q →
    0 ≤ q.oraclePrice.toInt ∧ q.oraclePrice.toInt ≤ 1000000000000000000
  mid : ∀ (m : MarketId) (q : MarketParams), p.markets[m]? = some q →
    0 ≤ q.midPrice.toInt ∧ q.midPrice.toInt ≤ 1000000000000000000
  minAllowable_nonneg : 0 ≤ p.minAllowableMargin.toInt
  takerFee_nonneg : 0 ≤ p.takerFee.toInt
  rates_le : p.minAllowableMargin.toInt + p.takerFee.toInt ≤ 1000000000000000000
  decimals : ∀ c ∈ p.collaterals, c.decimals ≤ 18

instance (p : ProtocolParams) : Decidable p.InScale :=
  decidable_of_iff (_ ∧ _ ∧ _ ∧ _ ∧ _ ∧ _)
    ⟨fun h => ⟨h.1, h.2.1, h.2.2.1, h.2.2.2.1, h.2.2.2.2.1, h.2.2.2.2.2⟩,
      fun h => ⟨h.1, h.2, h.3, h.4, h.5, h.6⟩⟩

namespace ProtocolParams
variable {p : ProtocolParams}

theorem InScale.bounded (h : p.InScale) : (RiskState.ofParams p).Bounded := by
  have horacle : ∀ m, 0 ≤ ((RiskState.ofParams p).oraclePrice m).toInt ∧
      ((RiskState.ofParams p).oraclePrice m).toInt ≤ 1000000000000000000 := by
    intro m
    rw [RiskState.oraclePrice, RiskState.ofParams, Map.getD_of_getElem?,
      Std.ExtTreeMap.getElem?_map]
    cases hq : p.markets[m]? with
    | none => exact ⟨by decide, by decide⟩
    | some q => exact h.oracle m q hq
  refine ⟨horacle, fun m => ?_, h.minAllowable_nonneg, h.decimals⟩
  unfold RiskState.midPrice
  split
  next price hprice =>
    split
    · rw [RiskState.ofParams, Std.ExtTreeMap.getElem?_map] at hprice
      obtain ⟨q, hq, rfl⟩ := Option.map_eq_some_iff.mp hprice
      exact h.mid m q hq
    · exact horacle m
  next => exact horacle m

theorem InScale.chargeable (h : p.InScale) :
    MarginTerms.Chargeable ⟨p.minAllowableMargin, p.takerFee⟩ :=
  ⟨h.minAllowable_nonneg, h.takerFee_nonneg, h.rates_le⟩

end ProtocolParams

namespace Store
variable {s : Store} {r : RiskState} {m : MarketId} {side : Side} {block : BlockNumber}
  {now : Timestamp} {o : Order}

theorem positionSize_ne_least (h : s.Moderate r) (a : Address) (m : MarketId) :
    s.positionSize a m ≠ Amount.least := by
  unfold positionSize
  split
  next t ht =>
    split
    next p hp => exact (h.traders a t ht).sizes m p hp
    next => decide
  next => decide

/-- Cutting an order down to a position leaves an order that can be filled. -/
theorem Copies.fillable {w : Order} (h : s.Copies o w) (ho : o.Fillable) :
    w.Fillable ∧ w.side = o.side := by
  by_cases hr : o.reduceOnly = true
  · have hcut := h.cut hr
    have hsize : w.size = o.size := by rw [hcut.copy]
    have hside : w.side = o.side := by rw [hcut.copy]
    obtain ⟨hlong, hshort⟩ := hcut.between
    rw [hsize] at hlong hshort
    refine ⟨⟨Order.inBounds_iff.mpr ?_, hsize ▸ ho.size⟩, hside⟩
    rw [hside, hsize]
    rcases Order.inBounds_iff.mp ho.inBounds with ⟨hs, h0, hle⟩ | ⟨hs, hz, h0, hle⟩
    · exact .inl ⟨hs, by omega, by omega⟩
    · exact .inr ⟨hs, hz, by omega, by omega⟩
  · obtain rfl := h.whole (Bool.eq_false_iff.mpr hr)
    exact ⟨ho, rfl⟩

theorem countable_of_fillable (h : s.Moderate r) (ho : o.Fillable) (hm : o.Moderate)
    (block : Option BlockNumber) (now : Timestamp) : s.Countable block now o where
  retry l hl hfailed _ := hm.retry l hl hfailed
  magnitudes _ _ := by
    obtain ⟨unfilled, hunfilled, hne, -⟩ := ho.yields_unfilled
    rw [← Amount.sub_eq_ok_iff.mp hunfilled]
    exact ⟨fun he => hne (Amount.ext_toInt he), positionSize_ne_least h o.trader o.market⟩

theorem yields_tradeable (h : s.Moderate r) (ho : o.Fillable) (hm : o.Moderate)
    (block : Option BlockNumber) (now : Timestamp) :
    Yields (s.tradeable o block now) fun w => ∀ w', w = some w' →
      w'.Fillable ∧ w'.side = o.side := by
  obtain ⟨found, hfound⟩ :=
    (tradeable_answers_iff ho.inBounds).mpr (countable_of_fillable h ho hm block now)
  refine ⟨found, hfound, fun w hw => ?_⟩
  obtain ⟨-, hcopies⟩ := (tradeable_eq_some_iff ho.inBounds hfound).mp hw
  exact hcopies.fillable ho

/-- What is listed on a side of a market is a copy of a stored order that can be filled. -/
theorem yields_candidates (hi : s.Indexed) (hw : AllWellFormed s.orders) (h : s.Moderate r)
    (m : MarketId) (side : Side) (bound : Amount) (block : BlockNumber) (now : Timestamp)
    (cancelled : List Hash) :
    Yields (s.candidates m side bound block now cancelled) (AllFillable side) := by
  have heligible : Yields (s.eligibleOrders m side (some bound) (some block) now)
      (AllFillable side) := by
    apply yields_filterMapM
    intro e he
    have he : e ∈ (s.book m).side side := (List.takeWhile_sublist _).subset he
    obtain ⟨o, ho, -, hside, -⟩ := Indexes.owned hi he
    have hm := h.orders e.id o ho
    unfold tradeableEntry
    rw [ho, ← hside]
    exact yields_tradeable h ⟨(hw e.id o ho).inBounds, hm.size⟩ hm (some block) now
  exact heligible.bind fun orders horders =>
    yields_ok fun o ho => horders o (List.mem_of_mem_filter ho)

theorem yields_workingBook (hi : s.Indexed) (hw : AllWellFormed s.orders) (h : s.Moderate r)
    (config : Configuration) (m : MarketId) (block : BlockNumber) (now : Timestamp)
    (cancelled : List Hash) :
    Yields (s.workingBook config m block now cancelled) fun b =>
      ∀ side, AllFillable side (b.side side) := by
  apply (yields_candidates hi hw h m .long _ block now cancelled).bind
  intro longs hlongs
  apply (yields_candidates hi hw h m .short _ block now cancelled).bind
  intro shorts hshorts
  refine yields_ok fun side => ?_
  cases side with
  | long => exact hlongs
  | short => exact hshorts

theorem yields_workingBooks (hi : s.Indexed) (hw : AllWellFormed s.orders) (h : s.Moderate r)
    (config : Configuration) (block : BlockNumber) (now : Timestamp) (cancelled : List Hash) :
    Yields (s.workingBooks config block now cancelled) BooksFillable := by
  apply yields_foldlM
  · intro books m _ hbooks
    exact (yields_workingBook hi hw h config m block now cancelled).bind fun b hb =>
      yields_ok (hbooks.insert hb)
  · exact .empty

end Store

section
variable {σ : Type} {executor : Executor σ} {r : RunState σ}

theorem yields_submitIfDue (due : Bool) (x : Submission) :
    RunM.Yields (submitIfDue executor due x) r fun _ _ => True := by
  unfold submitIfDue
  split
  · exact (RunM.yields_submit executor x).mono fun _ _ _ => trivial
  · exact RunM.yields_pure trivial

theorem yields_cancelBatch (orders : List Order) :
    RunM.Yields (cancelBatch executor orders) r fun _ _ => True := by
  apply (RunM.yields_submit executor _).bind
  intro accepted r₁ _
  split
  · exact (RunM.yields_modify _).bind fun _ _ _ => RunM.yields_pure trivial
  · exact RunM.yields_pure trivial

theorem yields_cancelAll (batches : List (List Order)) :
    RunM.Yields (cancelAll executor batches) r fun _ _ => True := by
  induction batches generalizing r with
  | nil => exact RunM.yields_pure trivial
  | cons batch rest ih =>
    apply (yields_cancelBatch batch).bind
    intro cancelled r₁ _
    exact ih.bind fun _ _ _ => RunM.yields_pure trivial

theorem yields_runBlock {params : ProtocolParams} {s : Store} (hp : params.InScale)
    (h : s.Ingested) (hs : s.Moderate (.ofParams params)) (block : BlockNumber)
    (now : Timestamp) :
    RunM.Yields (runBlock executor params.configuration s block now) r fun outcome _ =>
      outcome.block = block := by
  obtain ⟨hi, hw⟩ := h.invariant
  have hrates := hp.rates_le
  have hfee := hp.takerFee_nonneg
  have hmin : (RiskState.ofParams params).minAllowableMargin.toInt ≤ 1000000000000000000 := by
    show params.minAllowableMargin.toInt ≤ _
    omega
  unfold runBlock
  apply (RunM.yields_modify _).bind
  intro _ _ _
  apply (yields_submitIfDue _ _).bind
  intro fundingSubmitted _ _
  apply (yields_submitIfDue _ _).bind
  intro sampleSubmitted _ _
  apply (RunM.yields_lift (Store.yields_sweep hp.bounded hmin hw h.hasThresholds hs)).bind
  rintro found _ ⟨hfresh, rfl⟩
  apply (RunM.yields_modify _).bind
  intro _ _ _
  apply (yields_cancelAll _).bind
  intro cancelled _ _
  apply (RunM.yields_lift (Store.yields_workingBooks hi hw hs _ block now cancelled)).bind
  rintro books _ ⟨hbooks, rfl⟩
  apply (yields_liquidateAll (t := ⟨executor, _, _⟩) hp.chargeable hfresh hbooks).bind
  intro books' _ hbooks'
  have hlisted : ∀ x ∈ params.configuration.inTurn books', ∀ side,
      AllFillable side (x.2.side side) :=
    fun x hx => hbooks' x.1 x.2 (Configuration.getElem?_of_mem_inTurn hx)
  apply (yields_crossMarkets hp.chargeable hlisted).bind
  intro _ _ _
  apply (RunM.yields_count _).bind
  intro _ _ _
  apply RunM.yields_get.bind
  intro _ _ _
  exact RunM.yields_pure rfl

end

/-- An engine whose store the chain has led to, and leaves room for what is computed from it, makes
its runs: at every block and time, and whatever its executor takes or refuses. -/
theorem Engine.run_completes {σ : Type} {e : Engine σ} (h : e.store.Ingested)
    (hp : e.params.InScale) (hs : e.store.Moderate (.ofParams e.params)) (block : BlockNumber)
    (now : Timestamp) : ∃ outcome, (e.run block now).2 = .ok outcome ∧ outcome.block = block := by
  have hyields : RunM.Yields (runBlock e.executor e.params.configuration e.store block now)
      (.start ∅ e.metrics e.desk) fun outcome _ => outcome.block = block :=
    yields_runBlock hp h hs block now
  obtain ⟨outcome, r, hrun, hblock⟩ := hyields
  refine ⟨outcome, ?_, hblock⟩
  unfold Engine.run
  rw [hrun]

/-- One market at twenty a unit, and a collateral of six decimals. -/
def oneMarket : ProtocolParams where
  markets := (∅ : Map MarketId MarketParams).insert 0
    ⟨20000000, 0, ⟨40000000, 0⟩, ⟨40000000, 0⟩, 250000, 0⟩
  collaterals := [⟨1000000, 1000000, 6⟩]
  maintenanceMargin := 100000
  minAllowableMargin := 200000
  takerFee := 500

namespace Store

/-- A store that holds one order, to buy a unit, placed in the first block. -/
def oneLong : Store :=
  let order : LimitOrder := ⟨⟨0, default, 1000000000000000000, 20000000, 1, false⟩, false⟩
  (empty.applyHead (.orderBook (.orderPlaced default default order 1))
    ((default : ContractAddresses).orderBookLog (.orderPlaced default default order 1) 1 0)).1

theorem ingested_oneLong : oneLong.Ingested := Ingested.empty.applyHead ..

/-- The store once another limit order at that price has been placed in the same block. -/
def quote (s : Store) (trader id : UInt64) (size : Amount) (reduceOnly : Bool) : Store :=
  let order : LimitOrder := ⟨⟨0, Bytes.ofWord 20 trader, size, 20000000, 1, reduceOnly⟩, false⟩
  let event : OrderBookEvent := .orderPlaced (Bytes.ofWord 20 trader) (Bytes.ofWord 32 id) order 1
  (s.applyHead (.orderBook event) ((default : ContractAddresses).orderBookLog event 1 id)).1

theorem Ingested.quote {s : Store} (h : s.Ingested) (trader id : UInt64) (size : Amount)
    (reduceOnly : Bool) : (s.quote trader id size reduceOnly).Ingested := h.applyHead ..

/-- A store that follows an event of the clearing house is one the chain leads to. -/
theorem Ingested.clearingHouse {s s' : Store} {e : ClearingHouseEvent} (h : s.Ingested)
    (hs : s.applyClearingHouse oneMarket e = .ok s') : s'.Ingested := by
  have happlied : s.applyAccepted oneMarket (.clearingHouse e)
      ((ContractEvent.clearingHouse e).toLog (default : ContractAddresses).clearingHouse 2 1) =
        .ok (s', []) := by
    simp only [Store.applyAccepted, hs]
    rfl
  exact h.applyAccepted default oneMarket (.clearingHouse e)
    (default : ContractAddresses).clearingHouse 2 1 rfl happlied

/-- The purchase of a unit at twenty-five. -/
def boughtHigh : PositionChange :=
  ⟨Bytes.ofWord 20 1, 0, 1000000000000000000, 25000000, 0, 1000000000000000000, 25000000, 0, 2⟩

/-- The store with one long once another trader, with a margin of one, has made that purchase. -/
def underwater : Store :=
  let funded := (oneLong.updateMargin boughtHigh.trader 0 1000000).1
  match funded.applyClearingHouse oneMarket (.positionModified boughtHigh) with
  | .ok s => s
  | .error _ => funded

theorem ingested_underwater : underwater.Ingested := by
  have hfunded : (oneLong.updateMargin boughtHigh.trader 0 1000000).1.Ingested :=
    ingested_oneLong.applyAccepted default oneMarket
      (.marginAccount (.marginAdded boughtHigh.trader 0 1000000 2))
      (default : ContractAddresses).marginAccount 2 0 (by decide) rfl
  simp only [underwater]
  split
  next s hs => exact hfunded.clearingHouse hs
  next => exact hfunded

end Store

/-- A run that liquidates the purchase in part. -/
theorem Engine.run_completes_of_underwater :
    Store.underwater.Ingested ∧ oneMarket.InScale ∧
      Store.underwater.Moderate (.ofParams oneMarket) ∧
      ∃ outcome, (Engine.run ⟨Desk.executor, oneMarket, Store.underwater, default, default⟩ 3 4).2 =
        .ok outcome ∧ outcome.block = 3 ∧ outcome.liquidations = 1 := by
  have hp : oneMarket.InScale := by decide +kernel
  have hs : Store.underwater.Moderate (.ofParams oneMarket) := by decide +kernel
  obtain ⟨outcome, hrun, hblock⟩ := Engine.run_completes
    (e := ⟨Desk.executor, oneMarket, Store.underwater, default, default⟩)
    Store.ingested_underwater hp hs 3 4
  have hliquidated : (Engine.run ⟨Desk.executor, oneMarket, Store.underwater, default, default⟩
      3 4).2.map RunOutcome.liquidations = .ok 1 := by decide +kernel
  rw [hrun] at hliquidated
  exact ⟨Store.ingested_underwater, hp, hs, outcome, hrun, hblock, Except.ok.inj hliquidated⟩

/-- The store with one long once the execution of its order has failed in the last block there is. -/
def Store.failedLast : Store :=
  (oneLong.applyHead (.orderBook (.matchingError default ""))
    ((default : ContractAddresses).orderBookLog (.matchingError default "")
      18446744073709551615 0)).1

/-- The blocks that an order sits out are counted without a check that there are as many. -/
theorem Engine.run_overflows_on_last_block :
    Store.failedLast.Ingested ∧ oneMarket.InScale ∧
      (Engine.run ⟨Desk.executor, oneMarket, Store.failedLast, default, default⟩ 3 0).2 =
        .error .addOverflow :=
  ⟨Store.ingested_oneLong.applyHead .., by decide +kernel, by decide +kernel⟩

end PerpExchange
