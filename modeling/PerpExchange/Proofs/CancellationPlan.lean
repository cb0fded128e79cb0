import PerpExchange.Proofs.Cancellation
import PerpExchange.Proofs.SweepVerdicts

/-! Which orders a run cancels for a deficit: those the sweep has selected, each of them once, and of
each trader the fewest that cover what is missing when those farthest from the oracle price go
first. -/
namespace PerpExchange
open Checked

theorem ne_nil_of_mem_batches {α : Type} {size : Nat} {items batch : List α}
    (h : batch ∈ batches size items) : batch ≠ [] := by
  induction items using batches.induct size with
  | case1 => simp [batches] at h
  | case2 x rest ih =>
    rw [batches, List.mem_cons] at h
    obtain rfl | h := h
    · exact List.cons_ne_nil _ _
    · exact ih h

/-- Lists that are each split into batches are, put together, what they were. -/
theorem flatten_flatMap_batches {α : Type} (size : Nat) (lists : List (List α)) :
    (lists.flatMap (batches size)).flatten = lists.flatten := by
  induction lists with
  | nil => rfl
  | cons items lists ih =>
    rw [List.flatMap_cons, List.flatten_append, flatten_batches, ih, List.flatten_cons]

/-- The orders a submission cancels, if that is what it does. -/
def Submission.cancels? : Submission → Option (List Order)
  | .cancelOrders orders => some orders
  | .matchOrders .. | .liquidate .. | .settleFunding | .samplePremium => none

theorem Submission.Trades.cancels?_eq_none {x : Submission} (h : x.Trades) : x.cancels? = none := by
  cases x with
  | matchOrders | liquidate => rfl
  | cancelOrders | settleFunding | samplePremium => exact h.elim

/-- The batches of orders that a journal cancels, in turn. -/
def cancelBatches (journal : List Receipt) : List (List Order) :=
  journal.filterMap fun x => x.submission.cancels?

theorem cancelBatches_append (j j' : List Receipt) :
    cancelBatches (j ++ j') = cancelBatches j ++ cancelBatches j' := List.filterMap_append

theorem cancelBatches_eq_nil {journal : List Receipt}
    (h : ∀ x ∈ journal, x.submission.cancels? = none) : cancelBatches journal = [] :=
  List.filterMap_eq_nil_iff.mpr h

theorem cancelBatches_filter_eq_nil {journal : List Receipt} (h : cancelBatches journal = [])
    (p : Receipt → Bool) : cancelBatches (journal.filter p) = [] :=
  cancelBatches_eq_nil fun x hx =>
    List.filterMap_eq_nil_iff.mp h x (List.mem_of_mem_filter hx)

theorem cancelBatches_eq_map {journal : List Receipt}
    (h : ∀ x ∈ journal, ∃ batch, x.submission = .cancelOrders batch) :
    cancelBatches journal = journal.map fun x => x.submission.orders := by
  induction journal with
  | nil => rfl
  | cons x journal ih =>
    obtain ⟨⟨batch, hx⟩, h⟩ := List.forall_mem_cons.mp h
    have hcancels : x.submission.cancels? = some batch := by rw [hx]; rfl
    have horders : x.submission.orders = batch := by rw [hx]; rfl
    simp only [cancelBatches, List.filterMap_cons, hcancels, List.map_cons, horders]
    exact congrArg (batch :: ·) (ih h)

namespace Announces
variable {found : SweepResult} {due cancels trades : List Receipt} {cancelled : List Hash}

theorem cancelBatches_due (h : Announces found due cancels cancelled) : cancelBatches due = [] :=
  cancelBatches_eq_nil fun x hx => by rcases h.due_eq x hx with he | he <;> rw [he] <;> rfl

theorem exists_batch (h : Announces found due cancels cancelled) :
    ∀ x ∈ cancels, ∃ batch, x.submission = .cancelOrders batch := by
  intro x hx
  have hx : x.submission ∈ _ := List.mem_map_of_mem hx
  rw [h.cancels_eq] at hx
  obtain ⟨batch, -, hx⟩ := List.mem_map.mp hx
  exact ⟨batch, hx.symm⟩

/-- What is announced are the selected orders, in batches trader by trader. -/
theorem cancelBatches_eq (h : Announces found due cancels cancelled) :
    cancelBatches cancels = found.ordersToCancel.values.flatMap (batches maxCancelBatch) := by
  have horders := congrArg (List.map Submission.orders) h.cancels_eq
  rw [List.map_map, List.map_map] at horders
  rw [cancelBatches_eq_map h.exists_batch]
  exact horders.trans (List.map_id _)

/-- The orders that are being cancelled are those of the accepted batches. -/
theorem cancelled_eq_map (h : Announces found due cancels cancelled) :
    cancelled = (cancelBatches (cancels.filter Receipt.accepted)).flatten.map Order.id := by
  have haccepted : ∀ x ∈ cancels.filter Receipt.accepted, ∃ batch, x.submission = .cancelOrders batch :=
    fun x hx => h.exists_batch x (List.mem_of_mem_filter hx)
  rw [h.cancelled_eq, cancelBatches_eq_map haccepted, ← List.flatMap_def, List.map_flatMap]

end Announces

namespace Store
variable {s : Store} {r : RiskState} {found : SweepResult} {a : Address}

/-- Every order is stored under its own id. -/
def Keyed (s : Store) : Prop := ∀ {id : Hash} {o : Order}, s.orders[id]? = some o → o.id = id

instance (s : Store) : Decidable s.Keyed :=
  decidable_of_iff (∀ e ∈ s.orders.toList, e.2.id = e.1)
    ⟨fun h id o ho => h (id, o) (Std.ExtTreeMap.mem_toList_iff_getElem?_eq_some.mpr ho),
      fun h _ he => h (Std.ExtTreeMap.mem_toList_iff_getElem?_eq_some.mp he)⟩

theorem distinctIds_values (h : s.Keyed) : DistinctIds s.orders.values := by
  rw [DistinctIds, Map.values_eq_map_toList, List.pairwise_map]
  refine (Map.distinct_keys s.orders).imp_of_mem fun {e e'} he he' hne hid => hne ?_
  have hkey := h (Std.ExtTreeMap.mem_toList_iff_getElem?_eq_some.mp he)
  have hkey' := h (Std.ExtTreeMap.mem_toList_iff_getElem?_eq_some.mp he')
  rw [← hkey, ← hkey', hid]

/-- Orders that a trader is to give up are selected from those they may give up, with the farthest
from the oracle price first, and cover the deficit there is. -/
theorem covers_of_sweep {orders : List Order} (h : s.sweep r = .ok found)
    (horders : found.ordersToCancel[a]? = some orders) :
    orders ≠ [] ∧ ∃ t available sorted, s.traders[a]? = some t ∧
      availableMargin r (.ofTrader t r.collaterals.length) = .ok available ∧ available < 0 ∧
      sorted.Perm (s.cancellable a) ∧ sorted.Pairwise (GoesFirst r) ∧
      Covers r available.toInt sorted orders := by
  obtain ⟨⟨seen, hfinds⟩, -⟩ := sweep_eq_ok h
  obtain ⟨-, ⟨t, ht, -⟩, -⟩ := hfinds.cancels a orders horders
  obtain ⟨fraction, available, hv⟩ := sweep_verdict h ht
  have hleft : ¬ (fraction < r.maintenanceMargin ∨ 0 ≤ available) := by
    intro hleft
    rw [hv.left hleft] at horders
    cases horders
  obtain ⟨hle, hneg⟩ := not_or.mp hleft
  obtain ⟨selected, hselected, hlisted⟩ := hv.cancelled (Int.not_lt.mp hle) (Int.not_le.mp hneg)
  rw [horders] at hlisted
  split at hlisted
  next => cases hlisted
  next hne =>
    cases hlisted
    obtain ⟨sorted, hperm, hfirst, hcovers⟩ := selectCancellations_eq_ok hselected
    exact ⟨hne, t, available, sorted, ht, hv.available_eq, Int.not_le.mp hneg, hperm, hfirst,
      hcovers⟩

/-- The selected orders have ids of their own, across all traders. -/
theorem distinctIds_ordersToCancel (hk : s.Keyed) (h : s.sweep r = .ok found) :
    DistinctIds found.ordersToCancel.values.flatten := by
  have hselected : ∀ {a : Address} {orders : List Order}, found.ordersToCancel[a]? = some orders →
      DistinctIds orders ∧ ∀ o ∈ orders, o.trader = a ∧ s.orders[o.id]? = some o := by
    intro a orders horders
    obtain ⟨-, t, available, sorted, -, -, -, hperm, -, hcovers⟩ := covers_of_sweep h horders
    have hdistinct : DistinctIds (s.cancellable a) := (distinctIds_values hk).filter _
    refine ⟨(hdistinct.perm hperm.symm Ne.symm).sublist hcovers.front.sublist, fun o ho => ?_⟩
    have ho := hperm.mem_iff.mp (hcovers.front.subset ho)
    obtain ⟨id, hid⟩ := Map.mem_values.mp (List.mem_of_mem_filter ho)
    exact ⟨trader_of_mem_cancellable ho, hk hid ▸ hid⟩
  refine List.pairwise_flatten.mpr ⟨fun orders horders => ?_, ?_⟩
  · obtain ⟨a, ha⟩ := Map.mem_values.mp horders
    exact (hselected ha).1
  · rw [Map.values_eq_map_toList, List.pairwise_map]
    refine (Map.distinct_keys _).imp_of_mem fun {e e'} he he' hne o ho o' ho' hid => ?_
    obtain ⟨htrader, hstored⟩ :=
      (hselected (Std.ExtTreeMap.mem_toList_iff_getElem?_eq_some.mp he)).2 o ho
    obtain ⟨htrader', hstored'⟩ :=
      (hselected (Std.ExtTreeMap.mem_toList_iff_getElem?_eq_some.mp he')).2 o' ho'
    rw [hid, hstored'] at hstored
    cases hstored
    exact hne (htrader.symm.trans htrader')

/-- A journal in which the orders that a sweep has selected are cancelled, each of them once. -/
structure CancelsSelected (s : Store) (found : SweepResult) (journal : List Receipt) : Prop where
  batches_eq : cancelBatches journal = found.ordersToCancel.values.flatMap (batches maxCancelBatch)
  flatten_eq : (cancelBatches journal).flatten = found.ordersToCancel.values.flatten
  size : ∀ batch ∈ cancelBatches journal, batch ≠ [] ∧ batch.length ≤ 30
  once : s.Keyed → DistinctIds (cancelBatches journal).flatten

theorem cancelsSelected_of_eq {journal : List Receipt} (h : s.sweep r = .ok found)
    (hj : cancelBatches journal = found.ordersToCancel.values.flatMap (batches maxCancelBatch)) :
    s.CancelsSelected found journal := by
  have hflatten := flatten_flatMap_batches maxCancelBatch found.ordersToCancel.values
  refine ⟨hj, hj ▸ hflatten, ?_, fun hk => ?_⟩ <;> rw [hj]
  · intro batch hbatch
    obtain ⟨orders, -, hbatch⟩ := List.mem_flatMap.mp hbatch
    exact ⟨ne_nil_of_mem_batches hbatch, length_of_mem_batches hbatch⟩
  · rw [hflatten]
    exact distinctIds_ordersToCancel hk h

/-- Of each trader with a deficit the sweep selects the fewest orders that cover it when those
farthest from the oracle price go first, or all they may give up. A run cancels exactly these, in
batches of at most thirty, whichever way it ends, and counts those in the accepted batches. -/
theorem cancels_shortest_cover (h : s.sweep r = .ok found) :
    (∀ (a : Address) (orders : List Order), found.ordersToCancel[a]? = some orders →
      orders ≠ [] ∧ ∃ t available sorted, s.traders[a]? = some t ∧
        availableMargin r (.ofTrader t r.collaterals.length) = .ok available ∧ available < 0 ∧
        sorted.Perm (s.cancellable a) ∧ sorted.Pairwise (GoesFirst r) ∧
        Covers r available.toInt sorted orders) ∧
    ∀ (σ : Type) (executor : Executor σ) (config : Configuration) (block : BlockNumber)
      (now : Timestamp) (metrics : Metrics) (desk : σ), r = config.toRiskState →
      s.CancelsSelected found
        ((runBlock executor config s block now).left (.start ∅ metrics desk)).journal ∧
      ∀ outcome r', (runBlock executor config s block now).run (.start ∅ metrics desk) =
        .ok outcome r' → outcome.cancellations =
          (cancelBatches (r'.journal.filter Receipt.accepted)).flatten.length := by
  refine ⟨fun a orders => covers_of_sweep h, ?_⟩
  rintro σ executor config block now metrics desk rfl
  obtain ⟨cancelled, due, cancels, trades, hj, hannounces, htrades, hcount⟩ :=
    runBlock_announces executor block now h (.start ∅ metrics desk)
  have hnone : cancelBatches trades = [] :=
    cancelBatches_eq_nil fun x hx => (htrades x hx).trades.cancels?_eq_none
  have hj : ((runBlock executor config s block now).left (.start ∅ metrics desk)).journal =
    due ++ (cancels ++ trades) := hj
  constructor
  · apply cancelsSelected_of_eq h
    rw [hj, cancelBatches_append, cancelBatches_append, hannounces.cancelBatches_due, hnone,
      List.nil_append, List.append_nil, hannounces.cancelBatches_eq]
  · intro outcome r' hrun
    rw [RunM.left_of_ok hrun] at hj
    rw [hcount outcome r' hrun, hannounces.cancelled_eq_map, List.length_map, hj]
    rw [List.filter_append, List.filter_append, cancelBatches_append, cancelBatches_append,
      cancelBatches_filter_eq_nil hannounces.cancelBatches_due, cancelBatches_filter_eq_nil hnone,
      List.nil_append, List.append_nil]

/-- An order to buy a unit. -/
def crowdedLong (id : UInt64) (price : Amount) : Order :=
  .place (Bytes.ofWord 32 id) (.limit ⟨⟨0, default, 1000000000000000000, price, 1, false⟩, false⟩) 1

/-- A trader without funds, who has reserved some margin. -/
def indebted : Trader where
  positions := ∅
  margin := ⟨5000000, ∅⟩

/-- A store with that trader and three such orders of theirs, the first above the oracle price. -/
def crowded : Store :=
  (((empty.add (crowdedLong 1 21000000)).add (crowdedLong 2 20000000)).add
    (crowdedLong 3 20000000)).setTrader default indebted

/-- What the sweep finds of it: the first order sets free less than is missing, and two enough. -/
def crowdedFindings : SweepResult where
  liquidable := []
  ordersToCancel :=
    (∅ : Map Address (List Order)).insert default [crowdedLong 1 21000000, crowdedLong 2 20000000]
  availableMargin := (∅ : Map Address Amount).insert default (.clamp (-5000000))

theorem selectCancellations_crowded :
    crowded.selectCancellations (.ofParams oneMarket) default (.clamp (-5000000)) =
      .ok [crowdedLong 1 21000000, crowdedLong 2 20000000] := by
  have hcancellable : crowded.cancellable default =
    [crowdedLong 1 21000000, crowdedLong 2 20000000, crowdedLong 3 20000000] := by decide +kernel
  -- The recursion of a merge sort does not evaluate, but what is in order already stays as it is.
  have hsorted : (crowded.cancellable default).mergeSort
      (fun o p => !isFarther (.ofParams oneMarket) p o) = crowded.cancellable default := by
    apply List.mergeSort_of_pairwise
    rw [hcancellable]
    decide +kernel
  have hmeasured : ((Sorting.inspected (isFarther (.ofParams oneMarket))
      (crowded.cancellable default)).mapM (oracleDistance (.ofParams oneMarket))).isOk = true := by
    rw [hcancellable]
    decide +kernel
  unfold selectCancellations farthestFirst
  rw [hsorted]
  cases hm : (Sorting.inspected (isFarther (.ofParams oneMarket))
      (crowded.cancellable default)).mapM (oracleDistance (.ofParams oneMarket)) with
  | error f =>
    rw [hm] at hmeasured
    cases hmeasured
  | ok distances =>
    rw [ok_bind, pure_eq, ok_bind, hcancellable]
    decide +kernel

theorem sweep_crowded : crowded.sweep (.ofParams oneMarket) = .ok crowdedFindings := by
  have htraders : crowded.traders.toList = [(default, indebted)] := rfl
  have hcount : (RiskState.ofParams oneMarket).collaterals.length = 1 := rfl
  have hfraction : marginFraction (.ofParams oneMarket) (.ofTrader indebted 1) =
    .ok maxMarginFraction := by decide +kernel
  have havailable : availableMargin (.ofParams oneMarket) (.ofTrader indebted 1) =
    .ok (.clamp (-5000000)) := by decide +kernel
  have htrader : crowded.sweepTrader (.ofParams oneMarket) ⟨[], ∅, ∅⟩ default indebted =
      .ok crowdedFindings := by
    unfold sweepTrader
    simp only [hcount, hfraction, havailable, ok_bind]
    rw [if_neg (by decide), if_pos (by decide), selectCancellations_crowded]
    rfl
  unfold sweep
  simp only [htraders, List.foldlM_cons, List.foldlM_nil, htrader, pure_eq, ok_bind,
    crowdedFindings, List.mergeSort_nil]

theorem run_crowded : ∃ outcome r', (runBlock Desk.executor oneMarket.configuration crowded 3 4).run
    (.start ∅ default default) = .ok outcome r' ∧ outcome.cancellations = 2 := by
  have hrun : (match (runBlock Desk.executor oneMarket.configuration crowded 3 4).run
      (.start ∅ default default) with
    | .ok outcome _ => outcome.cancellations
    | .error _ _ => 0) = 2 := by
    have hsweep : crowded.sweep oneMarket.configuration.toRiskState = .ok crowdedFindings :=
      sweep_crowded
    unfold runBlock
    rw [hsweep]
    decide +kernel
  split at hrun
  next outcome r' hran => exact ⟨outcome, r', hran, hrun⟩
  next => cases hrun

/-- Two of the three orders are cancelled. -/
theorem crowded_cancels_two : crowded.Keyed ∧
    crowded.sweep (.ofParams oneMarket) = .ok crowdedFindings ∧
    crowdedFindings.ordersToCancel[(default : Address)]? =
      some [crowdedLong 1 21000000, crowdedLong 2 20000000] ∧
    ∃ available sorted outcome r', available < (0 : Amount) ∧
      sorted.Perm (crowded.cancellable default) ∧ sorted.length = 3 ∧
      sorted.Pairwise (GoesFirst (.ofParams oneMarket)) ∧
      Covers (.ofParams oneMarket) available.toInt sorted
        [crowdedLong 1 21000000, crowdedLong 2 20000000] ∧
      (runBlock Desk.executor oneMarket.configuration crowded 3 4).run (.start ∅ default default) =
        .ok outcome r' ∧ crowded.CancelsSelected crowdedFindings r'.journal ∧
      outcome.cancellations = 2 ∧
      (cancelBatches (r'.journal.filter Receipt.accepted)).flatten.length = 2 := by
  have horders : crowdedFindings.ordersToCancel[(default : Address)]? =
    some [crowdedLong 1 21000000, crowdedLong 2 20000000] := by decide +kernel
  have hlength : (crowded.cancellable default).length = 3 := by decide +kernel
  obtain ⟨outcome, r', hrun, htwo⟩ := run_crowded
  obtain ⟨hselected, hcancels⟩ := cancels_shortest_cover sweep_crowded
  obtain ⟨-, -, available, sorted, -, -, hneg, hperm, hfirst, hcovers⟩ := hselected _ _ horders
  obtain ⟨hjournal, hcount⟩ :=
    hcancels Desk Desk.executor oneMarket.configuration 3 4 default default rfl
  rw [RunM.left_of_ok hrun] at hjournal
  exact ⟨by decide +kernel, sweep_crowded, horders, available, sorted, outcome, r', hneg, hperm,
    hperm.length_eq.trans hlength, hfirst, hcovers, hrun, hjournal, htwo,
    (hcount outcome r' hrun).symm.trans htwo⟩

end Store
end PerpExchange
