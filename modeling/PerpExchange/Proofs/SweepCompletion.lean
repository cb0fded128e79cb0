import PerpExchange.Proofs.Positions
import PerpExchange.Proofs.RiskRange
import PerpExchange.Store.Eligible
import PerpExchange.Store.Sweep

/-! The sweep before a run comes to its end on traders and orders that leave room for its sums. -/
namespace PerpExchange
open Checked Amount

/-- An order whose size has a magnitude, whose price leaves room for that of an oracle below it, and
whose failure, if it failed last, is early enough for the blocks it sits out to be counted. -/
structure Order.Moderate (o : Order) : Prop where
  size : o.size ≠ least
  price : o.kind = .limit → -170141183460469231731687303715884105728 + 1000000000000000000 <
    o.price.toInt
  retry : ∀ l, o.status? = some l → l.status = .executionFailed →
    l.block.toNat + Store.retryAfterBlocks.toNat < UInt64.size

instance (o : Order) : Decidable o.Moderate :=
  have : Decidable (∀ l, o.status? = some l → l.status = .executionFailed →
      l.block.toNat + Store.retryAfterBlocks.toNat < UInt64.size) :=
    inferInstanceAs (Decidable (∀ l ∈ o.status?, _))
  decidable_of_iff (_ ∧ _ ∧ _) ⟨fun h => ⟨h.1, h.2.1, h.2.2⟩, fun h => ⟨h.1, h.2, h.3⟩⟩

/-- A trader whose positions have magnitudes, who has not reserved nearly as much as there can be,
and whose positions leave room for the sums of a valuation. -/
structure Trader.Moderate (r : RiskState) (t : Trader) : Prop where
  sizes : ∀ (m : MarketId) (p : Position), t.positions[m]? = some p → p.size ≠ least
  reserved : t.margin.reserved.toInt.natAbs ≤ 100000000000000000000000000000000000000
  affords : ∀ margin, fundedMargin r (.ofTrader t r.collaterals.length) = .ok margin →
    (RiskUser.ofTrader t r.collaterals.length).Affords r margin

instance (r : RiskState) (t : Trader) : Decidable (t.Moderate r) :=
  have : Decidable (∀ margin, fundedMargin r (.ofTrader t r.collaterals.length) = .ok margin →
      (RiskUser.ofTrader t r.collaterals.length).Affords r margin) :=
    match fundedMargin r (.ofTrader t r.collaterals.length) with
    | .ok margin => decidable_of_iff ((RiskUser.ofTrader t r.collaterals.length).Affords r margin)
        ⟨fun h _ he => Except.ok.inj he ▸ h, fun h => h margin rfl⟩
    | .error _ => isTrue fun _ he => nomatch he
  decidable_of_iff (_ ∧ _ ∧ _) ⟨fun h => ⟨h.1, h.2.1, h.2.2⟩, fun h => ⟨h.1, h.2, h.3⟩⟩

structure Store.Moderate (s : Store) (r : RiskState) : Prop where
  orders : ∀ (id : Hash) (o : Order), s.orders[id]? = some o → o.Moderate
  traders : ∀ (a : Address) (t : Trader), s.traders[a]? = some t → t.Moderate r

instance (s : Store) (r : RiskState) : Decidable (s.Moderate r) :=
  decidable_of_iff (_ ∧ _) ⟨fun h => ⟨h.1, h.2⟩, fun h => ⟨h.1, h.2⟩⟩

/-- What is to be liquidated of a position: a magnitude, and nothing of it done. -/
def LiquidablePosition.Fresh (p : LiquidablePosition) : Prop :=
  0 ≤ p.size.toInt ∧ p.filledSize = 0

theorem yields_orderMargin (price unfilled : Amount) {minAllowable : Amount}
    (h0 : 0 ≤ minAllowable.toInt) (h1 : minAllowable.toInt ≤ 1000000000000000000) :
    Yields (orderMargin price unfilled minAllowable) fun freed =>
      0 ≤ freed.toInt ∧ freed.toInt ≤ 170141183460469231731687303715884 := by
  apply (yields_notionalPosition price unfilled).bind
  rintro n ⟨hn, hle, -⟩
  refine yields_share (n := 170141183460469231731) hn hle h0 ?_
  omega

namespace Store
variable {s : Store} {r : RiskState}

theorem yields_oracleDistance (hr : r.Bounded) {o : Order}
    (ho : -170141183460469231731687303715884105728 + 1000000000000000000 < o.price.toInt) :
    Yields (oracleDistance r o) fun _ => True := by
  have horacle := hr.oracle o.market
  have hhigh := o.price.upper
  apply (yields_sub ⟨by omega, by omega⟩).bind
  intro d hd
  refine (yields_abs ?_).mono fun _ _ => trivial
  rw [ne_least_iff]
  omega

/-- Every order that may be cancelled is measured, and none gets lost. -/
theorem yields_farthestFirst (hr : r.Bounded) {orders : List Order}
    (h : ∀ o ∈ orders, -170141183460469231731687303715884105728 + 1000000000000000000 <
      o.price.toInt) :
    Yields (farthestFirst r orders) fun sorted => sorted.Perm orders := by
  have hmeasured : Yields ((Sorting.inspected (isFarther r) orders).mapM (oracleDistance r))
      fun distances => ∀ d ∈ distances, True :=
    yields_mapM fun o ho => yields_oracleDistance hr (h o (Sorting.mem_of_mem_inspected ho))
  exact hmeasured.bind fun _ _ => yields_ok (List.mergeSort_perm _ _)

theorem yields_coverDeficit (h0 : 0 ≤ r.minAllowableMargin.toInt)
    (h1 : r.minAllowableMargin.toInt ≤ 1000000000000000000) {orders : List Order}
    (h : ∀ o ∈ orders, o.InBounds) (available : Amount) :
    Yields (coverDeficit r available orders) fun _ => True := by
  induction orders generalizing available with
  | nil => exact yields_ok trivial
  | cons o rest ih =>
    obtain ⟨ho, hrest⟩ := List.forall_mem_cons.mp h
    have hlow := available.lower
    unfold coverDeficit
    split
    · exact yields_ok trivial
    next hneg =>
      rw [le_iff, toInt_zero] at hneg
      apply ho.yields_unfilled.bind
      intro unfilled _
      apply (yields_orderMargin o.price unfilled h0 h1).bind
      rintro freed ⟨hfreed, hle⟩
      apply (yields_add ⟨by omega, by omega⟩).bind
      intro left _
      exact (ih hrest left).bind fun _ _ => yields_ok trivial

theorem mem_cancellable {a : Address} {o : Order} (h : o ∈ s.cancellable a) :
    (∃ id : Hash, s.orders[id]? = some o) ∧ o.kind = .limit := by
  obtain ⟨hvalue, hkind⟩ := List.mem_filter.mp h
  simp only [Bool.and_eq_true, decide_eq_true_eq] at hkind
  exact ⟨Map.mem_values.mp hvalue, hkind.1.1.2⟩

/-- The prices that a sweep measures and the margins it adds up all fit. -/
theorem yields_selectCancellations (hr : r.Bounded)
    (h1 : r.minAllowableMargin.toInt ≤ 1000000000000000000) (hw : AllWellFormed s.orders)
    (ho : ∀ (id : Hash) (o : Order), s.orders[id]? = some o → o.Moderate) (a : Address)
    (available : Amount) : Yields (s.selectCancellations r a available) fun _ => True := by
  have hprices : ∀ o ∈ s.cancellable a,
      -170141183460469231731687303715884105728 + 1000000000000000000 < o.price.toInt := by
    intro o hmem
    obtain ⟨⟨id, hid⟩, hkind⟩ := mem_cancellable hmem
    exact (ho id o hid).price hkind
  apply (yields_farthestFirst hr hprices).bind
  intro sorted hsorted
  apply yields_coverDeficit hr.minAllowable_nonneg h1
  intro o hmem
  obtain ⟨⟨id, hid⟩, -⟩ := mem_cancellable (hsorted.mem_iff.mp hmem)
  exact (hw id o hid).inBounds

theorem yields_liquidablePositions {t : Trader} (ht : t.HasThresholds) (a : Address)
    (fraction : Amount) :
    Yields (liquidablePositions a t fraction) fun found => ∀ p ∈ found, p.Fresh := by
  apply yields_mapM
  rintro ⟨m, p⟩ hp
  have hmem := Std.ExtTreeMap.mem_toList_iff_getElem?_eq_some.mp (List.mem_of_mem_filter hp)
  apply (yields_abs (ht m p hmem).ne_least).bind
  intro size hsize
  exact yields_ok ⟨by simp only; omega, rfl⟩

theorem yields_sweepTrader (hr : r.Bounded)
    (h1 : r.minAllowableMargin.toInt ≤ 1000000000000000000) (hw : AllWellFormed s.orders)
    (ho : ∀ (id : Hash) (o : Order), s.orders[id]? = some o → o.Moderate) {t : Trader}
    (ht : t.Moderate r) (hthresholds : t.HasThresholds) (a : Address) {found : SweepResult}
    (hfound : ∀ p ∈ found.liquidable, p.Fresh) :
    Yields (s.sweepTrader r found a t) fun found => ∀ p ∈ found.liquidable, p.Fresh := by
  unfold sweepTrader
  apply (yields_marginFraction hr ht.affords).bind
  intro fraction _
  apply (yields_availableMargin hr ht.affords ht.reserved).bind
  intro available _
  simp only
  split
  · apply (yields_liquidablePositions hthresholds a fraction).bind
    intro positions hpositions
    exact yields_ok fun p hp => (List.mem_append.mp hp).elim (hfound p) (hpositions p)
  · split
    · apply (yields_selectCancellations hr h1 hw ho a available).bind
      intro selected _
      cases selected with
      | nil => exact yields_ok hfound
      | cons o rest => exact yields_ok hfound
    · exact yields_ok hfound

/-- A sweep comes to its end, and what it finds to liquidate has not been begun. -/
theorem yields_sweep (hr : r.Bounded) (h1 : r.minAllowableMargin.toInt ≤ 1000000000000000000)
    (hw : AllWellFormed s.orders) (hthresholds : s.HasThresholds) (hs : s.Moderate r) :
    Yields (s.sweep r) fun found => ∀ p ∈ found.liquidable, p.Fresh := by
  have hall : Yields (s.traders.toList.foldlM
      (fun found x => s.sweepTrader r found x.1 x.2) ⟨[], ∅, ∅⟩)
        fun found => ∀ p ∈ found.liquidable, p.Fresh := by
    apply yields_foldlM
    · rintro found ⟨a, t⟩ hmem hfound
      have ht := Std.ExtTreeMap.mem_toList_iff_getElem?_eq_some.mp hmem
      exact yields_sweepTrader hr h1 hw hs.orders (hs.traders a t ht) (hthresholds a t ht) a hfound
    · exact fun p hp => absurd hp List.not_mem_nil
  apply hall.bind
  intro found hfound
  exact yields_ok fun p hp => hfound p (List.mem_mergeSort.mp hp)

end Store
end PerpExchange
