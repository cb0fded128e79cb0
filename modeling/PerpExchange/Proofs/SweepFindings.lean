import PerpExchange.Proofs.Priority
import PerpExchange.Proofs.Selections
import PerpExchange.Proofs.SweepCompletion

/-! What a sweep finds: the positions of traders below the maintenance margin, each of them once and
the worst off first, and orders of traders who are not below it. -/
namespace PerpExchange

/-- What holds of any two items holds of what corresponds to them. -/
theorem pairwise_of_forall₂ {α β : Type} {R : α → β → Prop} {S : α → α → Prop} {T : β → β → Prop}
    {as : List α} {bs : List β} (h : List.Forall₂ R as bs) (hs : as.Pairwise S)
    (ht : ∀ {a a' b b'}, R a b → R a' b' → S a a' → T b b') : bs.Pairwise T := by
  induction h with
  | nil => exact .nil
  | @cons a b as bs hr hrest ih =>
    obtain ⟨ha, hs⟩ := List.pairwise_cons.mp hs
    refine List.pairwise_cons.mpr ⟨fun b' hb' => ?_, ih hs⟩
    obtain ⟨a', ha', hr'⟩ := exists_of_forall₂ hrest hb'
    exact ht hr hr' (ha a' ha')

namespace LiquidablePosition

/-- Positions of different traders or in different markets. -/
def Apart (p q : LiquidablePosition) : Prop := p.trader ≠ q.trader ∨ p.market ≠ q.market

theorem Apart.symm {p q : LiquidablePosition} (h : p.Apart q) : q.Apart p :=
  h.imp Ne.symm Ne.symm

end LiquidablePosition

namespace Store
variable {s : Store} {r : RiskState} {a : Address} {t : Trader} {found found' : SweepResult}

/-- The margin fraction a trader of the store is valued at. -/
def HasFraction (s : Store) (r : RiskState) (a : Address) (fraction : Amount) : Prop :=
  ∃ t, s.traders[a]? = some t ∧ marginFraction r (.ofTrader t r.collaterals.length) = .ok fraction

theorem HasFraction.eq {x y : Amount} (hx : s.HasFraction r a x) (hy : s.HasFraction r a y) :
    x = y := by
  rcases hx with ⟨t, ht, hx⟩
  rcases hy with ⟨t', ht', hy⟩
  rw [ht] at ht'
  cases ht'
  rw [hx] at hy
  exact Except.ok.inj hy

/-- The position of a trader in a market. -/
def HasPosition (s : Store) (a : Address) (m : MarketId) (q : Position) : Prop :=
  ∃ t, s.traders[a]? = some t ∧ t.positions[m]? = some q

theorem HasPosition.eq {m : MarketId} {x y : Position} (hx : s.HasPosition a m x)
    (hy : s.HasPosition a m y) : x = y := by
  rcases hx with ⟨t, ht, hx⟩
  rcases hy with ⟨t', ht', hy⟩
  rw [ht] at ht'
  cases ht'
  rw [hx] at hy
  exact Option.some.inj hy

/-- A position to liquidate up to its threshold, of a trader who is below the maintenance margin. -/
structure Liquidable (s : Store) (r : RiskState) (p : LiquidablePosition) : Prop where
  fraction : s.HasFraction r p.trader p.marginFraction
  below : p.marginFraction < r.maintenanceMargin
  position : ∃ q, s.HasPosition p.trader p.market q ∧ q.liquidationThreshold ≠ 0 ∧
    p.side = Side.of q.size ∧ p.size.toInt = q.liquidationThreshold.toInt.natAbs
  fresh : p.filledSize = 0

/-- What a sweep may have found once it has looked at some traders. -/
structure Finds (s : Store) (r : RiskState) (seen : List Address) (found : SweepResult) : Prop where
  liquidable : ∀ p ∈ found.liquidable, s.Liquidable r p ∧ p.trader ∈ seen
  apart : found.liquidable.Pairwise LiquidablePosition.Apart
  cancels : ∀ (a : Address) (orders : List Order), found.ordersToCancel[a]? = some orders →
    ∃ fraction, s.HasFraction r a fraction ∧ r.maintenanceMargin ≤ fraction ∧
      ∀ o ∈ orders, o ∈ s.cancellable a

theorem mem_of_selectCancellations {available : Amount} {orders : List Order}
    (h : s.selectCancellations r a available = .ok orders) : ∀ o ∈ orders, o ∈ s.cancellable a := by
  obtain ⟨sorted, hperm, -, hcovers⟩ := selectCancellations_eq_ok h
  exact fun o ho => hperm.mem_iff.mp (hcovers.front.subset ho)

theorem trader_of_mem_cancellable {o : Order} (h : o ∈ s.cancellable a) : o.trader = a := by
  have ho := (List.mem_filter.mp h).2
  simp only [Bool.and_eq_true, decide_eq_true_eq] at ho
  exact ho.1.1.1

/-- The positions of a trader to liquidate are in markets of their own. -/
theorem liquidablePositions_eq_ok {fraction : Amount} {positions : List LiquidablePosition}
    (ht : s.traders[a]? = some t)
    (hf : marginFraction r (.ofTrader t r.collaterals.length) = .ok fraction)
    (hlt : fraction < r.maintenanceMargin)
    (h : liquidablePositions a t fraction = .ok positions) :
    (∀ p ∈ positions, s.Liquidable r p ∧ p.trader = a) ∧
      positions.Pairwise LiquidablePosition.Apart := by
  have hall := Checked.mapM_eq_ok h
  have hmade : ∀ {e : MarketId × Position} {p : LiquidablePosition},
      (do return (⟨a, e.1, Side.of e.2.size, ← e.2.liquidationThreshold.abs, fraction, 0⟩ :
        LiquidablePosition) : Checked LiquidablePosition) = .ok p →
      ∃ size, e.2.liquidationThreshold.abs = .ok size ∧
        p = ⟨a, e.1, Side.of e.2.size, size, fraction, 0⟩ := by
    intro e p hp
    obtain ⟨size, hsize, hp⟩ := Checked.bind_eq_ok.mp hp
    cases hp
    exact ⟨size, hsize, rfl⟩
  constructor
  · intro p hp
    obtain ⟨e, he, hp⟩ := exists_of_forall₂ hall hp
    obtain ⟨size, hsize, rfl⟩ := hmade hp
    obtain ⟨hmem, hne⟩ := List.mem_filter.mp he
    have hq := Std.ExtTreeMap.mem_toList_iff_getElem?_eq_some.mp hmem
    exact ⟨⟨⟨t, ht, hf⟩, hlt, ⟨e.2, ⟨t, ht, hq⟩, of_decide_eq_true hne, rfl,
      Amount.abs_eq_ok.mp hsize⟩, rfl⟩, rfl⟩
  · refine pairwise_of_forall₂ hall (Std.ExtTreeMap.distinct_keys_toList.filter _) ?_
    intro e e' p p' hp hp' hne
    obtain ⟨_, -, rfl⟩ := hmade hp
    obtain ⟨_, -, rfl⟩ := hmade hp'
    exact .inr fun hm => hne (Std.compare_eq_iff_eq.mpr hm)

/-- What looking at a trader makes of what was found before: they are below the maintenance margin,
or have a deficit, or neither. -/
inductive Sweeps (s : Store) (r : RiskState) (a : Address) (t : Trader) (found : SweepResult) :
    SweepResult → Prop
  | below {fraction available : Amount} {positions : List LiquidablePosition}
    (hf : marginFraction r (.ofTrader t r.collaterals.length) = .ok fraction)
    (ha : availableMargin r (.ofTrader t r.collaterals.length) = .ok available)
    (hlt : fraction < r.maintenanceMargin)
    (hp : liquidablePositions a t fraction = .ok positions) :
    Sweeps s r a t found { found with
      liquidable := found.liquidable ++ positions
      availableMargin := found.availableMargin.insert a available }
  | short {fraction available : Amount} {orders : List Order}
    (hf : marginFraction r (.ofTrader t r.collaterals.length) = .ok fraction)
    (ha : availableMargin r (.ofTrader t r.collaterals.length) = .ok available)
    (hle : r.maintenanceMargin ≤ fraction) (hneg : available < 0)
    (ho : s.selectCancellations r a available = .ok orders) :
    Sweeps s r a t found { found with
      ordersToCancel :=
        if orders = [] then found.ordersToCancel else found.ordersToCancel.insert a orders
      availableMargin := found.availableMargin.insert a available }
  | sound {fraction available : Amount}
    (hf : marginFraction r (.ofTrader t r.collaterals.length) = .ok fraction)
    (ha : availableMargin r (.ofTrader t r.collaterals.length) = .ok available)
    (hle : r.maintenanceMargin ≤ fraction) (h0 : 0 ≤ available) :
    Sweeps s r a t found { found with
      availableMargin := found.availableMargin.insert a available }

theorem sweeps_of_sweepTrader (h : s.sweepTrader r found a t = .ok found') :
    s.Sweeps r a t found found' := by
  unfold Store.sweepTrader at h
  obtain ⟨fraction, hf, h⟩ := Checked.bind_eq_ok.mp h
  obtain ⟨available, ha, h⟩ := Checked.bind_eq_ok.mp h
  simp only at h
  split at h
  next hlt =>
    obtain ⟨positions, hp, h⟩ := Checked.bind_eq_ok.mp h
    cases h
    exact .below hf ha hlt hp
  next hlt =>
    have hle : r.maintenanceMargin ≤ fraction := Int.not_lt.mp hlt
    split at h
    next hneg =>
      obtain ⟨orders, ho, h⟩ := Checked.bind_eq_ok.mp h
      cases orders with
      | nil =>
        cases h
        exact .short hf ha hle hneg ho
      | cons o rest =>
        cases h
        exact .short hf ha hle hneg ho
    next hneg =>
      cases h
      exact .sound hf ha hle (Int.not_lt.mp hneg)

theorem Finds.sweeps {seen : List Address} (hfound : s.Finds r seen found)
    (ht : s.traders[a]? = some t) (hnew : a ∉ seen) (h : s.Sweeps r a t found found') :
    s.Finds r (a :: seen) found' := by
  have hkept : ∀ p ∈ found.liquidable, s.Liquidable r p ∧ p.trader ∈ a :: seen := by
    intro p hp
    obtain ⟨hl, hseen⟩ := hfound.liquidable p hp
    exact ⟨hl, List.mem_cons_of_mem _ hseen⟩
  cases h with
  | below hf ha hlt hp =>
    obtain ⟨hnews, hapart⟩ := liquidablePositions_eq_ok ht hf hlt hp
    refine ⟨fun p hp => ?_, List.pairwise_append.mpr ⟨hfound.apart, hapart, ?_⟩, hfound.cancels⟩
    · rcases List.mem_append.mp hp with hp | hp
      · exact hkept p hp
      · obtain ⟨hl, ha⟩ := hnews p hp
        exact ⟨hl, ha ▸ List.mem_cons_self⟩
    · intro p hp q hq
      refine .inl fun he => hnew ?_
      rw [← (hnews q hq).2, ← he]
      exact (hfound.liquidable p hp).2
  | short hf ha hle hneg ho =>
    refine ⟨hkept, hfound.apart, fun a' orders' h' => ?_⟩
    simp only at h'
    split at h'
    · exact hfound.cancels a' orders' h'
    · rw [Map.getElem?_insert_key] at h'
      split at h'
      next he =>
        cases h'
        subst he
        exact ⟨_, ⟨t, ht, hf⟩, hle, mem_of_selectCancellations ho⟩
      next => exact hfound.cancels a' orders' h'
  | sound hf ha hle h0 => exact ⟨hkept, hfound.apart, hfound.cancels⟩

theorem finds_foldlM {entries : List (Address × Trader)} {seen : List Address}
    (hfound : s.Finds r seen found) (hmem : ∀ e ∈ entries, s.traders[e.1]? = some e.2)
    (hnew : ∀ e ∈ entries, e.1 ∉ seen) (hdistinct : entries.Pairwise fun e e' => e.1 ≠ e'.1)
    (h : entries.foldlM (fun found e => s.sweepTrader r found e.1 e.2) found = .ok found') :
    ∃ seen', s.Finds r seen' found' := by
  induction entries generalizing seen found with
  | nil =>
    cases h
    exact ⟨seen, hfound⟩
  | cons e rest ih =>
    obtain ⟨found₁, h₁, h⟩ := Checked.bind_eq_ok.mp h
    obtain ⟨ht, hmem⟩ := List.forall_mem_cons.mp hmem
    obtain ⟨hfresh, hnew⟩ := List.forall_mem_cons.mp hnew
    obtain ⟨hne, hdistinct⟩ := List.pairwise_cons.mp hdistinct
    apply ih (hfound.sweeps ht hfresh (sweeps_of_sweepTrader h₁)) hmem _ hdistinct h
    intro e' he' hseen
    rcases List.mem_cons.mp hseen with he | hseen
    · exact hne e' he' he.symm
    · exact hnew e' he' hseen

theorem liquidationOrder_eq_compareLex : liquidationOrder =
    compareLex (compareLex (compareOn LiquidablePosition.marginFraction)
      (compareOn LiquidablePosition.trader)) (compareOn LiquidablePosition.market) := rfl

instance : Std.TransCmp liquidationOrder := by
  rw [liquidationOrder_eq_compareLex]
  infer_instance

theorem fraction_le_of_liquidationOrder {p q : LiquidablePosition}
    (h : (liquidationOrder p q).isLE = true) : p.marginFraction ≤ q.marginFraction := by
  unfold liquidationOrder at h
  rw [Ordering.isLE_then_iff_and, Ordering.isLE_then_iff_and] at h
  have hle : (compare p.marginFraction.toInt q.marginFraction.toInt).isLE = true := h.1.1
  exact Int.isLE_compare.mp hle

theorem sorted_liquidable (positions : List LiquidablePosition) :
    (positions.mergeSort fun p q => (liquidationOrder p q).isLE).Pairwise
      fun p q => (liquidationOrder p q).isLE := by
  apply List.pairwise_mergeSort
  · exact fun p q o => Std.TransCmp.isLE_trans
  · intro p q
    have hswap : liquidationOrder q p = (liquidationOrder p q).swap := Std.OrientedCmp.eq_swap
    rw [hswap]
    cases liquidationOrder p q <;> rfl

/-- What the sweep over all traders finds, in the order in which it is to be liquidated. -/
theorem sweep_eq_ok (h : s.sweep r = .ok found) :
    (∃ seen, s.Finds r seen found) ∧
      found.liquidable.Pairwise fun p q => p.marginFraction ≤ q.marginFraction := by
  obtain ⟨all, hall, h⟩ := Checked.bind_eq_ok.mp h
  cases h
  have hstart : s.Finds r [] ⟨[], ∅, ∅⟩ := ⟨by simp, .nil, fun a orders h => by simp at h⟩
  obtain ⟨seen, hl, ha, hc⟩ := finds_foldlM hstart
    (fun e he => Std.ExtTreeMap.mem_toList_iff_getElem?_eq_some.mp he) (by simp)
    (Map.distinct_keys s.traders) hall
  refine ⟨⟨seen, fun p hp => hl p (List.mem_mergeSort.mp hp), ?_, hc⟩,
    (sorted_liquidable all.liquidable).imp fraction_le_of_liquidationOrder⟩
  exact ((List.mergeSort_perm _ _).pairwise_iff LiquidablePosition.Apart.symm).mpr ha

end Store
end PerpExchange
