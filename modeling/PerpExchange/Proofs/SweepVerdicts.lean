import PerpExchange.Proofs.RunCompletion
import PerpExchange.Proofs.SweepFindings
import PerpExchange.Proofs.Valuations

/-! What a sweep has found of each trader in the end: later traders change nothing of it. A trader in
need is missed exactly if they are below the maintenance margin and no position of theirs has a
liquidation threshold. -/
namespace PerpExchange
open Checked

/-- A sweep has found a position of a trader to liquidate. -/
def SweepResult.Liquidates (found : SweepResult) (a : Address) : Prop :=
  ∃ p ∈ found.liquidable, p.trader = a

/-- Something of a trader may be liquidated. -/
def Trader.Seizable (t : Trader) : Prop :=
  ∃ (m : MarketId) (p : Position), t.positions[m]? = some p ∧ p.liquidationThreshold ≠ 0

instance (t : Trader) : Decidable t.Seizable :=
  decidable_of_iff (∃ e ∈ t.positions.toList, e.2.liquidationThreshold ≠ 0)
    ⟨fun ⟨e, he, hne⟩ => ⟨e.1, e.2, Std.ExtTreeMap.mem_toList_iff_getElem?_eq_some.mp he, hne⟩,
      fun ⟨m, p, hp, hne⟩ => ⟨(m, p), Std.ExtTreeMap.mem_toList_iff_getElem?_eq_some.mpr hp, hne⟩⟩

/-- A trader has an open position in an active market with an oracle price. -/
def Trader.IsValued (t : Trader) (r : RiskState) : Prop :=
  ∃ m ∈ r.activeMarkets, ∃ p ∈ t.positions[m]?, p.size ≠ 0 ∧ r.oraclePrice m ≠ 0

instance (t : Trader) (r : RiskState) : Decidable (t.IsValued r) :=
  inferInstanceAs (Decidable (∃ m ∈ r.activeMarkets, ∃ p ∈ t.positions[m]?, _))

/-- What is asked of a sweep: a trader with a deficit is liquidated or gives up an order, if they have
one to give up, and one below the maintenance margin who is valued by a position is liquidated. -/
structure SweepResult.Catches (found : SweepResult) (s : Store) (r : RiskState) (a : Address)
    (t : Trader) (fraction available : Amount) : Prop where
  deficit : available < 0 → found.Liquidates a ∨
    (s.cancellable a ≠ [] → ∃ orders, orders ≠ [] ∧ found.ordersToCancel[a]? = some orders)
  below : fraction < r.maintenanceMargin → t.IsValued r → found.Liquidates a

namespace Store
variable {s : Store} {r : RiskState} {a a' : Address} {t t' : Trader}
variable {found found' : SweepResult} {fraction available : Amount}

/-- What the findings say of a trader: what may be liquidated of them is listed if they are below the
maintenance margin, and if they are not, orders that cover a deficit. -/
structure Verdict (s : Store) (r : RiskState) (found : SweepResult) (a : Address) (t : Trader)
    (fraction available : Amount) : Prop where
  fraction_eq : marginFraction r (.ofTrader t r.collaterals.length) = .ok fraction
  available_eq : availableMargin r (.ofTrader t r.collaterals.length) = .ok available
  margin : found.availableMargin[a]? = some available
  listed : fraction < r.maintenanceMargin → t.Seizable → found.Liquidates a
  left : fraction < r.maintenanceMargin ∨ 0 ≤ available → found.ordersToCancel[a]? = none
  cancelled : r.maintenanceMargin ≤ fraction → available < 0 →
    ∃ orders, s.selectCancellations r a available = .ok orders ∧
      found.ordersToCancel[a]? = if orders = [] then none else some orders

theorem liquidablePositions_complete {positions : List LiquidablePosition}
    (h : liquidablePositions a t fraction = .ok positions) (ht : t.Seizable) :
    ∃ p ∈ positions, p.trader = a := by
  obtain ⟨m, p, hp, hne⟩ := ht
  have hmem : (m, p) ∈ t.positions.toList.filter fun e => e.2.liquidationThreshold ≠ 0 :=
    List.mem_filter.mpr
      ⟨Std.ExtTreeMap.mem_toList_iff_getElem?_eq_some.mpr hp, decide_eq_true hne⟩
  obtain ⟨q, hq, hmade⟩ := exists_of_forall₂ (Checked.mapM_eq_ok h).flip hmem
  obtain ⟨size, -, hmade⟩ := Checked.bind_eq_ok.mp hmade
  cases hmade
  exact ⟨_, hq, rfl⟩

/-- Looking at a trader of whom nothing is known settles what the findings say of them. -/
theorem Sweeps.verdict (h : s.Sweeps r a t found found') (hnew : found.ordersToCancel[a]? = none) :
    ∃ fraction available, s.Verdict r found' a t fraction available := by
  have hmargin : ∀ available, (found.availableMargin.insert a available)[a]? = some available :=
    fun available => Map.getElem?_insert_key.trans (if_pos rfl)
  cases h with
  | @below fraction available positions hf ha hlt hp =>
    refine ⟨fraction, available, hf, ha, hmargin available, fun _ ht => ?_, fun _ => hnew,
      fun hle _ => absurd hlt (Int.not_lt.mpr hle)⟩
    obtain ⟨p, hp, htrader⟩ := liquidablePositions_complete hp ht
    exact ⟨p, List.mem_append_right _ hp, htrader⟩
  | @short fraction available orders hf ha hle hneg ho =>
    refine ⟨fraction, available, hf, ha, hmargin available,
      fun hlt _ => absurd hlt (Int.not_lt.mpr hle), ?_, fun _ _ => ⟨orders, ho, ?_⟩⟩
    · rintro (hlt | h0)
      · exact absurd hlt (Int.not_lt.mpr hle)
      · exact absurd hneg (Int.not_lt.mpr h0)
    · simp only
      split
      · exact hnew
      · exact Map.getElem?_insert_key.trans (if_pos rfl)
  | @sound fraction available hf ha hle h0 =>
    exact ⟨fraction, available, hf, ha, hmargin available,
      fun hlt _ => absurd hlt (Int.not_lt.mpr hle), fun _ => hnew,
      fun _ hneg => absurd hneg (Int.not_lt.mpr h0)⟩

/-- Looking at a trader changes nothing of what is known of another. -/
theorem Sweeps.other (h : s.Sweeps r a t found found') (hne : a ≠ a') :
    (∀ p ∈ found.liquidable, p ∈ found'.liquidable) ∧
      found'.ordersToCancel[a']? = found.ordersToCancel[a']? ∧
      found'.availableMargin[a']? = found.availableMargin[a']? := by
  have hmargin : ∀ available,
      (found.availableMargin.insert a available)[a']? = found.availableMargin[a']? :=
    fun available => Map.getElem?_insert_key.trans (if_neg hne)
  cases h with
  | below hf ha hlt hp =>
    exact ⟨fun p hp => List.mem_append_left _ hp, rfl, hmargin _⟩
  | short hf ha hle hneg ho =>
    refine ⟨fun p hp => hp, ?_, hmargin _⟩
    simp only
    split
    · rfl
    · exact Map.getElem?_insert_key.trans (if_neg hne)
  | sound hf ha hle h0 => exact ⟨fun p hp => hp, rfl, hmargin _⟩

theorem Verdict.sweeps (hv : s.Verdict r found a' t' fraction available)
    (h : s.Sweeps r a t found found') (hne : a ≠ a') :
    s.Verdict r found' a' t' fraction available := by
  obtain ⟨hliquidable, hcancel, hmargin⟩ := h.other hne
  refine { hv with
    margin := hmargin.trans hv.margin
    listed := fun hlt ht => ?_
    left := fun hor => hcancel.trans (hv.left hor)
    cancelled := fun hle hneg => ?_ }
  · obtain ⟨p, hp, htrader⟩ := hv.listed hlt ht
    exact ⟨p, hliquidable p hp, htrader⟩
  · rw [hcancel]
    exact hv.cancelled hle hneg

/-- A sweep over some traders leaves a verdict on each of them, besides those there were. -/
theorem verdicts_foldlM {entries : List (Address × Trader)}
    (hdistinct : entries.Pairwise fun e e' => e.1 ≠ e'.1)
    (hnew : ∀ e ∈ entries, found.ordersToCancel[e.1]? = none)
    (h : entries.foldlM (fun found e => s.sweepTrader r found e.1 e.2) found = .ok found') :
    (∀ {a t fraction available}, s.Verdict r found a t fraction available →
      (∀ e ∈ entries, e.1 ≠ a) → s.Verdict r found' a t fraction available) ∧
    ∀ e ∈ entries, ∃ fraction available, s.Verdict r found' e.1 e.2 fraction available := by
  induction entries generalizing found with
  | nil =>
    cases h
    exact ⟨fun hv _ => hv, fun e he => absurd he List.not_mem_nil⟩
  | cons e rest ih =>
    obtain ⟨found₁, h₁, h⟩ := Checked.bind_eq_ok.mp h
    have h₁ := sweeps_of_sweepTrader h₁
    obtain ⟨hne, hdistinct⟩ := List.pairwise_cons.mp hdistinct
    obtain ⟨hfirst, hnew⟩ := List.forall_mem_cons.mp hnew
    have hnew₁ : ∀ e' ∈ rest, found₁.ordersToCancel[e'.1]? = none :=
      fun e' he' => (h₁.other (hne e' he')).2.1.trans (hnew e' he')
    obtain ⟨hkept, hrest⟩ := ih hdistinct hnew₁ h
    constructor
    · intro a t fraction available hv hother
      obtain ⟨hea, hother⟩ := List.forall_mem_cons.mp hother
      exact hkept (hv.sweeps h₁ hea) hother
    · refine List.forall_mem_cons.mpr ⟨?_, hrest⟩
      obtain ⟨fraction, available, hv⟩ := h₁.verdict hfirst
      exact ⟨fraction, available, hkept hv fun e' he' he => hne e' he' he.symm⟩

/-- A sweep leaves a verdict on every trader. -/
theorem sweep_verdict (h : s.sweep r = .ok found) (ht : s.traders[a]? = some t) :
    ∃ fraction available, s.Verdict r found a t fraction available := by
  obtain ⟨all, hall, h⟩ := Checked.bind_eq_ok.mp h
  cases h
  obtain ⟨-, hverdicts⟩ := verdicts_foldlM (Map.distinct_keys s.traders)
    (fun e _ => Std.ExtTreeMap.getElem?_empty) hall
  obtain ⟨fraction, available, hv⟩ :=
    hverdicts (a, t) (Std.ExtTreeMap.mem_toList_iff_getElem?_eq_some.mpr ht)
  refine ⟨fraction, available, { hv with listed := fun hlt ht => ?_ }⟩
  obtain ⟨p, hp, htrader⟩ := hv.listed hlt ht
  exact ⟨p, List.mem_mergeSort.mpr hp, htrader⟩

/-- What is listed to be liquidated is of a trader below the maintenance margin. -/
theorem liquidates_iff (h : s.sweep r = .ok found) (ht : s.traders[a]? = some t)
    (hv : s.Verdict r found a t fraction available) :
    found.Liquidates a ↔ fraction < r.maintenanceMargin ∧ t.Seizable := by
  constructor
  · rintro ⟨p, hp, rfl⟩
    obtain ⟨⟨seen, hfinds⟩, -⟩ := sweep_eq_ok h
    obtain ⟨hfraction, hbelow, ⟨q, hq, hne, -, -⟩, -⟩ := (hfinds.liquidable p hp).1
    have he : p.marginFraction = fraction := hfraction.eq ⟨t, ht, hv.fraction_eq⟩
    obtain ⟨t', ht', hq⟩ := hq
    rw [ht] at ht'
    cases ht'
    exact ⟨he ▸ hbelow, p.market, q, hq, hne⟩
  · rintro ⟨hlt, ht⟩
    exact hv.listed hlt ht

/-- Nothing is selected against a deficit exactly if there is nothing to select from. -/
theorem selectCancellations_eq_nil_iff {orders : List Order} (hneg : available < 0)
    (h : s.selectCancellations r a available = .ok orders) : orders = [] ↔ s.cancellable a = [] := by
  obtain ⟨sorted, hperm, -, hfront, ⟨total, hfrees, hcovered⟩, -⟩ := selectCancellations_eq_ok h
  constructor
  · rintro rfl
    cases hfrees
    rw [Amount.lt_iff, Amount.toInt_zero] at hneg
    have hall : [] = sorted := hcovered.resolve_left (by omega)
    exact (hall ▸ hperm).nil_eq.symm
  · intro hnone
    rw [hnone] at hperm
    exact List.prefix_nil.mp (hperm.eq_nil ▸ hfront)

/-- A trader who is valued by no position has the margin fraction of one without exposure. -/
theorem marginFraction_of_not_isValued {count : Nat} (ht : ¬ t.IsValued r)
    (h : marginFraction r (.ofTrader t count) = .ok fraction) : fraction = maxMarginFraction := by
  have hnone : valuedPositions r (.ofTrader t count) = [] := by
    rw [List.eq_nil_iff_forall_not_mem]
    rintro ⟨m, p⟩ hmem
    obtain ⟨hm, hp⟩ := mem_valuedPositions.mp hmem
    obtain ⟨hp, hsize, hprice⟩ := valuedPosition?_eq_some_iff.mp hp
    exact ht ⟨m, hm, p, hp, hsize, hprice⟩
  obtain ⟨margin, -, h⟩ := Checked.bind_eq_ok.mp h
  obtain ⟨total, htotal, h⟩ := Checked.bind_eq_ok.mp h
  rw [totalValuation_eq_totalBy, hnone] at htotal
  rw [totalBy_nil htotal] at h
  cases h
  rfl

theorem Verdict.catches_iff (hv : s.Verdict r found a t fraction available)
    (hl : found.Liquidates a ↔ fraction < r.maintenanceMargin ∧ t.Seizable) :
    found.Catches s r a t fraction available ↔ (fraction < r.maintenanceMargin → t.Seizable ∨
      ¬ t.IsValued r ∧ (available < 0 → s.cancellable a = [])) := by
  by_cases hlt : fraction < r.maintenanceMargin
  · have hnone := hv.left (.inl hlt)
    constructor
    · rintro ⟨hdeficit, hbelow⟩ -
      refine or_iff_not_imp_left.mpr fun hnot => ⟨fun hvalued => hnot (hl.mp (hbelow hlt hvalued)).2,
        fun hneg => ?_⟩
      rcases hdeficit hneg with hlisted | hselected
      · exact absurd (hl.mp hlisted).2 hnot
      · by_contra hsome
        obtain ⟨orders, -, horders⟩ := hselected hsome
        rw [hnone] at horders
        cases horders
    · intro hcondition
      rcases hcondition hlt with hseizable | ⟨hunvalued, hempty⟩
      · exact ⟨fun _ => .inl (hl.mpr ⟨hlt, hseizable⟩), fun _ _ => hl.mpr ⟨hlt, hseizable⟩⟩
      · exact ⟨fun hneg => .inr fun hsome => absurd (hempty hneg) hsome,
          fun _ hvalued => absurd hvalued hunvalued⟩
  · refine iff_of_true ⟨fun hneg => .inr fun hsome => ?_, fun h => absurd h hlt⟩
      fun h => absurd h hlt
    obtain ⟨orders, ho, hcancelled⟩ := hv.cancelled (Int.not_lt.mp hlt) hneg
    have hne : orders ≠ [] := mt (selectCancellations_eq_nil_iff hneg ho).mp hsome
    exact ⟨orders, hne, hcancelled.trans (if_neg hne)⟩

/-- A sweep catches every trader in need, but for those below the maintenance margin of whom nothing
may be liquidated. Of these, who is valued by a position is missed, and who is not is missed if they
have a deficit and an order to give up. -/
theorem sweep_catches_iff (h : s.sweep r = .ok found) (ht : s.traders[a]? = some t) :
    ∃ fraction available,
      marginFraction r (.ofTrader t r.collaterals.length) = .ok fraction ∧
      availableMargin r (.ofTrader t r.collaterals.length) = .ok available ∧
      (found.Catches s r a t fraction available ↔ (fraction < r.maintenanceMargin → t.Seizable ∨
        ¬ t.IsValued r ∧ (available < 0 → s.cancellable a = []))) ∧
      (r.maintenanceMargin ≤ maxMarginFraction →
        (found.Catches s r a t fraction available ↔
          (fraction < r.maintenanceMargin → t.Seizable))) := by
  obtain ⟨fraction, available, hv⟩ := sweep_verdict h ht
  have hcatches := hv.catches_iff (liquidates_iff h ht hv)
  refine ⟨fraction, available, hv.fraction_eq, hv.available_eq, hcatches, fun hmax => ?_⟩
  rw [hcatches]
  refine forall_congr' fun hlt => or_iff_left ?_
  rintro ⟨hunvalued, -⟩
  rw [marginFraction_of_not_isValued hunvalued hv.fraction_eq] at hlt
  exact absurd hlt (Int.not_lt.mpr hmax)

/-- The purchase at twenty-five leaves its trader below the maintenance margin, and is listed. -/
theorem underwater_caught : underwater.Ingested ∧ ∃ found t fraction available,
    underwater.sweep (.ofParams oneMarket) = .ok found ∧
    underwater.traders[boughtHigh.trader]? = some t ∧
    marginFraction (.ofParams oneMarket) (.ofTrader t 1) = .ok fraction ∧
    fraction < oneMarket.maintenanceMargin ∧ t.Seizable ∧ t.IsValued (.ofParams oneMarket) ∧
    found.Catches underwater (.ofParams oneMarket) boughtHigh.trader t fraction available ∧
    found.Liquidates boughtHigh.trader := by
  have hswept : (underwater.sweep (.ofParams oneMarket)).isOk = true := by decide +kernel
  have hneedy : ∃ t ∈ underwater.traders[boughtHigh.trader]?, t.Seizable ∧
      t.IsValued (.ofParams oneMarket) ∧
      marginFraction (.ofParams oneMarket) (.ofTrader t 1) = .ok (.clamp (-200000)) := by
    decide +kernel
  obtain ⟨t, ht, hseizable, hvalued, hbelow⟩ := hneedy
  cases hfound : underwater.sweep (.ofParams oneMarket) with
  | error f =>
    rw [hfound] at hswept
    cases hswept
  | ok found =>
    obtain ⟨fraction, available, hfraction, -, hcatches, -⟩ := sweep_catches_iff hfound ht
    have hbelow : fraction < oneMarket.maintenanceMargin := by
      cases hfraction.symm.trans hbelow
      decide
    have hcaught := hcatches.mpr fun _ => .inl hseizable
    exact ⟨ingested_underwater, found, t, fraction, available, rfl, ht, hfraction, hbelow,
      hseizable, hvalued, hcaught, hcaught.below hbelow hvalued⟩

/-- The rest of a purchase at thirty once a part of it has been liquidated. -/
def boughtUnseen : PositionChange :=
  ⟨Bytes.ofWord 20 1, 0, 1000000000000000000, 30000000, 0, 1000000000000000000, 30000000, 0, 2⟩

/-- A store that holds an order of a trader and hears of their position as it is liquidated. -/
def unseen : Store :=
  let quoted := empty.quote 1 1 1000000000000000000 false
  match quoted.applyClearingHouse oneMarket (.positionLiquidated boughtUnseen) with
  | .ok s => s
  | .error _ => quoted

theorem ingested_unseen : unseen.Ingested := by
  have hquoted : (empty.quote 1 1 1000000000000000000 false).Ingested := Ingested.empty.quote ..
  simp only [unseen]
  split
  next s hs => exact hquoted.clearingHouse hs
  next => exact hquoted

/-- A trader with a deficit, who is below the maintenance margin and has an order to give up, is
missed, as nothing of their position may be liquidated. -/
theorem unseen_missed : unseen.Ingested ∧ ∃ found t,
    unseen.sweep (.ofParams oneMarket) = .ok found ∧
    unseen.traders[boughtUnseen.trader]? = some t ∧ t.IsValued (.ofParams oneMarket) ∧
    marginFraction (.ofParams oneMarket) (.ofTrader t 1) = .ok (.clamp (-500000)) ∧
    availableMargin (.ofParams oneMarket) (.ofTrader t 1) = .ok (.clamp (-14000000)) ∧
    unseen.cancellable boughtUnseen.trader ≠ [] ∧ found.liquidable = [] ∧
    found.ordersToCancel[boughtUnseen.trader]? = none ∧
    ¬ found.Catches unseen (.ofParams oneMarket) boughtUnseen.trader t (.clamp (-500000))
      (.clamp (-14000000)) := by
  have hswept : (match unseen.sweep (.ofParams oneMarket) with
    | .ok found => found.liquidable.isEmpty && !found.ordersToCancel.contains boughtUnseen.trader
    | .error _ => false) = true := by decide +kernel
  have hneedy : ∃ t ∈ unseen.traders[boughtUnseen.trader]?, t.IsValued (.ofParams oneMarket) ∧
      marginFraction (.ofParams oneMarket) (.ofTrader t 1) = .ok (.clamp (-500000)) ∧
      availableMargin (.ofParams oneMarket) (.ofTrader t 1) = .ok (.clamp (-14000000)) := by
    decide +kernel
  obtain ⟨t, ht, hvalued, hfraction, havailable⟩ := hneedy
  have hsome : unseen.cancellable boughtUnseen.trader ≠ [] := by decide +kernel
  split at hswept
  next found h =>
    obtain ⟨hliquidable, hcancel⟩ := Bool.and_eq_true_iff.mp hswept
    have hliquidable := List.isEmpty_iff.mp hliquidable
    refine ⟨ingested_unseen, found, t, h, ht, hvalued, hfraction, havailable, hsome, hliquidable,
      ?_, fun hcaught => ?_⟩
    · exact Std.ExtTreeMap.getElem?_eq_none_of_contains_eq_false (by simpa using hcancel)
    · obtain ⟨p, hp, -⟩ := hcaught.below (by decide) hvalued
      rw [hliquidable] at hp
      cases hp
  next => cases hswept

end Store
end PerpExchange
