import PerpExchange.Proofs.RunBudget
import PerpExchange.Proofs.RunCompletion
import Mathlib.Algebra.Order.BigOperators.Group.List

/-! Orders that only reduce a position. A run fills none of them by more than the position, nor on
the side of the position, but each is held against the whole position, however many there are. -/
namespace PerpExchange

/-- Whether an order lies on the side that reduces a position of a size. -/
def Order.Faces (o : Order) (size : Amount) : Prop :=
  (0 < size.toInt ∧ o.side = .short) ∨ (size.toInt < 0 ∧ o.side = .long)

section
variable {α : Type} {f : α → Int} {c : Int} {l : List α}

/-- The terms of a sum that count are the positive ones, where none is negative. -/
theorem sum_filter_pos (hf : ∀ x ∈ l, 0 ≤ f x) :
    ((l.filter fun x => 0 < f x).map f).sum = (l.map f).sum := by
  induction l with
  | nil => rfl
  | cons x l ih =>
    obtain ⟨hx, hl⟩ := List.forall_mem_cons.mp hf
    by_cases hpos : 0 < f x
    · rw [List.filter_cons_of_pos (by simpa using hpos), List.map_cons, List.sum_cons, ih hl,
        List.map_cons, List.sum_cons]
    · rw [List.filter_cons_of_neg (by simpa using hpos), ih hl, List.map_cons, List.sum_cons]
      omega

/-- A sum of which at most one term counts is no more than a bound on the terms. -/
theorem sum_le_of_length_filter_pos (hc : 0 ≤ c) (hf : ∀ x ∈ l, 0 ≤ f x ∧ f x ≤ c)
    (hone : (l.filter fun x => 0 < f x).length ≤ 1) : (l.map f).sum ≤ c := by
  rw [← sum_filter_pos fun x hx => (hf x hx).1]
  match hcounts : l.filter fun x => 0 < f x with
  | [] => exact hc
  | [x] =>
    have hx : x ∈ l := List.mem_of_mem_filter (hcounts ▸ List.mem_singleton_self x)
    rw [List.map_singleton, List.sum_singleton]
    exact (hf x hx).2
  | _ :: _ :: _ =>
    rw [hcounts] at hone
    exact absurd hone (by simp)

end

namespace Store
variable {s : Store} {block : BlockNumber} {now : Timestamp} {o w : Order} {size : Amount}

theorem Clips.faces_of_remaining (h : Clips o size w) (hb : o.InBounds) (h0 : 0 < o.remaining) :
    o.Faces size := by
  obtain ⟨hsize, hsign⟩ := h.faces
  rw [Ne, Amount.eq_iff, Amount.toInt_zero] at hsize
  rw [Ne, Amount.signum_eq_iff] at hsign
  unfold Order.remaining at h0
  rcases Order.inBounds_iff.mp hb with ⟨hside, hfill⟩ | ⟨hside, hneg, -⟩
  · rw [hside, Side.toInt_sign_long] at h0
    exact .inr ⟨by omega, hside⟩
  · exact .inl ⟨by omega, hside⟩

/-- Of an order that only reduces a position no more may trade than there is of the position, and
none unless it lies on the other side. -/
theorem openAt_of_reduceOnly (hb : o.InBounds) (hr : o.reduceOnly = true) :
    s.openAt block now o ≤ (s.positionSize o.trader o.market).toInt.natAbs ∧
      (0 < s.openAt block now o → o.Faces (s.positionSize o.trader o.market)) := by
  have h0 := hb.remaining_nonneg
  unfold openAt
  split
  next w hw =>
    rcases tradeable_cases hw with ⟨-, hclips⟩ | ⟨hnot, -⟩
    · obtain ⟨-, hle, hheld⟩ := hclips.remaining_le h0
      exact ⟨hheld, fun hpos => hclips.faces_of_remaining hb (Int.lt_of_lt_of_le hpos hle)⟩
    · rw [hr] at hnot
      cases hnot
  next => exact ⟨by omega, fun h => absurd h (Int.lt_irrefl 0)⟩

/-- The orders of a trader that only reduce its position in a market. -/
def reduceOnlyOrders (s : Store) (a : Address) (m : MarketId) : List Order :=
  s.orders.values.filter fun o => o.trader = a && o.market = m && o.reduceOnly

/-- What the accepted submissions of a journal fill of those orders. -/
def reducedBy (s : Store) (a : Address) (m : MarketId) (journal : List Receipt) : Int :=
  ((s.reduceOnlyOrders a m).map fun o => filledBy o.id journal).sum

theorem mem_reduceOnlyOrders {a : Address} {m : MarketId} (hi : s.Indexed)
    (h : o ∈ s.reduceOnlyOrders a m) :
    s.orders[o.id]? = some o ∧ o.trader = a ∧ o.market = m ∧ o.reduceOnly = true := by
  obtain ⟨hvalue, hterms⟩ := List.mem_filter.mp h
  simp only [Bool.and_eq_true, decide_eq_true_eq] at hterms
  obtain ⟨⟨ha, hm⟩, hr⟩ := hterms
  obtain ⟨id, ho⟩ := Map.mem_values.mp hvalue
  have hid : o.id = id := Indexes.keyed hi ho
  exact ⟨hid ▸ ho, ha, hm, hr⟩

end Store

/-- Each order that only reduces a position is filled by no more than the position, and only if it
lies against it. All those of a trader in a market are together filled by no more than the position
if at most one of them may trade, or no more of them, each cut to the position, than there is of
it. -/
theorem runBlock_reduceOnly_fills_le_position {σ : Type} {s : Store} {executor : Executor σ}
    {config : Configuration} {block : BlockNumber} {now : Timestamp} {metrics : Metrics} {desk : σ}
    {outcome : RunOutcome} {r : RunState σ} (hi : s.Indexed) (hb : s.InBounds)
    (h : (runBlock executor config s block now).run (.start ∅ metrics desk) = .ok outcome r)
    (a : Address) (m : MarketId) :
    (∀ o ∈ s.reduceOnlyOrders a m,
      filledBy o.id r.journal ≤ (s.positionSize a m).toInt.natAbs ∧
      (0 < filledBy o.id r.journal → o.Faces (s.positionSize a m))) ∧
    (((s.reduceOnlyOrders a m).filter fun o => 0 < s.openAt block now o).length ≤ 1 ∨
      ((s.reduceOnlyOrders a m).map fun o => s.openAt block now o).sum ≤
        (s.positionSize a m).toInt.natAbs →
      s.reducedBy a m r.journal ≤ (s.positionSize a m).toInt.natAbs) := by
  -- What may trade of an order lies between what is filled of it and the position.
  have hopen : ∀ o ∈ s.reduceOnlyOrders a m,
      filledBy o.id r.journal ≤ s.openAt block now o ∧ 0 ≤ s.openAt block now o ∧
      s.openAt block now o ≤ (s.positionSize a m).toInt.natAbs ∧
      (0 < s.openAt block now o → o.Faces (s.positionSize a m)) := by
    intro o ho
    obtain ⟨hstored, rfl, rfl, hr⟩ := Store.mem_reduceOnlyOrders hi ho
    have hin := hb hstored
    exact ⟨runBlock_fills_le_openAt hi hb h hstored, (Store.openAt_bounds hin.remaining_nonneg).1,
      Store.openAt_of_reduceOnly hin hr⟩
  constructor
  · intro o ho
    obtain ⟨hfill, -, hheld, hfaces⟩ := hopen o ho
    exact ⟨Int.le_trans hfill hheld, fun hpos => hfaces (Int.lt_of_lt_of_le hpos hfill)⟩
  · intro htogether
    have hfilled : s.reducedBy a m r.journal ≤
        ((s.reduceOnlyOrders a m).map fun o => s.openAt block now o).sum :=
      List.sum_le_sum fun o ho => (hopen o ho).1
    apply hfilled.trans
    rcases htogether with hone | hfit
    · refine sum_le_of_length_filter_pos (Int.natCast_nonneg _) (fun o ho => ?_) hone
      obtain ⟨-, h0, hheld, -⟩ := hopen o ho
      exact ⟨h0, hheld⟩
    · exact hfit

namespace Store

/-- The purchase of ten units at twenty. -/
def boughtTen : PositionChange :=
  ⟨Bytes.ofWord 20 1, 0, 10000000000000000000, 20000000, 0, 10000000000000000000, 200000000, 0, 2⟩

/-- The store of a trader who holds ten units and a margin of a thousand. -/
def longTen : Store :=
  let funded := (empty.updateMargin boughtTen.trader 0 1000000000).1
  match funded.applyClearingHouse oneMarket (.positionModified boughtTen) with
  | .ok s => s
  | .error _ => funded

theorem ingested_longTen : longTen.Ingested := by
  have hfunded : (empty.updateMargin boughtTen.trader 0 1000000000).1.Ingested :=
    Ingested.empty.applyAccepted default oneMarket
      (.marginAccount (.marginAdded boughtTen.trader 0 1000000000 2))
      (default : ContractAddresses).marginAccount 2 0 (by decide) rfl
  simp only [longTen]
  split
  next s hs => exact hfunded.clearingHouse hs
  next => exact hfunded

/-- The store once the trader has placed two orders to sell that only reduce its position, and
another has bid for twenty units. -/
def longTenReducedBy (first second : Amount) : Store :=
  ((longTen.quote 1 1 first true).quote 1 2 second true).quote 2 3 20000000000000000000 false

theorem ingested_longTenReducedBy (first second : Amount) :
    (longTenReducedBy first second).Ingested :=
  ((ingested_longTen.quote 1 1 first true).quote 1 2 second true).quote 2 3 _ false

/-- Two orders that are together as large as the position. -/
def soldInParts : Store :=
  longTenReducedBy (.clamp (-4000000000000000000)) (.clamp (-6000000000000000000))

/-- Two orders each as large as the position. -/
def soldTwice : Store :=
  longTenReducedBy (.clamp (-10000000000000000000)) (.clamp (-10000000000000000000))

end Store

/-- The two orders sell all there is. -/
theorem soldInParts_fills_le_position :
    Store.soldInParts.Ingested ∧ ∃ outcome r,
      (runBlock Desk.executor oneMarket.configuration Store.soldInParts 3 0).run
        (.start ∅ default default) = .ok outcome r ∧ outcome.matchings = 2 ∧
      Store.soldInParts.reducedBy Store.boughtTen.trader 0 r.journal = 10000000000000000000 ∧
      Store.soldInParts.reducedBy Store.boughtTen.trader 0 r.journal ≤
        (Store.soldInParts.positionSize Store.boughtTen.trader 0).toInt.natAbs := by
  have hingested : Store.soldInParts.Ingested := Store.ingested_longTenReducedBy _ _
  have hi := hingested.invariant.1
  have hb : Store.soldInParts.InBounds := fun ho => (hingested.invariant.2 _ _ ho).inBounds
  have hfit : ((Store.soldInParts.reduceOnlyOrders Store.boughtTen.trader 0).map fun o =>
      Store.soldInParts.openAt 3 0 o).sum ≤
        (Store.soldInParts.positionSize Store.boughtTen.trader 0).toInt.natAbs := by decide +kernel
  have hrun : (match (runBlock Desk.executor oneMarket.configuration Store.soldInParts 3 0).run
      (.start ∅ default default) with
    | .ok outcome r =>
      (outcome.matchings, Store.soldInParts.reducedBy Store.boughtTen.trader 0 r.journal)
    | .error _ _ => (0, 0)) = (2, 10000000000000000000) := by decide +kernel
  refine ⟨hingested, ?_⟩
  split at hrun
  next outcome r h =>
    obtain ⟨hmatched, hsold⟩ := Prod.mk.inj hrun
    exact ⟨outcome, r, h, hmatched, hsold,
      (runBlock_reduceOnly_fills_le_position hi hb h _ _).2 (.inr hfit)⟩
  next => cases hrun

/-- The two orders sell the position twice. -/
theorem soldTwice_fills_exceed_position :
    Store.soldTwice.Ingested ∧
    (Store.soldTwice.positionSize Store.boughtTen.trader 0).toInt = 10000000000000000000 ∧
    ∃ outcome r,
      (runBlock Desk.executor oneMarket.configuration Store.soldTwice 3 0).run
        (.start ∅ default default) = .ok outcome r ∧
      Store.soldTwice.reducedBy Store.boughtTen.trader 0 r.journal = 20000000000000000000 := by
  have hrun : (match (runBlock Desk.executor oneMarket.configuration Store.soldTwice 3 0).run
      (.start ∅ default default) with
    | .ok _ r => Store.soldTwice.reducedBy Store.boughtTen.trader 0 r.journal
    | .error _ _ => 0) = 20000000000000000000 := by decide +kernel
  refine ⟨Store.ingested_longTenReducedBy _ _, by decide +kernel, ?_⟩
  split at hrun
  next outcome r h => exact ⟨outcome, r, h, hrun⟩
  next => cases hrun

end PerpExchange
