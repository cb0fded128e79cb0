import PerpExchange.Proofs.Bounds
import PerpExchange.Proofs.MarginFlow
import PerpExchange.Proofs.SweepCompletion

/-! The walks of a run over resting orders come to their end: no price, no margin and no answer of
the executor takes a fill or a margin out of the range. -/
namespace PerpExchange
open Checked

/-- An order whose fill is in bounds and whose size has a magnitude. -/
structure Order.Fillable (o : Order) : Prop where
  inBounds : o.InBounds
  size : o.size ≠ Amount.least

namespace Order
variable {o : Order} {fill : Int}

theorem Fillable.yields_unfilled (h : o.Fillable) :
    Yields o.unfilled fun a => a ≠ Amount.least ∧ (a.toInt.natAbs : Int) = o.remaining := by
  have hsize := Amount.ne_least_iff.mp h.size
  apply h.inBounds.yields_unfilled.mono
  intro a ha
  constructor
  · rw [Amount.ne_least_iff]
    rcases inBounds_iff.mp h.inBounds with ⟨-, h0, hle⟩ | ⟨-, hz, h0, hle⟩ <;> omega
  · rw [ha]
    exact natAbs_unfilled h.inBounds.remaining_nonneg

/-- Filling an order by no more than it has left stays within its size. -/
theorem Fillable.fill_between (h : o.Fillable) (h0 : 0 ≤ fill) (hle : fill ≤ o.remaining) :
    (o.side = .long ∧ 0 ≤ o.filled.toInt + fill * o.side.sign.toInt ∧
        o.filled.toInt + fill * o.side.sign.toInt ≤ o.size.toInt) ∨
      (o.side = .short ∧ o.size.toInt < 0 ∧ o.filled.toInt + fill * o.side.sign.toInt ≤ 0 ∧
        o.size.toInt ≤ o.filled.toInt + fill * o.side.sign.toInt) := by
  unfold remaining at hle
  rcases inBounds_iff.mp h.inBounds with ⟨hs, hf, hle'⟩ | ⟨hs, hz, hf, hle'⟩ <;>
    rw [hs] at hle ⊢ <;> simp only [Side.toInt_sign_long, Side.toInt_sign_short] at hle ⊢
  · exact .inl ⟨trivial, by omega, by omega⟩
  · exact .inr ⟨trivial, hz, by omega, by omega⟩

theorem Fillable.fits_fill (h : o.Fillable) (h0 : 0 ≤ fill) (hle : fill ≤ o.remaining) :
    Amount.Fits (o.filled.toInt + fill * o.side.sign.toInt) := by
  have hlow := o.size.lower
  have hhigh := o.size.upper
  rcases h.fill_between h0 hle with ⟨-, hf, hle'⟩ | ⟨-, hz, hf, hle'⟩
  · exact ⟨by omega, by omega⟩
  · exact ⟨by omega, by omega⟩

theorem Fillable.filledTo {filled : Amount} (h : o.Fillable) (h0 : 0 ≤ fill)
    (hle : fill ≤ o.remaining) (hf : filled.toInt = o.filled.toInt + fill * o.side.sign.toInt) :
    ({ o with filled } : Order).Fillable := by
  refine ⟨inBounds_iff.mpr ?_, h.size⟩
  simp only [hf]
  exact h.fill_between h0 hle

end Order

namespace RunState
variable {σ : Type} {r r' : RunState σ}

theorem fits_marginOf (r : RunState σ) (a : Address) : Amount.Fits (r.marginOf a) :=
  ⟨(r.availableMargin.getD a 0).lower, (r.availableMargin.getD a 0).upper⟩

theorem marginOf_congr (h : r'.availableMargin = r.availableMargin) (a : Address) :
    r'.marginOf a = r.marginOf a := by
  rw [marginOf, h, marginOf]

/-- What has been debited can be credited again. -/
theorem fits_credit {a : Address} {amount : Int} (h : r'.marginOf a = r.marginOf a - amount) :
    Amount.Fits (r'.marginOf a + amount) := by
  rw [h, Int.sub_add_cancel]
  exact r.fits_marginOf a

end RunState

variable {σ : Type} {r r' : RunState σ} {t : MatchTerms σ} {long short : Order}

/-- What an agreement fills both orders have left, and what it charges is debited. -/
structure Agreement.Debits (x : Agreement) (long short : Order) (r r' : RunState σ) : Prop where
  fill_nonneg : 0 ≤ x.fill.toInt
  le_long : x.fill.toInt ≤ long.remaining
  le_short : x.fill.toInt ≤ short.remaining
  long_nonneg : 0 ≤ x.longMargin.toInt
  short_nonneg : 0 ≤ x.shortMargin.toInt
  margins : ∀ a, r'.marginOf a = r.marginOf a - (if long.trader = a then x.longMargin.toInt else 0) -
    if short.trader = a then x.shortMargin.toInt else 0

theorem yields_agree (ht : t.margin.Chargeable) (hl : long.Fillable) (hs : short.Fillable) :
    RunM.Yields (agree t long short) r fun a r' => ∀ x, a = some x → x.Debits long short r r' := by
  unfold agree
  split
  · exact RunM.yields_pure fun x hx => by cases hx
  split
  · exact RunM.yields_pure fun x hx => by cases hx
  apply (RunM.yields_lift hl.yields_unfilled).bind
  rintro longOpen _ ⟨⟨hlne, hlopen⟩, rfl⟩
  apply (RunM.yields_lift hs.yields_unfilled).bind
  rintro shortOpen _ ⟨⟨hsne, hsopen⟩, rfl⟩
  apply (RunM.yields_lift (Amount.yields_minAbs hlne hsne)).bind
  rintro fill _ ⟨hfill, rfl⟩
  split
  · exact RunM.yields_pure fun x hx => by cases hx
  apply (RunM.yields_reserve ht t.upperBound long fill).bind
  intro longMargin r₁ hlong
  cases longMargin with
  | none =>
    apply (RunM.yields_count _).bind
    exact fun _ _ _ => RunM.yields_pure fun x hx => by cases hx
  | some longMargin =>
  obtain ⟨hl0, hlong⟩ := hlong
  apply (RunM.yields_reserve ht t.upperBound short fill).bind
  intro shortMargin r₂ hshort
  cases shortMargin with
  | none =>
    apply (RunM.yields_count _).bind
    intro _ r₃ hcount
    have hdebit : r₃.marginOf long.trader = r.marginOf long.trader - longMargin.toInt := by
      rw [RunState.marginOf_congr hcount, hshort, hlong, if_pos rfl]
    apply (RunM.yields_release (RunState.fits_credit hdebit)).bind
    exact fun _ _ _ => RunM.yields_pure fun x hx => by cases hx
  | some shortMargin =>
    obtain ⟨hs0, hshort⟩ := hshort
    apply RunM.yields_pure
    rintro x ⟨⟩
    refine ⟨by simp only; omega, by simp only; omega, by simp only; omega, hl0, hs0, fun a => ?_⟩
    rw [hshort, hlong]

/-- Two orders that traded are filled within their sizes. -/
theorem yields_tradePair (ht : t.margin.Chargeable) (hl : long.Fillable) (hs : short.Fillable)
    (hlong : long.side = .long) (hshort : short.side = .short) :
    RunM.Yields (tradePair t long short) r fun result _ => ∀ long' short',
      result = .filled long' short' →
        (long'.Fillable ∧ long'.side = .long) ∧ short'.Fillable ∧ short'.side = .short := by
  unfold tradePair
  apply (yields_agree ht hl hs).bind
  intro agreed r₁ hagreed
  cases agreed with
  | none => exact RunM.yields_pure fun _ _ h => by cases h
  | some x =>
  rcases hagreed x rfl with ⟨h0, hlle, hsle, hlm, hsm, hmargins⟩
  apply (RunM.yields_submit t.executor _).bind
  intro accepted r₂ hsubmit
  split
  · have hlfits := hl.fits_fill h0 hlle
    have hsfits := hs.fits_fill h0 hsle
    rw [hlong, Side.toInt_sign_long, Int.mul_one] at hlfits
    rw [hshort, Side.toInt_sign_short, Int.mul_neg, Int.mul_one] at hsfits
    apply (RunM.yields_lift (Amount.yields_add hlfits)).bind
    rintro longFilled _ ⟨hlf, rfl⟩
    apply (RunM.yields_lift (Amount.yields_sub hsfits)).bind
    rintro shortFilled _ ⟨hsf, rfl⟩
    apply (RunM.yields_modify _).bind
    rintro _ _ rfl
    apply (RunM.yields_count _).bind
    intro _ _ _
    apply RunM.yields_pure
    rintro long' short' ⟨⟩
    refine ⟨⟨hl.filledTo h0 hlle ?_, hlong⟩, hs.filledTo h0 hsle ?_, hshort⟩
    · rw [hlf, hlong, Side.toInt_sign_long, Int.mul_one]
    · rw [hsf, hshort, Side.toInt_sign_short, Int.mul_neg, Int.mul_one]
      rfl
  · apply (RunM.yields_count _).bind
    intro _ r₃ hcount
    have hthen : ∀ a, r₃.marginOf a = r.marginOf a -
        (if long.trader = a then x.longMargin.toInt else 0) -
          if short.trader = a then x.shortMargin.toInt else 0 := by
      intro a
      rw [RunState.marginOf_congr hcount, RunState.marginOf_congr hsubmit, hmargins]
    -- Both may have been debited from one trader: the first credit ends between what there is now
    -- and what there was before.
    have hfits : Amount.Fits (r₃.marginOf long.trader + x.longMargin.toInt) := by
      have hbefore := r.fits_marginOf long.trader
      have hafter := r₃.fits_marginOf long.trader
      have hdebit := hthen long.trader
      unfold Amount.Fits at *
      rw [if_pos rfl] at hdebit
      split at hdebit <;> omega
    apply (RunM.yields_release hfits).bind
    intro _ r₄ hreleased
    have hdebit : r₄.marginOf short.trader =
        r.marginOf short.trader - x.shortMargin.toInt := by
      rw [hreleased, hthen, if_pos rfl]
      omega
    apply (RunM.yields_release (RunState.fits_credit hdebit)).bind
    intro _ _ _
    apply (RunM.yields_skip _).bind
    intro _ _ _
    apply (RunM.yields_skip _).bind
    exact fun _ _ _ => RunM.yields_pure fun _ _ h => by cases h

/-- Orders of one side, all of which can be filled. -/
def AllFillable (side : Side) (orders : List Order) : Prop :=
  ∀ o ∈ orders, o.Fillable ∧ o.side = side

theorem allFillable_cons {side : Side} {o : Order} {orders : List Order} :
    AllFillable side (o :: orders) ↔ (o.Fillable ∧ o.side = side) ∧ AllFillable side orders :=
  List.forall_mem_cons

theorem yields_crossLong (ht : t.margin.Chargeable) {shorts : List Order}
    (hl : long.Fillable ∧ long.side = .long) (hs : AllFillable .short shorts) :
    RunM.Yields (crossLong t long shorts) r fun x _ =>
      (x.1.Fillable ∧ x.1.side = .long) ∧ AllFillable .short x.2 := by
  induction shorts generalizing long r with
  | nil => exact RunM.yields_pure ⟨hl, hs⟩
  | cons short rest ih =>
    obtain ⟨hshort, hrest⟩ := allFillable_cons.mp hs
    have hgoOn : ∀ {long short : Order} {r : RunState σ}, long.Fillable ∧ long.side = .long →
        short.Fillable ∧ short.side = .short →
          RunM.Yields (do
            let x ← crossLong t long rest
            return (x.1, short :: x.2)) r fun x _ =>
              (x.1.Fillable ∧ x.1.side = .long) ∧ AllFillable .short x.2 := by
      intro long short r hl hshort
      apply (ih hl hrest).bind
      rintro x _ ⟨hx, hx'⟩
      exact RunM.yields_pure ⟨hx, allFillable_cons.mpr ⟨hshort, hx'⟩⟩
    unfold crossLong
    apply (RunM.yields_lift hl.1.yields_unfilled).bind
    rintro unfilled _ ⟨-, rfl⟩
    split
    · exact RunM.yields_pure ⟨hl, hs⟩
    split
    · exact RunM.yields_pure ⟨hl, hs⟩
    apply RunM.yields_get.bind
    rintro _ _ ⟨rfl, rfl⟩
    split
    · exact hgoOn hl hshort
    apply (yields_tradePair ht hl.1 hshort.1 hl.2 hshort.2).bind
    intro result r₁ hresult
    cases result with
    | passed => exact hgoOn hl hshort
    | filled long' short' =>
      obtain ⟨hl', hshort'⟩ := hresult long' short' rfl
      exact hgoOn hl' hshort'
    | refused => exact RunM.yields_pure ⟨hl, hs⟩

theorem yields_openOrders {side : Side} {orders : List Order} (h : AllFillable side orders) :
    Yields (openOrders orders) (AllFillable side) := by
  apply (yields_filterM fun o ho => ?_).mono fun kept hkept o ho => h o (hkept o ho)
  exact (h o ho).1.yields_unfilled.bind fun _ _ => yields_ok trivial

/-- Crossing the longs of a market against its shorts comes to its end. -/
theorem yields_crossAll (ht : t.margin.Chargeable) {longs shorts : List Order}
    (hl : AllFillable .long longs) (hs : AllFillable .short shorts) :
    RunM.Yields (crossAll t longs shorts) r fun x _ =>
      AllFillable .long x.1 ∧ AllFillable .short x.2 := by
  induction longs generalizing shorts r with
  | nil => exact RunM.yields_pure ⟨hl, hs⟩
  | cons long longs ih =>
    obtain ⟨hlong, hlongs⟩ := allFillable_cons.mp hl
    cases shorts with
    | nil => exact RunM.yields_pure ⟨hl, hs⟩
    | cons best shorts =>
      unfold crossAll
      split
      · exact RunM.yields_pure ⟨hl, hs⟩
      apply RunM.yields_get.bind
      rintro _ _ ⟨rfl, rfl⟩
      split
      · apply (ih hlongs hs).bind
        rintro x _ ⟨hx, hx'⟩
        exact RunM.yields_pure ⟨allFillable_cons.mpr ⟨hlong, hx⟩, hx'⟩
      apply (yields_crossLong ht hlong hs).bind
      rintro ⟨long', shorts'⟩ r₁ ⟨hlong', hshorts'⟩
      apply (RunM.yields_lift (yields_openOrders hshorts')).bind
      rintro shorts'' _ ⟨hshorts'', rfl⟩
      apply (ih hlongs hshorts'').bind
      rintro x _ ⟨hx, hx'⟩
      exact RunM.yields_pure ⟨allFillable_cons.mpr ⟨hlong', hx⟩, hx'⟩

/-- Offering a position to orders comes to its end. What remains of it does not turn negative, and
the orders are filled within their sizes. -/
theorem yields_absorb {t : LiquidationTerms σ} (ht : t.margin.Chargeable)
    {p : LiquidablePosition} {remaining : Amount} {side : Side} {orders : List Order}
    (h0 : 0 ≤ remaining.toInt) (h : AllFillable side orders) :
    RunM.Yields (absorb t p remaining orders) r fun x _ => AllFillable side x.2 := by
  induction orders generalizing remaining r with
  | nil => exact RunM.yields_pure h
  | cons o rest ih =>
    obtain ⟨ho, hrest⟩ := allFillable_cons.mp h
    have hgoOn : ∀ {remaining : Amount} {o : Order} {r : RunState σ}, 0 ≤ remaining.toInt →
        o.Fillable ∧ o.side = side →
          RunM.Yields (do
            let x ← absorb t p remaining rest
            return (x.1, o :: x.2)) r fun x _ => AllFillable side x.2 := by
      intro remaining o r h0 ho
      apply (ih h0 hrest).bind
      rintro x _ hx
      exact RunM.yields_pure (allFillable_cons.mpr ⟨ho, hx⟩)
    unfold absorb
    split
    · exact RunM.yields_pure h
    split
    · exact RunM.yields_pure h
    apply RunM.yields_get.bind
    rintro _ _ ⟨rfl, rfl⟩
    split
    · exact hgoOn h0 ho
    apply (RunM.yields_lift ho.1.yields_unfilled).bind
    rintro unfilled _ ⟨⟨hne, hopen⟩, rfl⟩
    have hne' : remaining ≠ Amount.least := Amount.ne_least_iff.mpr (by omega)
    apply (RunM.yields_lift (Amount.yields_minAbs hne' hne)).bind
    rintro fill _ ⟨hfill, rfl⟩
    split
    · exact hgoOn h0 ho
    apply (RunM.yields_reserve ht (t.bounds p.market).upperLimit? o fill).bind
    intro reserved r₁ hreserved
    cases reserved with
    | none =>
      apply (RunM.yields_count _).bind
      exact fun _ _ _ => hgoOn h0 ho
    | some reserved =>
    obtain ⟨hr0, hdebit⟩ := hreserved
    apply (RunM.yields_submit t.executor _).bind
    intro accepted r₂ hsubmit
    split
    · have hfill0 : 0 ≤ fill.toInt := by omega
      have hfillLe : fill.toInt ≤ o.remaining := by omega
      have hfits := ho.1.fits_fill hfill0 hfillLe
      have hsigned : Amount.Fits (fill.toInt * o.side.sign.toInt) := by
        have hhigh := fill.upper
        cases o.side <;> simp only [Side.toInt_sign_long, Side.toInt_sign_short] <;>
          constructor <;> omega
      apply (RunM.yields_lift (Amount.yields_mul hsigned)).bind
      rintro signed _ ⟨hs, rfl⟩
      rw [← hs] at hfits
      apply (RunM.yields_lift (Amount.yields_add hfits)).bind
      rintro filled _ ⟨hf, rfl⟩
      have hhigh := remaining.upper
      apply (RunM.yields_lift (Amount.yields_sub (a := remaining) (b := fill)
        ⟨by omega, by omega⟩)).bind
      rintro left _ ⟨hleft, rfl⟩
      apply (RunM.yields_modify _).bind
      rintro _ _ rfl
      apply (RunM.yields_count _).bind
      rw [hs] at hf
      exact fun _ _ _ => hgoOn (by omega) ⟨ho.1.filledTo hfill0 hfillLe hf, ho.2⟩
    · apply (RunM.yields_count _).bind
      intro _ r₃ hcount
      have hdebit' : r₃.marginOf o.trader = r.marginOf o.trader - reserved.toInt := by
        rw [RunState.marginOf_congr hcount, RunState.marginOf_congr hsubmit, hdebit, if_pos rfl]
      apply (RunM.yields_release (RunState.fits_credit hdebit')).bind
      intro _ _ _
      apply (RunM.yields_skip _).bind
      exact fun _ _ _ => RunM.yields_pure h

/-- Books of which both sides can be filled. -/
def BooksFillable (books : Map MarketId WorkingBook) : Prop :=
  ∀ (m : MarketId) (b : WorkingBook), books[m]? = some b → ∀ side, AllFillable side (b.side side)

namespace BooksFillable
variable {books : Map MarketId WorkingBook}

theorem empty : BooksFillable ∅ := by
  intro m b hb
  rw [Std.ExtTreeMap.getElem?_empty] at hb
  cases hb

theorem insert {m : MarketId} {b : WorkingBook} (h : BooksFillable books)
    (hb : ∀ side, AllFillable side (b.side side)) : BooksFillable (books.insert m b) := by
  intro m' b' hb'
  rw [Map.getElem?_insert_key] at hb'
  split at hb'
  · cases hb'
    exact hb
  · exact h m' b' hb'

end BooksFillable

theorem yields_prune {b : WorkingBook} (h : ∀ side, AllFillable side (b.side side)) :
    Yields b.prune fun b' => ∀ side, AllFillable side (b'.side side) := by
  apply (yields_openOrders (h .long)).bind
  intro longs hlongs
  apply (yields_openOrders (h .short)).bind
  intro shorts hshorts
  refine yields_ok fun side => ?_
  cases side with
  | long => exact hlongs
  | short => exact hshorts

theorem yields_liquidate {t : LiquidationTerms σ} (ht : t.margin.Chargeable)
    {p : LiquidablePosition} {books : Map MarketId WorkingBook} (hp : p.Fresh)
    (hb : BooksFillable books) :
    RunM.Yields (liquidate t p books) r fun books' _ => BooksFillable books' := by
  rcases hp with ⟨h0, hfilled⟩
  have hfits : Amount.Fits (p.size.toInt - p.filledSize.toInt) := by
    have hhigh := p.size.upper
    rw [hfilled, Amount.toInt_zero]
    constructor <;> omega
  unfold liquidate
  apply (RunM.yields_lift (Amount.yields_sub hfits)).bind
  rintro remaining _ ⟨hr, rfl⟩
  rw [hfilled, Amount.toInt_zero] at hr
  split
  · exact RunM.yields_pure hb
  next book hbook =>
    have hbook := hb p.market book hbook
    apply (yields_absorb ht (by omega) (hbook p.side)).bind
    rintro ⟨left, orders⟩ r₁ horders
    have hsides : ∀ side, AllFillable side ((book.withSide p.side orders).side side) := by
      intro side
      cases hp : p.side with
      | long =>
        rw [hp] at horders
        cases side with
        | long => exact horders
        | short => exact hbook .short
      | short =>
        rw [hp] at horders
        cases side with
        | long => exact hbook .long
        | short => exact horders
    apply (RunM.yields_lift (yields_prune hsides)).bind
    rintro book' _ ⟨hbook', rfl⟩
    exact RunM.yields_pure (hb.insert hbook')

theorem yields_liquidateAll {t : LiquidationTerms σ} (ht : t.margin.Chargeable)
    {positions : List LiquidablePosition} {books : Map MarketId WorkingBook}
    (hp : ∀ p ∈ positions, p.Fresh) (hb : BooksFillable books) :
    RunM.Yields (liquidateAll t positions books) r fun books' _ => BooksFillable books' := by
  induction positions generalizing books r with
  | nil => exact RunM.yields_pure hb
  | cons p rest ih =>
    obtain ⟨hp, hrest⟩ := List.forall_mem_cons.mp hp
    exact (yields_liquidate ht hp hb).bind fun books' r' hb' => ih hrest hb'

/-- What is left of each market is crossed to the end. -/
theorem yields_crossMarkets {executor : Executor σ} {margin : MarginTerms}
    {config : Configuration} (ht : margin.Chargeable) {books : List (MarketId × WorkingBook)}
    (h : ∀ x ∈ books, ∀ side, AllFillable side (x.2.side side)) :
    RunM.Yields (crossMarkets executor margin config books) r fun _ _ => True := by
  induction books generalizing r with
  | nil => exact RunM.yields_pure trivial
  | cons x rest ih =>
    rcases x with ⟨m, b⟩
    obtain ⟨hb, hrest⟩ := List.forall_mem_cons.mp h
    unfold crossMarkets
    exact (yields_crossAll (t := ⟨executor, margin, _⟩) ht (hb .long) (hb .short)).bind
      fun _ _ _ => ih hrest

/-- Neither loop of a run can overflow. Any sizes to be liquidated, any prices, bounds and margins
in the range, and whatever the executor answers: both come to their end, and the orders they leave
can still be filled. -/
theorem loops_complete (executor : Executor σ) {margin : MarginTerms} (ht : margin.Chargeable)
    (bounds : MarketId → PriceBounds) (upperBound : Option Amount)
    {positions : List LiquidablePosition} (hp : ∀ p ∈ positions, p.Fresh)
    {books : Map MarketId WorkingBook} (hb : BooksFillable books)
    {longs shorts : List Order} (hl : AllFillable .long longs) (hs : AllFillable .short shorts)
    (r₁ r₂ : RunState σ) :
    (∃ books' r', (liquidateAll ⟨executor, margin, bounds⟩ positions books).run r₁ = .ok books' r' ∧
        BooksFillable books') ∧
      ∃ longs' shorts' r',
        (crossAll ⟨executor, margin, upperBound⟩ longs shorts).run r₂ = .ok (longs', shorts') r' ∧
          AllFillable .long longs' ∧ AllFillable .short shorts' := by
  obtain ⟨⟨longs', shorts'⟩, r', hcross, hx⟩ :=
    yields_crossAll (t := ⟨executor, margin, upperBound⟩) (r := r₂) ht hl hs
  exact ⟨yields_liquidateAll ht hp hb, longs', shorts', r', hcross, hx⟩

/-- An order to trade at once, of a trader with all the margin there is. -/
def vastOrder (id : UInt64) (size price : Amount) : Order :=
  .place (Bytes.ofWord 32 id) (.ioc ⟨⟨0, Bytes.ofWord 20 1, size, price, 0, false⟩, 9⟩) 1

/-- At the ends of the range. The fill of either loop is refused, and its margin is credited
again. -/
theorem loops_complete_at_ends :
    let long := vastOrder 1 .greatest .greatest
    let short := vastOrder 2 (.clamp (-170141183460469231731687303715884105727)) .least
    let position : LiquidablePosition := ⟨Bytes.ofWord 20 2, 0, .short, .greatest, 0, 0⟩
    let start : RunState Desk := .start ((∅ : Map Address Amount).insert (Bytes.ofWord 20 1)
      .greatest) default { (default : Desk) with refusedOrders := [Bytes.ofWord 32 2] }
    ∃ books' r₁ longs' shorts' r₂,
      (liquidateAll ⟨Desk.executor, ⟨.atto, 0⟩, fun _ => ⟨.greatest, .least⟩⟩ [position]
        ((∅ : Map MarketId WorkingBook).insert 0 ⟨[long], [short]⟩)).run start = .ok books' r₁ ∧
      BooksFillable books' ∧ r₁.journal.map Receipt.accepted = [false] ∧
      (crossAll ⟨Desk.executor, ⟨.atto, 0⟩, none⟩ [long] [short]).run start =
        .ok (longs', shorts') r₂ ∧
      AllFillable .long longs' ∧ AllFillable .short shorts' ∧
      r₂.journal.map Receipt.accepted = [false] := by
  intro long short position start
  have hlong : AllFillable .long [long] := List.forall_mem_singleton.mpr
    ⟨⟨Order.inBounds_iff.mpr (.inl (by decide)), by decide⟩, rfl⟩
  have hshort : AllFillable .short [short] := List.forall_mem_singleton.mpr
    ⟨⟨Order.inBounds_iff.mpr (.inr (by decide)), by decide⟩, rfl⟩
  have hbooks : BooksFillable ((∅ : Map MarketId WorkingBook).insert 0 ⟨[long], [short]⟩) :=
    BooksFillable.empty.insert fun side => by cases side <;> assumption
  have hmargin : MarginTerms.Chargeable ⟨.atto, 0⟩ := ⟨by decide, by decide, by decide⟩
  have hposition : ∀ p ∈ [position], p.Fresh := List.forall_mem_singleton.mpr ⟨by decide, rfl⟩
  obtain ⟨⟨books', r₁, hliquidate, hbooks'⟩, longs', shorts', r₂, hcross, hlongs', hshorts'⟩ :=
    loops_complete Desk.executor hmargin (fun _ => ⟨.greatest, .least⟩) none hposition hbooks hlong
      hshort start start
  have hrefused : (match (liquidateAll ⟨Desk.executor, ⟨.atto, 0⟩, fun _ => ⟨.greatest, .least⟩⟩
      [position] ((∅ : Map MarketId WorkingBook).insert 0 ⟨[long], [short]⟩)).run start with
    | .ok _ r => r.journal.map Receipt.accepted
    | .error _ _ => []) = [false] := by decide +kernel
  have hrefused' : (match (crossAll ⟨Desk.executor, ⟨.atto, 0⟩, none⟩ [long] [short]).run start with
    | .ok _ r => r.journal.map Receipt.accepted
    | .error _ _ => []) = [false] := by decide +kernel
  rw [hliquidate] at hrefused
  rw [hcross] at hrefused'
  exact ⟨books', r₁, longs', shorts', r₂, hliquidate, hbooks', hrefused, hcross, hlongs', hshorts',
    hrefused'⟩

end PerpExchange
