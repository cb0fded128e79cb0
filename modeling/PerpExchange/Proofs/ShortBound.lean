import Mathlib.Data.List.TakeWhile
import PerpExchange.Proofs.FarShorts
import PerpExchange.Proofs.RunCompletion

/-! The highest price at which a short is of use is no bound too low: a run does the same with the
shorts beyond it. -/
namespace PerpExchange
open BookEntry (Before ofOrder)

theorem Checked.filterMapM_append {α β : Type} {f : α → Checked (Option β)} {xs ys : List α}
    {zs : List β} (h : (xs ++ ys).filterMapM f = .ok zs) :
    ∃ as bs, xs.filterMapM f = .ok as ∧ ys.filterMapM f = .ok bs ∧ zs = as ++ bs := by
  induction xs generalizing zs with
  | nil => exact ⟨[], zs, rfl, h, rfl⟩
  | cons x xs ih =>
    rw [List.cons_append, List.filterMapM_cons] at h
    obtain ⟨y, hy, h⟩ := bind_eq_ok.mp h
    cases y with
    | none =>
      obtain ⟨as, bs, has, hbs, rfl⟩ := ih h
      refine ⟨as, bs, ?_, hbs, rfl⟩
      rw [List.filterMapM_cons, hy]
      exact has
    | some y =>
      obtain ⟨zs', hzs, h⟩ := bind_eq_ok.mp h
      cases h
      obtain ⟨as, bs, has, hbs, rfl⟩ := ih hzs
      refine ⟨y :: as, bs, ?_, hbs, rfl⟩
      rw [List.filterMapM_cons, hy]
      show (do return y :: (← xs.filterMapM f)) = _
      rw [has]
      rfl

/-- A stricter test takes the first part of what a test takes. -/
theorem takeWhile_split {α : Type} {p q : α → Bool} (h : ∀ a, p a → q a) (xs : List α) :
    xs.takeWhile q = xs.takeWhile p ++ (xs.dropWhile p).takeWhile q := by
  induction xs with
  | nil => rfl
  | cons x xs ih =>
    by_cases hp : p x
    · simp [hp, h x hp, ih]
    · simp [hp]

namespace Store

/-- The orders of a market that could take part in a run, with all shorts up to the highest
acceptable price. -/
def wideBook (s : Store) (config : Configuration) (m : MarketId) (block : BlockNumber)
    (now : Timestamp) (cancelled : List Hash) : Checked WorkingBook := do
  let longs ← s.candidates m .long (config.acceptableBounds m).lower block now cancelled
  let shorts ← s.candidates m .short (config.acceptableBounds m).upper block now cancelled
  return ⟨longs, shorts⟩

variable {s : Store} {m : MarketId} {side : Side} {block : BlockNumber} {now : Timestamp}
variable {cancelled : List Hash} {o w : Order} {orders : List Order} {entries : List BookEntry}

/-- The shorts behind those up to a bound are all beyond it. -/
theorem price_of_mem_dropWhile {near : Amount} {e : BookEntry}
    (hs : entries.Pairwise (Before .short))
    (h : e ∈ entries.dropWhile fun e => !beyond .short (some near) e.price) : near < e.price := by
  induction entries with
  | nil => cases h
  | cons x entries ih =>
    obtain ⟨hx, hs⟩ := List.pairwise_cons.mp hs
    by_cases hp : near < x.price
    · have hlate : x.price ≤ e.price := by
        rcases List.mem_cons.mp ((List.dropWhile_sublist _).subset h) with rfl | he
        · exact Int.le_refl _
        · exact (hx e he).le_price
      exact Int.lt_of_lt_of_le hp hlate
    · exact ih hs (by simpa [List.dropWhile_cons, beyond, hp] using h)

/-- What may trade of the orders of a side comes in their order. -/
theorem tradeable_entries (side : Side) (hi : s.Indexed)
    (hsub : ∀ e ∈ entries, e ∈ (s.book m).side side)
    (h : entries.filterMapM (s.tradeableEntry (some block) now) = .ok orders) :
    (orders.map ofOrder).Sublist entries := by
  induction entries generalizing orders with
  | nil =>
    cases h
    exact .slnil
  | cons e entries ih =>
    obtain ⟨he, hsub⟩ := List.forall_mem_cons.mp hsub
    rw [List.filterMapM_cons] at h
    obtain ⟨y, hy, h⟩ := Checked.bind_eq_ok.mp h
    cases y with
    | none => exact (ih hsub h).cons _
    | some w =>
      obtain ⟨orders', ho, h⟩ := Checked.bind_eq_ok.mp h
      cases h
      obtain ⟨o, hget, ht⟩ := tradeableEntry_eq_ok hy
      obtain ⟨o', hget', -, -, hentry⟩ := Indexes.owned hi he
      rw [hget] at hget'
      cases hget'
      have hw : ofOrder w = e := by
        rw [tradeable_copy ht]
        exact hentry
      rw [List.map_cons, hw]
      exact (ih hsub ho).cons_cons e

theorem candidates_entries {bound : Amount} (hi : s.Indexed)
    (h : s.candidates m side bound block now cancelled = .ok orders) :
    (orders.map ofOrder).Sublist ((s.book m).side side) := by
  obtain ⟨eligible, he, h⟩ := Checked.bind_eq_ok.mp h
  cases h
  have htaken : ((s.book m).side side |>.takeWhile fun e => !beyond side (some bound) e.price).Sublist
      ((s.book m).side side) := List.takeWhile_sublist _
  have heligible := tradeable_entries side hi (fun e he => htaken.subset he) he
  exact (List.filter_sublist.map _).trans (heligible.trans htaken)

/-- An order of a run is of its side, and filled within its size. -/
theorem Enters.within (hi : s.Indexed) (hb : s.InBounds)
    (h : s.Enters m side block now cancelled w) : w.side = side ∧ w.FilledWithin side := by
  have hworking := h.working hi hb
  refine ⟨hworking.side_eq, ?_⟩
  obtain ⟨o, ho, -, rfl, hcopy, h0, hle⟩ := hworking
  have hsize : w.size = o.size := by rw [hcopy]
  have hside : w.side = o.side := by rw [hcopy]
  unfold Order.remaining at h0 hle
  rw [hsize, hside] at h0 hle
  rcases Order.inBounds_iff.mp (hb ho) with ⟨hs, hf, -⟩ | ⟨hs, -, hf, -⟩ <;>
    rw [hs] at h0 hle ⊢ <;>
    simp only [Order.FilledWithin, Amount.le_iff, Amount.toInt_zero, hsize, Side.toInt_sign_long,
      Side.toInt_sign_short] at h0 hle ⊢ <;>
    omega

/-- The shorts up to a bound are those up to a lower one, and some that are priced in between. -/
theorem candidates_short_split {near upper : Amount} (hi : s.Indexed) (hle : near ≤ upper)
    (h : s.candidates m .short upper block now cancelled = .ok orders) :
    ∃ shorts far, s.candidates m .short near block now cancelled = .ok shorts ∧
      orders = shorts ++ far ∧ ∀ f ∈ far, near < f.price ∧ f.price ≤ upper := by
  obtain ⟨eligible, he, h⟩ := Checked.bind_eq_ok.mp h
  cases h
  unfold eligibleOrders at he
  have hstricter : ∀ e : BookEntry,
      !beyond .short (some near) e.price → !beyond .short (some upper) e.price := by
    intro e he
    simp only [beyond, Bool.not_eq_true', decide_eq_false_iff_not, Amount.lt_iff] at he ⊢
    rw [Amount.le_iff] at hle
    omega
  rw [takeWhile_split hstricter] at he
  obtain ⟨as, bs, has, hbs, rfl⟩ := Checked.filterMapM_append he
  have hentries : (bs.map ofOrder).Sublist _ := tradeable_entries .short hi
    (fun e he => (List.dropWhile_sublist _).subset ((List.takeWhile_sublist _).subset he)) hbs
  refine ⟨withoutCancelled cancelled as, withoutCancelled cancelled bs, ?_, List.filter_append .., ?_⟩
  · unfold candidates eligibleOrders
    rw [has]
    rfl
  · intro f hf
    have hentry := hentries.subset (List.mem_map_of_mem (List.mem_filter.mp hf).1)
    have hupper := List.mem_takeWhile_imp hentry
    have hnear := price_of_mem_dropWhile (Indexes.sorted hi m .short)
      ((List.takeWhile_sublist _).subset hentry)
    simp only [beyond, Bool.not_eq_true', decide_eq_false_iff_not, Amount.lt_iff] at hupper
    exact ⟨hnear, Int.not_lt.mp hupper⟩

variable {config : Configuration} {wide : WorkingBook} {longs : List Order}

theorem shortBound_le (h : (config.liquidationBounds m).upper ≤ (config.acceptableBounds m).upper)
    (longs : List Order) : shortBound config m longs ≤ (config.acceptableBounds m).upper := by
  unfold shortBound
  split
  · rw [Amount.le_iff, Amount.toInt_min]
    exact Int.min_le_right _ _
  · exact h

/-- A short beyond the bound, at an acceptable price, is beyond the bound of liquidations and above
the best long. -/
theorem lt_of_shortBound_lt {price : Amount} (h : shortBound config m longs < price)
    (hle : price ≤ (config.acceptableBounds m).upper) :
    (config.liquidationBounds m).upper < price ∧
      ∀ best, longs.head? = some best → best.price < price := by
  unfold shortBound at h
  split at h
  next best hbest =>
    rw [Amount.lt_iff, Amount.toInt_min, Amount.toInt_max] at h
    rw [Amount.le_iff] at hle
    rw [hbest]
    refine ⟨?_, fun _ he => ?_⟩
    · rw [Amount.lt_iff]
      omega
    · cases he
      rw [Amount.lt_iff]
      omega
  next hnone => exact ⟨h, fun best hbest => by rw [hnone] at hbest; cases hbest⟩

/-- No candidate to buy bids more than the first. -/
theorem candidates_le_head {bound : Amount} (hi : s.Indexed)
    (h : s.candidates m .long bound block now cancelled = .ok orders) (ho : o ∈ orders) :
    ∃ best, orders.head? = some best ∧ o.price ≤ best.price := by
  have hsorted := (Indexes.sorted hi m .long).sublist (candidates_entries hi h)
  cases orders with
  | nil => cases ho
  | cons best orders =>
    refine ⟨best, rfl, ?_⟩
    rcases List.mem_cons.mp ho with rfl | ho
    · exact Int.le_refl _
    · have hbefore := (List.pairwise_cons.mp (List.pairwise_map.mp hsorted)).1 o ho
      exact hbefore.price_le

/-- The wide book is the working book with some shorts behind it, which are out of reach. -/
theorem wideBook_eq_ok (hi : s.Indexed) (hb : s.InBounds)
    (hq : (config.liquidationBounds m).upper ≤ (config.acceptableBounds m).upper)
    (h : s.wideBook config m block now cancelled = .ok wide) :
    ∃ book far, s.workingBook config m block now cancelled = .ok book ∧
      wide = ⟨book.longs, book.shorts ++ far⟩ ∧ book.Under far ∧
      ∀ f ∈ far, f.FilledWithin .short ∧ (config.liquidationBounds m).upper < f.price := by
  obtain ⟨longs, hl, h⟩ := Checked.bind_eq_ok.mp h
  obtain ⟨shorts, hs, h⟩ := Checked.bind_eq_ok.mp h
  cases h
  obtain ⟨near, far, hnear, rfl, hprice⟩ := candidates_short_split hi (shortBound_le hq longs) hs
  have hlongs := fun o ho => ((candidates_eq_ok hl).1 o ho).within hi hb
  have hshorts := fun o ho => ((candidates_eq_ok hs).1 o ho).within hi hb
  obtain ⟨hnearby, hfar⟩ := List.forall_mem_append.mp hshorts
  have hreach := fun f hf => lt_of_shortBound_lt (hprice f hf).1 (hprice f hf).2
  refine ⟨⟨longs, near⟩, far, ?_, rfl, ⟨?_, ?_, ?_⟩, fun f hf => ⟨(hfar f hf).2, (hreach f hf).1⟩⟩
  · rw [workingBook, hl, Checked.ok_bind, hnear]
    rfl
  · intro side
    cases side with
    | long => exact fun o ho => (hlongs o ho).1
    | short => exact fun o ho => (hnearby o ho).1
  · intro side
    cases side with
    | long => exact fun o ho => (hlongs o ho).2
    | short => exact fun o ho => (hnearby o ho).2
  · intro o ho f hf
    obtain ⟨best, hbest, hle⟩ := candidates_le_head hi hl ho
    exact Int.lt_of_le_of_lt hle ((hreach f hf).2 best hbest)

end Store

section
variable {σ : Type} {s : Store} {m : MarketId} {block : BlockNumber} {now : Timestamp}
variable {cancelled : List Hash} {config : Configuration} {wide : WorkingBook}

/-- The price bound of a working book loses nothing. With the shorts up to the highest acceptable
price in its place, whatever the positions to be liquidated, the other books, the margins and the
answers of the executor are, liquidating and then crossing the market submits the same, and it ends
in the same state, or at the same fault. The orders of the working book are filled the same, and the
others stay as they were, but that some with nothing open are dropped. -/
theorem short_bound_loses_nothing (hi : s.Indexed) (hb : s.InBounds)
    (hq : (config.liquidationBounds m).upper ≤ (config.acceptableBounds m).upper)
    (hw : s.wideBook config m block now cancelled = .ok wide) :
    ∃ book far, s.workingBook config m block now cancelled = .ok book ∧
      wide = ⟨book.longs, book.shorts ++ far⟩ ∧
      ∀ (executor : Executor σ) (margin : MarginTerms) (positions : List LiquidablePosition)
        (books : Map MarketId WorkingBook) (r : RunState σ),
        RunM.Alike (Widens m far)
          ((liquidateAndCross executor margin config m positions (books.insert m book)).run r)
          ((liquidateAndCross executor margin config m positions (books.insert m wide)).run r) := by
  obtain ⟨book, far, hbook, hwide, hunder, hfar⟩ := Store.wideBook_eq_ok hi hb hq hw
  refine ⟨book, far, hbook, hwide, fun executor margin positions books r => ?_⟩
  have hreaches : Reaches m far (books.insert m book) (books.insert m wide) := by
    rw [hwide]
    exact .of_insert books hunder
  exact liquidateAndCross_alike hreaches hfar

end

/-- A market where orders trade between ten and thirty, and liquidations between eighteen and
twenty-two. -/
def bandedMarket : Configuration :=
  { oneMarket.configuration with
    acceptableBounds := fun _ => ⟨30000000, 10000000⟩
    liquidationBounds := fun _ => ⟨22000000, 18000000⟩ }

/-- A limit order of the first block for one unit, at some price. -/
def unitAt (id : UInt8) (size price : Amount) : Order :=
  .place (Bytes.ofList 32 [id]) (.limit ⟨⟨0, Bytes.zero 20, size, price, 0, false⟩, false⟩) 1

/-- A bid at twenty-five, and offers at twenty-one, at twenty-four and at twenty-six. -/
def ladder : Store :=
  (((Store.empty.add (unitAt 1 1 25000000)).add (unitAt 2 (.clamp (-1)) 21000000)).add
    (unitAt 3 (.clamp (-1)) 24000000)).add (unitAt 4 (.clamp (-1)) 26000000)

/-- A position of one unit to be bought back. -/
def oneUnitShort : LiquidablePosition := ⟨Bytes.ofWord 20 2, 0, .short, 1, 0, 0⟩

/-- The first offer absorbs a liquidation and the second is matched, whether or not the third is
there. -/
theorem offer_beyond_short_bound_untouched :
    ∃ wide book far books books' r', ladder.wideBook bandedMarket 0 2 0 [] = .ok wide ∧
      ladder.workingBook bandedMarket 0 2 0 [] = .ok book ∧
      wide = ⟨book.longs, book.shorts ++ far⟩ ∧ far.map Order.price = [26000000] ∧
      (liquidateAndCross Desk.executor ⟨0, 0⟩ bandedMarket 0 [oneUnitShort]
        ((∅ : Map MarketId WorkingBook).insert 0 book)).run (.start ∅ default default) =
          .ok books r' ∧
      (liquidateAndCross Desk.executor ⟨0, 0⟩ bandedMarket 0 [oneUnitShort]
        ((∅ : Map MarketId WorkingBook).insert 0 wide)).run (.start ∅ default default) =
          .ok books' r' ∧
      Widens 0 far books books' ∧ r'.journal.map Receipt.accepted = [true, true] := by
  have hi : ladder.Indexed := (((Store.indexed_empty.add _).add _).add _).add _
  have hplaced {t : Store} (ht : t.InBounds) (id : UInt8) (size price : Amount) :
      (t.add (unitAt id size price)).InBounds := ht.add (Order.inBounds_place ..)
  have hb : ladder.InBounds :=
    hplaced (hplaced (hplaced (hplaced Store.inBounds_empty 1 _ _) 2 _ _) 3 _ _) 4 _ _
  have hrun : (match ladder.wideBook bandedMarket 0 2 0 [] with
    | .ok wide =>
      match ladder.workingBook bandedMarket 0 2 0 [] with
      | .ok book =>
        match (liquidateAndCross Desk.executor ⟨0, 0⟩ bandedMarket 0 [oneUnitShort]
          ((∅ : Map MarketId WorkingBook).insert 0 wide)).run (.start ∅ default default) with
        | .ok _ r => ((wide.shorts.drop book.shorts.length).map Order.price,
            r.journal.map Receipt.accepted)
        | .error _ _ => ([], [])
      | .error _ => ([], [])
    | .error _ => ([], [])) = ([26000000], [true, true]) := by decide +kernel
  split at hrun
  next wide hw =>
    obtain ⟨book, far, hbook, hwide, halike⟩ :=
      short_bound_loses_nothing hi hb (by decide +kernel) hw
    have halike := halike Desk.executor ⟨0, 0⟩ [oneUnitShort] ∅ (.start ∅ default default)
    rw [hbook] at hrun
    dsimp only at hrun
    split at hrun
    next books' r' hx =>
      obtain ⟨hfar, haccepted⟩ := Prod.mk.inj hrun
      rw [hwide, List.drop_left] at hfar
      rw [hx] at halike
      generalize hy : (liquidateAndCross Desk.executor ⟨0, 0⟩ bandedMarket 0 [oneUnitShort]
        ((∅ : Map MarketId WorkingBook).insert 0 book)).run (.start ∅ default default) = p at halike
      cases halike with
      | ok h => exact ⟨wide, book, far, _, books', r', hw, hbook, hwide, hfar, hy, hx, h, haccepted⟩
    next => cases hrun
  next => cases hrun

end PerpExchange
