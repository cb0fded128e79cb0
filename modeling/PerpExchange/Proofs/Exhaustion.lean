import Mathlib.Data.List.Pairwise
import PerpExchange.Proofs.Takings

/-! Liquidation uses up what it may use. Orders that earlier positions have used up are dropped in
between, so books are followed by what the journal says of each order they began with. -/
namespace PerpExchange
open BookEntry (Before ofOrder)

/-- What liquidations leave of orders: some that are used up are dropped, and the others are filled
by what the journal says. -/
inductive Remains (journal : List Receipt) : List Order → List Order → Prop
  | nil : Remains journal [] []
  | keep {o w : Order} {orders kept : List Order} (ho : o.Serves journal w)
    (h : Remains journal orders kept) : Remains journal (o :: orders) (w :: kept)
  | drop {o : Order} {orders kept : List Order} (h0 : filledBy o.id journal = o.openSize)
    (h : Remains journal orders kept) : Remains journal (o :: orders) kept

namespace Remains
variable {j j' : List Receipt} {orders kept kept' : List Order} {o w : Order}

theorem of_forall₂ (h : List.Forall₂ (Order.Serves j) orders kept) : Remains j orders kept := by
  induction h with
  | nil => exact .nil
  | cons ho _ ih => exact .keep ho ih

theorem refl (hw : ∀ o ∈ orders, o.FilledWithin o.side) : Remains [] orders orders :=
  of_forall₂ (List.forall₂_same.mpr fun o ho => .of_untouched (hw o ho) rfl)

/-- Pruning drops only what is used up. -/
theorem filter (h : Remains j orders kept) :
    Remains j orders (kept.filter fun o => o.openSize ≠ 0) := by
  induction h with
  | nil => exact .nil
  | drop h0 _ ih => exact .drop h0 ih
  | @keep o w _ _ ho _ ih =>
    rw [List.filter_cons]
    split
    next => exact .keep ho ih
    next hused =>
      have hused : w.openSize = 0 := by simpa using hused
      have hsize := ho.openSize_eq
      exact .drop (by omega) ih

theorem of_filledBy_eq (h : Remains j orders kept)
    (hj : ∀ o ∈ orders, filledBy o.id j' = filledBy o.id j) : Remains j' orders kept := by
  induction h with
  | nil => exact .nil
  | drop h0 _ ih =>
    obtain ⟨ho, hj⟩ := List.forall_mem_cons.mp hj
    exact .drop (ho.trans h0) (ih hj)
  | keep hs _ ih =>
    obtain ⟨ho, hj⟩ := List.forall_mem_cons.mp hj
    exact .keep (hs.of_filledBy_eq ho) (ih hj)

theorem ids_sublist (h : Remains j orders kept) :
    (kept.map Order.id).Sublist (orders.map Order.id) := by
  induction h with
  | nil => exact .slnil
  | drop _ _ ih => exact ih.cons _
  | keep ho _ ih =>
    rw [List.map_cons, List.map_cons, ho.id_eq]
    exact ih.cons_cons _

theorem distinctIds (h : Remains j orders kept) (hid : DistinctIds orders) : DistinctIds kept :=
  List.pairwise_map.mp (hid.nodup.sublist h.ids_sublist)

theorem exists_of_mem (h : Remains j orders kept) (hw : w ∈ kept) : ∃ o ∈ orders, o.Serves j w := by
  induction h with
  | nil => cases hw
  | drop _ _ ih =>
    obtain ⟨o, ho, hs⟩ := ih hw
    exact ⟨o, List.mem_cons_of_mem _ ho, hs⟩
  | keep hs _ ih =>
    rcases List.mem_cons.mp hw with rfl | hw
    · exact ⟨_, List.mem_cons_self, hs⟩
    · obtain ⟨o, ho, hs⟩ := ih hw
      exact ⟨o, List.mem_cons_of_mem _ ho, hs⟩

theorem within (h : Remains j orders kept) : ∀ w ∈ kept, w.FilledWithin w.side := by
  intro w hw
  obtain ⟨o, -, hs⟩ := h.exists_of_mem hw
  exact hs.within

/-- Orders stay sorted by their prices. -/
theorem sorted {R : Amount → Amount → Prop} (h : Remains j orders kept)
    (hs : orders.Pairwise fun o v => R o.price v.price) :
    kept.Pairwise fun o v => R o.price v.price := by
  induction h with
  | nil => exact .nil
  | drop _ _ ih => exact ih (List.pairwise_cons.mp hs).2
  | keep ho hrest ih =>
    obtain ⟨hfirst, hs⟩ := List.pairwise_cons.mp hs
    refine List.pairwise_cons.mpr ⟨fun w hw => ?_, ih hs⟩
    obtain ⟨v, hv, hserves⟩ := hrest.exists_of_mem hw
    rw [ho.price_eq, hserves.price_eq]
    exact hfirst v hv

/-- An order is used up and dropped, or it is kept, and before the same orders. -/
theorem mem_cases (h : Remains j orders kept) (hid : DistinctIds orders) (ho : o ∈ orders) :
    (filledBy o.id j = o.openSize ∧ o.id ∉ kept.map Order.id) ∨
      ∃ w ∈ kept, o.Serves j w ∧ ∀ id, o ∈ ahead id orders → w ∈ ahead id kept := by
  induction h with
  | nil => cases ho
  | @drop q orders kept h0 hrest ih =>
    rcases List.mem_cons.mp ho with rfl | ho
    · exact .inl ⟨h0, fun hm => hid.head_not_mem (hrest.ids_sublist.subset hm)⟩
    · have hne := (List.pairwise_cons.mp hid).1 o ho
      refine (ih (List.pairwise_cons.mp hid).2 ho).imp_right ?_
      rintro ⟨w, hw, hs, hahead⟩
      refine ⟨w, hw, hs, fun id hm => ?_⟩
      obtain ⟨-, rfl | hm⟩ := mem_ahead_cons hm
      · exact absurd rfl hne
      · exact hahead id hm
  | @keep q u orders kept hq hrest ih =>
    rcases List.mem_cons.mp ho with rfl | ho
    · refine .inr ⟨u, List.mem_cons_self, hq, fun id hm => ?_⟩
      rw [ahead_cons (hq.id_eq ▸ (mem_ahead_cons hm).1)]
      exact List.mem_cons_self
    · have hne := (List.pairwise_cons.mp hid).1 o ho
      rcases ih (List.pairwise_cons.mp hid).2 ho with ⟨h0, hnot⟩ | ⟨w, hw, hs, hahead⟩
      · refine .inl ⟨h0, fun hm => ?_⟩
        rcases List.mem_cons.mp hm with he | hm
        · exact hne (hq.id_eq.symm.trans he.symm)
        · exact hnot hm
      · refine .inr ⟨w, List.mem_cons_of_mem _ hw, hs, fun id hm => ?_⟩
        obtain ⟨hid', rfl | hm⟩ := mem_ahead_cons hm
        · exact absurd rfl hne
        · rw [ahead_cons (hq.id_eq ▸ hid')]
          exact List.mem_cons_of_mem _ (hahead id hm)

/-- Some liquidations, and then some more, which fill no order that is dropped. -/
theorem trans (h : Remains j orders kept) (h' : Remains j' kept kept') (hid : DistinctIds orders)
    (hj : ∀ o ∈ orders, o.id ∉ kept.map Order.id → filledBy o.id j' = 0) :
    Remains (j ++ j') orders kept' := by
  induction h generalizing kept' with
  | nil => exact h'.of_filledBy_eq fun _ ho => absurd ho List.not_mem_nil
  | @drop o orders kept h0 hrest ih =>
    obtain ⟨ho, hj⟩ := List.forall_mem_cons.mp hj
    have hnot : o.id ∉ kept.map Order.id := fun hm =>
      hid.head_not_mem (hrest.ids_sublist.subset hm)
    refine .drop ?_ (ih h' (List.pairwise_cons.mp hid).2 hj)
    rw [filledBy_append, h0, ho hnot, Int.add_zero]
  | @keep o w orders kept hs _ ih =>
    obtain ⟨hne, hid⟩ := List.pairwise_cons.mp hid
    have hlater : ∀ v ∈ orders, v.id ∉ kept.map Order.id → filledBy v.id j' = 0 := by
      intro v hv hnot
      refine hj v (List.mem_cons_of_mem _ hv) fun hm => ?_
      rcases List.mem_cons.mp hm with he | hm
      · exact hne v hv (hs.id_eq.symm.trans he.symm)
      · exact hnot hm
    cases h' with
    | keep hs' h' => exact .keep (hs.append hs') (ih h' hid hlater)
    | drop h0 h' =>
      refine .drop ?_ (ih h' hid hlater)
      have hsize := hs.openSize_eq
      rw [hs.id_eq] at h0
      rw [filledBy_append]
      omega

end Remains

/-- Books whose orders have ids of their own, also those of different lists. -/
structure DistinctBooks (books : Map MarketId WorkingBook) : Prop where
  lists : ∀ {m : MarketId} {b : WorkingBook}, books[m]? = some b → ∀ side, DistinctIds (b.side side)
  apart : ∀ {m m' : MarketId} {b b' : WorkingBook}, books[m]? = some b → books[m']? = some b' →
    ∀ {side side' : Side}, (m, side) ≠ (m', side') → ∀ o ∈ b.side side,
      o.id ∉ (b'.side side').map Order.id

/-- Books after liquidations, list by list. -/
def BooksRemain (journal : List Receipt) (books books' : Map MarketId WorkingBook) : Prop :=
  ∀ m : MarketId, Option.Rel
    (fun b b' : WorkingBook => ∀ side, Remains journal (b.side side) (b'.side side))
    books[m]? books'[m]?

section
variable {books books₁ books₂ : Map MarketId WorkingBook} {m : MarketId} {b b₁ b₂ : WorkingBook}
variable {side : Side} {j j' : List Receipt}

theorem DistinctIds.distinctBooks (h : DistinctIds (allOrders books.toList)) :
    DistinctBooks books := by
  obtain ⟨hbooks, hapart⟩ := List.pairwise_flatMap.mp h
  have hentry : ∀ {m : MarketId} {b : WorkingBook}, books[m]? = some b → (m, b) ∈ books.toList :=
    Std.ExtTreeMap.mem_toList_iff_getElem?_eq_some.mpr
  have hside : ∀ {b : WorkingBook} {side : Side}, b.side side ⊆ b.longs ++ b.shorts := by
    intro b side
    cases side with
    | long => exact List.subset_append_left _ _
    | short => exact List.subset_append_right _ _
  constructor
  · intro m b hb side
    obtain ⟨hlongs, hshorts, -⟩ := List.pairwise_append.mp (hbooks _ (hentry hb))
    cases side with
    | long => exact hlongs
    | short => exact hshorts
  · intro m m' b b' hb hb' side side' hne o ho
    refine not_mem_ids fun v hv he => ?_
    by_cases hm : (m, b) = (m', b')
    · cases hm
      obtain ⟨-, -, hfar⟩ := List.pairwise_append.mp (hbooks _ (hentry hb))
      match side, side' with
      | .long, .long | .short, .short => exact hne rfl
      | .long, .short => exact hfar o ho v hv he.symm
      | .short, .long => exact hfar v hv o ho he
    · have : Std.Symm fun x y : MarketId × WorkingBook =>
          ∀ o ∈ x.2.longs ++ x.2.shorts, ∀ v ∈ y.2.longs ++ y.2.shorts, o.id ≠ v.id :=
        ⟨fun _ _ hxy o ho v hv => (hxy v hv o ho).symm⟩
      exact hapart.forall (hentry hb) (hentry hb') hm o (hside ho) v (hside hv) he.symm

namespace BooksRemain

theorem refl (hw : ∀ o ∈ allOrders books.toList, o.FilledWithin o.side) :
    BooksRemain [] books books := by
  intro m
  cases hb : books[m]? with
  | none => exact .none
  | some b =>
    refine .some fun side => .refl fun o ho => hw o (List.mem_flatMap.mpr ⟨(m, b), ?_, ?_⟩)
    · exact Std.ExtTreeMap.mem_toList_iff_getElem?_eq_some.mpr hb
    · cases side with
      | long => exact List.mem_append_left _ ho
      | short => exact List.mem_append_right _ ho

theorem book (h : BooksRemain j books books₁) (hb₁ : books₁[m]? = some b₁) :
    ∃ b, books[m]? = some b ∧ ∀ side, Remains j (b.side side) (b₁.side side) := by
  have hm := h m
  rw [hb₁] at hm
  cases hb : books[m]? with
  | none =>
    rw [hb] at hm
    cases hm
  | some b =>
    rw [hb] at hm
    cases hm with
    | some hs => exact ⟨b, rfl, hs⟩

theorem distinctBooks (h : BooksRemain j books books₁) (hd : DistinctBooks books) :
    DistinctBooks books₁ where
  lists := by
    intro m b₁ hb₁ side
    obtain ⟨b, hb, hr⟩ := h.book hb₁
    exact (hr side).distinctIds (hd.lists hb side)
  apart := by
    intro m m' b₁ b₁' hb₁ hb₁' side side' hne w hw hm
    obtain ⟨b, hb, hr⟩ := h.book hb₁
    obtain ⟨b', hb', hr'⟩ := h.book hb₁'
    obtain ⟨o, ho, hs⟩ := (hr side).exists_of_mem hw
    rw [hs.id_eq] at hm
    exact hd.apart hb hb' hne o ho ((hr' side').ids_sublist.subset hm)

/-- Liquidations in one list of a book fill nothing in the others. -/
theorem insert (h : BooksRemain j books books₁) (hd : DistinctBooks books)
    (hb₁ : books₁[m]? = some b₁) (hs : ∀ side, Remains j' (b₁.side side) (b₂.side side))
    (hj : ∀ id, id ∉ (b₁.side side).map Order.id → filledBy id j' = 0) :
    BooksRemain (j ++ j') books (books₁.insert m b₂) := by
  obtain ⟨b, hb, hr⟩ := h.book hb₁
  have hother : ∀ {m' : MarketId} {b' : WorkingBook} {side' : Side}, books[m']? = some b' →
      (m', side') ≠ (m, side) → ∀ o ∈ b'.side side', filledBy o.id j' = 0 := by
    intro m' b' side' hb' hne o ho
    exact hj o.id fun hm => hd.apart hb' hb hne o ho ((hr side).ids_sublist.subset hm)
  intro m'
  rw [Map.getElem?_insert_key]
  split
  next hm =>
    subst hm
    rw [hb]
    refine .some fun side' => (hr side').trans (hs side') (hd.lists hb side') fun o ho hnot => ?_
    by_cases hside : side' = side
    · exact hj o.id (hside ▸ hnot)
    · exact hother hb (fun he => hside (Prod.mk.inj he).2) o ho
  next hm =>
    have hbook := h m'
    generalize books₁[m']? = left at hbook ⊢
    cases hb' : books[m']? with
    | none =>
      rw [hb'] at hbook
      cases hbook
      exact .none
    | some b' =>
      rw [hb'] at hbook
      cases hbook with
      | some hbook =>
        refine .some fun side' => (hbook side').of_filledBy_eq fun o ho => ?_
        rw [filledBy_append, hother hb' (fun he => hm (Prod.mk.inj he).1.symm) o ho, Int.add_zero]

end BooksRemain
end

section
variable {σ : Type} {t : LiquidationTerms σ} {p : LiquidablePosition} {r r' : RunState σ}
variable {books books' books₁ : Map MarketId WorkingBook} {b : WorkingBook} {j : List Receipt}

/-- A position is offered to the orders on its side of the book, and then the book is pruned. -/
theorem liquidate_takes (h : (liquidate t p books).run r = .ok books' r') (hp : p.Fresh)
    (hd : DistinctBooks books) (hb : books[p.market]? = some b)
    (hw : ∀ side, ∀ o ∈ b.side side, o.FilledWithin o.side) :
    ∃ j b' a' orders, books' = books.insert p.market b' ∧
      (∀ side, Remains j (b.side side) (b'.side side)) ∧
      Names ((b.side p.side).map Order.id) j r r' ∧
      Takes (t.bounds p.market) p r.skipped p.size.toInt (b.side p.side) j a' orders := by
  obtain ⟨h0, hfilled⟩ := hp
  unfold liquidate at h
  obtain ⟨remaining, _, hx, h⟩ := RunM.bind_ok.mp h
  obtain ⟨hremaining, rfl⟩ := RunM.lift_ok.mp hx
  have hsize : remaining.toInt = p.size.toInt := by
    rw [Amount.sub_eq_ok_iff.mp hremaining, hfilled, Amount.toInt_zero, Int.sub_zero]
  rw [hb] at h
  obtain ⟨⟨left, orders⟩, r₁, habsorb, h⟩ := RunM.bind_ok.mp h
  obtain ⟨b', _, hx, h⟩ := RunM.bind_ok.mp h
  obtain ⟨hprune, rfl⟩ := RunM.lift_ok.mp hx
  obtain ⟨rfl, rfl⟩ := RunM.pure_ok.mp h
  obtain ⟨j, htakes, hnames⟩ := (absorbs_of_run habsorb).takes (hsize ▸ h0) (hw p.side)
  refine ⟨j, b', left.toInt, orders, rfl, fun side => ?_, hnames, hsize ▸ htakes⟩
  have hremains : Remains j (b.side side) ((b.withSide p.side orders).side side) := by
    rw [WorkingBook.side_withSide]
    split
    next hside =>
      rw [hside]
      exact .of_forall₂ (htakes.serves (hw p.side) (hd.lists hb p.side))
    next hside =>
      refine (Remains.refl (hw side)).of_filledBy_eq fun o ho => ?_
      refine hnames.filledBy_eq_zero (hd.apart hb hb (fun he => hside ?_) o ho)
      exact (Prod.mk.inj he).2
  have hopen := WorkingBook.prune_eq_ok hprune side
  rw [openOrders_of_unfilled fun o ho => (hremains.within o ho).exists_unfilled] at hopen
  rw [← Except.ok.inj hopen]
  exact hremains.filter

theorem liquidate_of_none (h : (liquidate t p books).run r = .ok books' r')
    (hb : books[p.market]? = none) : books' = books ∧ r' = r := by
  unfold liquidate at h
  obtain ⟨remaining, _, hx, h⟩ := RunM.bind_ok.mp h
  obtain ⟨-, rfl⟩ := RunM.lift_ok.mp hx
  rw [hb] at h
  obtain ⟨rfl, rfl⟩ := RunM.pure_ok.mp h
  exact ⟨rfl, rfl⟩

theorem BooksRemain.liquidate (h : BooksRemain j books books₁) (hd : DistinctBooks books)
    (hp : p.Fresh) (hrun : (liquidate t p books₁).run r = .ok books' r') :
    ∃ j', BooksRemain (j ++ j') books books' ∧ r'.journal = r.journal ++ j' := by
  cases hb₁ : books₁[p.market]? with
  | none =>
    obtain ⟨rfl, rfl⟩ := liquidate_of_none hrun hb₁
    exact ⟨[], by rwa [List.append_nil], (List.append_nil _).symm⟩
  | some b₁ =>
    obtain ⟨b, -, hr⟩ := h.book hb₁
    obtain ⟨j', b', _, _, rfl, hs, hnames, -⟩ := liquidate_takes hrun hp (h.distinctBooks hd) hb₁
      fun side => (hr side).within
    exact ⟨j', h.insert hd hb₁ hs fun id hid => hnames.filledBy_eq_zero hid, hnames.journal_eq⟩

theorem BooksRemain.liquidateAll {positions : List LiquidablePosition}
    (h : BooksRemain j books books₁) (hd : DistinctBooks books) (hp : ∀ p ∈ positions, p.Fresh)
    (hrun : (liquidateAll t positions books₁).run r = .ok books' r') :
    ∃ j', BooksRemain (j ++ j') books books' ∧ r'.journal = r.journal ++ j' := by
  induction positions generalizing books₁ r j with
  | nil =>
    obtain ⟨rfl, rfl⟩ := RunM.pure_ok.mp hrun
    exact ⟨[], by rwa [List.append_nil], (List.append_nil _).symm⟩
  | cons p rest ih =>
    obtain ⟨hp, hrest⟩ := List.forall_mem_cons.mp hp
    obtain ⟨books₂, r₂, hfirst, hrun⟩ := RunM.bind_ok.mp hrun
    obtain ⟨j', h', hj'⟩ := h.liquidate hd hp hfirst
    obtain ⟨j'', h'', hj''⟩ := ih h' hrest hrun
    refine ⟨j' ++ j'', ?_, ?_⟩
    · rwa [← List.append_assoc]
    · rw [hj'', hj', List.append_assoc]

theorem liquidateAll_append (t : LiquidationTerms σ) (front back : List LiquidablePosition)
    (books : Map MarketId WorkingBook) :
    liquidateAll t (front ++ back) books = liquidateAll t front books >>= liquidateAll t back := by
  induction front generalizing books with
  | nil => rw [List.nil_append, liquidateAll, pure_bind]
  | cons p front ih =>
    rw [List.cons_append, liquidateAll, liquidateAll, bind_assoc]
    exact bind_congr ih

/-- How a position fares against the orders on its side of a book, some of which have served earlier
positions by then. Those that sit out do so when the turn of the position comes. -/
structure UsesUp (bounds : PriceBounds) (p : LiquidablePosition) (orders kept : List Order)
    (earlier journal : List Receipt) (r : RunState σ) : Prop where
  /-- All that is submitted is for the position. -/
  liquidates : ∀ x ∈ journal, ∃ o fill, x.submission = .liquidate p.trader o fill
  /-- No order is lost. -/
  remains : Remains (earlier ++ journal) orders kept
  /-- If nothing is refused, the position is taken up, or what may serve it is used up. -/
  all_or_used_up : (∀ x ∈ journal, x.accepted) → absorbed journal = p.size.toInt ∨
    ∀ o ∈ orders, ¬ bounds.excludes p.side o.price → ¬ r.isSkipped o → o.isMarginExempt →
      filledBy o.id (earlier ++ journal) = o.openSize
  /-- Whoever serves it comes after what may serve it first. -/
  in_turn : ∀ before o fill after,
    journal = before ++ ⟨.liquidate p.trader o fill, true⟩ :: after →
      (∃ v ∈ orders, o = { v with filled := o.filled }) ∧
      ∀ v ∈ ahead o.id orders, ¬ r.isSkipped v → v.isMarginExempt →
        filledBy v.id (earlier ++ before) = v.openSize

/-- A price beyond the bound is followed by none within it. -/
theorem sorted_excludes {orders : List Order} (bounds : PriceBounds) (side : Side)
    (h : (orders.map ofOrder).Pairwise (Before side)) :
    orders.Pairwise fun o v => bounds.excludes side o.price → bounds.excludes side v.price := by
  refine (List.pairwise_map.mp h).imp fun {o v} hb hex => ?_
  cases side with
  | long =>
    have hle : v.price.toInt ≤ o.price.toInt := hb.price_le
    have hex : o.price.toInt < bounds.lower.toInt := of_decide_eq_true hex
    exact decide_eq_true (show v.price.toInt < bounds.lower.toInt by omega)
  | short =>
    have hle : o.price.toInt ≤ v.price.toInt := hb.le_price
    have hex : bounds.upper.toInt < o.price.toInt := of_decide_eq_true hex
    exact decide_eq_true (show bounds.upper.toInt < v.price.toInt by omega)

/-- What orders that earlier positions have left take of one, said of the orders as they were. -/
theorem Takes.usesUp {bounds : PriceBounds} {a' : Int} {orders kept kept' left : List Order}
    {earlier : List Receipt} (h : Takes bounds p r.skipped p.size.toInt kept j a' left)
    (hr : Remains earlier orders kept) (hr' : Remains j kept kept') (hid : DistinctIds orders)
    (hsorted : (orders.map ofOrder).Pairwise (Before p.side)) :
    UsesUp bounds p orders kept' earlier j r := by
  have hnone : ∀ id, id ∉ kept.map Order.id → filledBy id j = 0 := fun id hnot =>
    filledBy_of_unnamed (h.others hnot)
  have hskip : ∀ {o w : Order}, o.Serves earlier w → ¬ r.isSkipped o → w.id ∉ r.skipped := by
    intro o w hs hnot hm
    exact hnot (Std.ExtTreeSet.contains_iff_mem.mpr (hs.id_eq ▸ hm))
  refine ⟨h.liquidates, hr.trans hr' hid fun o _ hnot => hnone o.id hnot, fun hall => ?_, ?_⟩
  · have hleft := h.left_eq
    have hsorted' := hr.sorted (R := fun x y => bounds.excludes p.side x → bounds.excludes p.side y)
      (sorted_excludes bounds p.side hsorted)
    refine (h.used_up (hr.distinctIds hid) hsorted' hall).imp (fun h0 => by omega) ?_
    intro hused o ho hin hnot hexempt
    rw [filledBy_append]
    rcases hr.mem_cases hid ho with ⟨hfull, hgone⟩ | ⟨w, hw, hs, -⟩
    · rw [hfull, hnone o.id hgone, Int.add_zero]
    · have hserved := hused w hw (hs.price_eq ▸ hin) (hskip hs hnot)
        (hs.isMarginExempt_eq ▸ hexempt)
      rw [hs.openSize_eq, hs.id_eq] at hserved
      omega
  · intro before o fill after hj
    obtain ⟨ho, hahead⟩ := h.in_turn (hr.distinctIds hid) hj
    obtain ⟨v, hv, hs⟩ := hr.exists_of_mem ho
    refine ⟨⟨v, hv, hs.copy⟩, fun v hv hnot hexempt => ?_⟩
    rw [filledBy_append]
    rcases hr.mem_cases hid (mem_of_mem_ahead hv) with ⟨hfull, hgone⟩ | ⟨w, -, hs, hw⟩
    · have h0 : filledBy v.id before = 0 := filledBy_of_unnamed fun x hx =>
        h.others hgone x (hj ▸ List.mem_append_left _ hx)
      rw [hfull, h0, Int.add_zero]
    · have hserved := hahead w (hw o.id hv) (hskip hs hnot) (hs.isMarginExempt_eq ▸ hexempt)
      rw [hs.openSize_eq, hs.id_eq] at hserved
      omega

/-- Liquidations leave no position open that the orders they may use could still have closed, and
pass none of these orders by. -/
theorem liquidations_use_up {front back : List LiquidablePosition}
    (hp : ∀ q ∈ front ++ p :: back, q.Fresh)
    (hw : ∀ o ∈ allOrders books.toList, o.FilledWithin o.side)
    (hid : DistinctIds (allOrders books.toList)) (hb : books[p.market]? = some b)
    (hsorted : ((b.side p.side).map ofOrder).Pairwise (Before p.side))
    (h : (liquidateAll t (front ++ p :: back) books).run r = .ok books' r') :
    ∃ books₁ r₁ books₂ r₂ b₂ earlier j,
      (liquidateAll t front books).run r = .ok books₁ r₁ ∧
      (liquidate t p books₁).run r₁ = .ok books₂ r₂ ∧
      (liquidateAll t back books₂).run r₂ = .ok books' r' ∧
      r₁.journal = r.journal ++ earlier ∧ r₂.journal = r₁.journal ++ j ∧
      books₂[p.market]? = some b₂ ∧
      UsesUp (t.bounds p.market) p (b.side p.side) (b₂.side p.side) earlier j r₁ := by
  obtain ⟨hfront, hrest⟩ := List.forall_mem_append.mp hp
  rw [liquidateAll_append] at h
  obtain ⟨books₁, r₁, hfirst, h⟩ := RunM.bind_ok.mp h
  obtain ⟨books₂, r₂, hsecond, h⟩ := RunM.bind_ok.mp h
  have hd := hid.distinctBooks
  obtain ⟨earlier, hremain, hj₁⟩ := (BooksRemain.refl hw).liquidateAll hd hfront hfirst
  have hbook := hremain p.market
  rw [hb] at hbook
  cases hb₁ : books₁[p.market]? with
  | none => rw [hb₁] at hbook; cases hbook
  | some b₁ =>
    rw [hb₁] at hbook
    cases hbook with
    | some hr =>
      obtain ⟨j, b₂, a', left, rfl, hs, hnames, htakes⟩ := liquidate_takes hsecond
        (hrest p List.mem_cons_self) (hremain.distinctBooks hd) hb₁ fun side => (hr side).within
      refine ⟨books₁, r₁, _, r₂, b₂, [] ++ earlier, j, hfirst, hsecond, h, hj₁, hnames.journal_eq,
        ?_, htakes.usesUp (hr p.side) (hs p.side) (hd.lists hb p.side) hsorted⟩
      rw [Map.getElem?_insert_key, if_pos rfl]

end

/-- An order to buy some units. -/
def bid (id : UInt64) (units price : Int) (raw : OrderTerms → RawOrder) : Order :=
  .place (Bytes.ofWord 32 id) (raw ⟨0, Bytes.ofWord 20 1, .clamp (units * 1000000000000000000),
    .clamp (price * 1000000), 0, false⟩) 1

/-- Of these bids the first will be refused, the third is of a trader without margin, and the last
is below the bound. -/
def bids : WorkingBook where
  longs :=
    let limit (t : OrderTerms) : RawOrder := .limit ⟨t, false⟩
    let ioc (t : OrderTerms) : RawOrder := .ioc ⟨t, 9⟩
    [bid 1 2 10 limit, bid 2 3 9 limit, bid 3 4 8 ioc, bid 4 5 7 limit, bid 5 2 1 limit]
  shorts := []

/-- A long position to be sold. -/
def sold (units : Int) : LiquidablePosition :=
  ⟨Bytes.ofWord 20 2, 0, .long, .clamp (units * 1000000000000000000), 0, 0⟩

def bidTerms : LiquidationTerms Desk :=
  ⟨Desk.executor, ⟨200000, 500⟩, fun _ => ⟨20000000, 2000000⟩⟩

def bidBooks : Map MarketId WorkingBook := (∅ : Map MarketId WorkingBook).insert 0 bids

def bidStart : RunState Desk :=
  .start ∅ default { (default : Desk) with refusedOrders := [Bytes.ofWord 32 1] }

/-- The first position is refused, the second takes the second bid and a unit of the fourth, and the
third gets the other four units, which is all there is for it. -/
theorem bids_used_up_by_third_position :
    ∃ books₁ r₁ books₂ r₂ earlier j,
      (liquidateAll bidTerms [sold 1, sold 4] bidBooks).run bidStart = .ok books₁ r₁ ∧
      (liquidate bidTerms (sold 10) books₁).run r₁ = .ok books₂ r₂ ∧
      r₁.journal = earlier ∧ r₂.journal = earlier ++ j ∧
      j.map Receipt.accepted = [true] ∧ absorbed j = 4000000000000000000 ∧
      ∀ o ∈ bids.longs, ¬ (bidTerms.bounds 0).excludes .long o.price → ¬ r₁.isSkipped o →
        o.isMarginExempt → filledBy o.id (earlier ++ j) = o.openSize := by
  have hcompletes : (match (liquidateAll bidTerms ([sold 1, sold 4] ++ sold 10 :: [])
      bidBooks).run bidStart with
    | .ok _ _ => true
    | .error _ _ => false) = true := by decide +kernel
  have hparts : (match (liquidateAll bidTerms [sold 1, sold 4] bidBooks).run bidStart with
    | .ok books₁ r₁ =>
      match (liquidate bidTerms (sold 10) books₁).run r₁ with
      | .ok _ r₂ => some (r₂.journal.drop r₁.journal.length)
      | .error _ _ => none
    | .error _ _ => none).map (fun j : List Receipt => (j.map Receipt.accepted, absorbed j)) =
      some ([true], 4000000000000000000) := by decide +kernel
  have hfresh : ∀ q ∈ [sold 1, sold 4] ++ sold 10 :: [], q.Fresh :=
    List.forall_mem_cons.mpr ⟨⟨by decide, rfl⟩, List.forall_mem_cons.mpr ⟨⟨by decide, rfl⟩,
      List.forall_mem_singleton.mpr ⟨by decide, rfl⟩⟩⟩
  have hbook : bidBooks[(0 : MarketId)]? = some bids := Map.getElem?_insert_key.trans (if_pos rfl)
  split at hcompletes
  next books' r' h =>
    obtain ⟨books₁, r₁, books₂, r₂, b₂, earlier, j, hfirst, hsecond, -, hj₁, hj, -, huses⟩ :=
      liquidations_use_up hfresh (by decide +kernel) (by decide +kernel)
        hbook (by decide +kernel) h
    rw [hfirst] at hparts
    dsimp only at hparts
    rw [hsecond] at hparts
    dsimp only at hparts
    rw [hj, List.drop_left] at hparts
    obtain ⟨haccepted, habsorbed⟩ := Prod.mk.inj (Option.some.inj hparts)
    have hall : ∀ x ∈ j, x.accepted := by
      intro x hx
      have hmem := List.mem_map_of_mem (f := Receipt.accepted) hx
      rw [haccepted] at hmem
      exact List.mem_singleton.mp hmem
    have hearlier : r₁.journal = earlier := hj₁
    refine ⟨books₁, r₁, books₂, r₂, earlier, j, hfirst, hsecond, hearlier, hearlier ▸ hj, haccepted,
      habsorbed, ?_⟩
    refine (huses.all_or_used_up hall).resolve_left fun hsize => ?_
    rw [habsorbed] at hsize
    exact absurd hsize (by decide)
  next => cases hcompletes

end PerpExchange
