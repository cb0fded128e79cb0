import PerpExchange.Proofs.Stages
import PerpExchange.Proofs.Turns

/-! Shorts that are priced beyond all that a run can use of them might as well not be there: nothing
is submitted of them, and no other order is treated differently for them. -/
namespace PerpExchange

section
variable {σ : Type} {r r' : RunState σ} {far : List Order}

/-- Orders that are too expensive are not offered to. -/
theorem absorb_alike_append {t : LiquidationTerms σ} {p : LiquidablePosition} {a : Amount}
    {orders : List Order} (hfar : ∀ f ∈ far, (t.bounds p.market).excludes p.side f.price) :
    RunM.Alike (fun x y => y = (x.1, x.2 ++ far)) ((absorb t p a orders).run r)
      ((absorb t p a (orders ++ far)).run r) := by
  induction orders generalizing a r with
  | nil =>
    cases far with
    | nil => exact .ok rfl
    | cons f far =>
      rw [List.nil_append]
      unfold absorb
      split
      · exact .ok rfl
      · rw [if_pos (hfar f List.mem_cons_self)]
        exact .ok rfl
  | cons o rest ih =>
    rw [List.cons_append, absorb_cons, absorb_cons]
    apply RunM.alike_bind
    rintro ⟨a₁, o₁, on⟩ r₁ -
    cases on with
    | true =>
      apply ih.bind
      rintro ⟨a₂, rest₂⟩ _ r₂ rfl -
      exact .ok rfl
    | false => exact .ok rfl

/-- A turn fills a long no further than its size, and leaves its price. -/
theorem crossTurn_long {t : MatchTerms σ} {long long' short short' : Order} {on : Bool}
    (h : (crossTurn t long short).run r = .ok (long', short', on) r')
    (hl : long.FilledWithin .long) : long'.FilledWithin .long ∧ long'.price = long.price := by
  rcases crossTurn_cases h with ⟨rfl, rfl, rfl⟩ | ⟨-, result, htrades, hafter, -⟩
  · exact ⟨hl, rfl⟩
  cases result with
  | passed =>
    cases hafter
    exact ⟨hl, rfl⟩
  | filled long₁ short₁ =>
    cases hafter
    obtain ⟨fill, -, hfills⟩ := htrades.fills
    exact ⟨hfills.long_within hl, by rw [hfills.long_copy]⟩
  | refused =>
    cases hafter
    exact ⟨hl, rfl⟩

/-- A long does not come to shorts that are priced above it. -/
theorem crossLong_alike_append {t : MatchTerms σ} {long : Order} {shorts : List Order}
    (hl : long.FilledWithin .long) (hfar : ∀ f ∈ far, long.price < f.price) :
    RunM.Alike (fun x y => y = (x.1, x.2 ++ far)) ((crossLong t long shorts).run r)
      ((crossLong t long (shorts ++ far)).run r) := by
  induction shorts generalizing long r with
  | nil =>
    cases far with
    | nil => exact .ok rfl
    | cons f far =>
      obtain ⟨a, ha⟩ := hl.exists_unfilled
      rw [List.nil_append]
      unfold crossLong
      rw [RunM.run_bind_of_ok (RunM.lift_ok.mpr ⟨ha, rfl⟩)]
      split
      · exact .ok rfl
      · rw [if_pos (hfar f List.mem_cons_self)]
        exact .ok rfl
  | cons short rest ih =>
    rw [List.cons_append, crossLong_cons, crossLong_cons]
    apply RunM.alike_bind
    rintro ⟨long₁, short₁, on⟩ r₁ hturn
    obtain ⟨hl₁, hprice⟩ := crossTurn_long hturn hl
    cases on with
    | true =>
      apply (ih hl₁ (hprice ▸ hfar)).bind
      rintro ⟨long₂, rest₂⟩ _ r₂ rfl -
      exact .ok rfl
    | false => exact .ok rfl

/-- Crossing the longs does not come to shorts that are priced above all of them. -/
theorem crossAll_alike_append {t : MatchTerms σ} {longs shorts : List Order}
    (hl : ∀ o ∈ longs, o.FilledWithin .long ∧ ∀ f ∈ far, o.price < f.price)
    (hs : ∀ o ∈ shorts, o.FilledWithin .short) (hfar : ∀ f ∈ far, f.FilledWithin .short) :
    RunM.Alike (fun x y => ∃ kept, Prunes far kept ∧ y = (x.1, x.2 ++ kept))
      ((crossAll t longs shorts).run r) ((crossAll t longs (shorts ++ far)).run r) := by
  induction longs generalizing shorts far r with
  | nil => exact .ok ⟨far, .refl far, rfl⟩
  | cons long longs ih =>
    obtain ⟨⟨hlong, hbelow⟩, hl⟩ := List.forall_mem_cons.mp hl
    cases shorts with
    | nil =>
      cases far with
      | nil => exact .ok ⟨[], .nil, rfl⟩
      | cons f far =>
        rw [List.nil_append]
        unfold crossAll
        rw [if_pos (hbelow f List.mem_cons_self)]
        exact .ok ⟨f :: far, .refl _, rfl⟩
    | cons best shorts =>
    rw [List.cons_append]
    unfold crossAll
    refine RunM.alike_ite (fun _ => .ok ⟨far, .refl far, rfl⟩) fun _ => ?_
    refine RunM.alike_bind fun r₁ r₂ _ => ?_
    refine RunM.alike_ite (fun _ => ?_) fun _ => ?_
    · apply (ih hl hs hfar).bind
      rintro ⟨longs₁, shorts₁⟩ _ r₃ ⟨kept, hkept, rfl⟩ -
      exact .ok ⟨kept, hkept, rfl⟩
    · apply (crossLong_alike_append hlong hbelow).bind
      rintro ⟨long₁, shorts₁⟩ _ r₃ rfl hwalk
      have hwithin := (crossesLong_of_run hwalk).shorts_within hs
      have hboth : ∀ o ∈ shorts₁ ++ far, o.FilledWithin .short :=
        List.forall_mem_append.mpr ⟨hwithin, hfar⟩
      dsimp only
      rw [RunM.run_bind_of_ok (RunM.lift_ok.mpr ⟨openOrders_of_within hwithin, rfl⟩),
        RunM.run_bind_of_ok (RunM.lift_ok.mpr ⟨openOrders_of_within hboth, rfl⟩),
        List.filter_append]
      have hsub : ∀ f ∈ far.filter fun o => o.openSize ≠ 0, f ∈ far :=
        fun f hf => (List.mem_filter.mp hf).1
      apply (ih (fun o ho => ⟨(hl o ho).1, fun f hf => (hl o ho).2 f (hsub f hf)⟩)
        (fun o ho => hwithin o (List.mem_filter.mp ho).1) fun f hf => hfar f (hsub f hf)).bind
      rintro ⟨longs₂, shorts₂⟩ _ r₄ ⟨kept, hkept, rfl⟩ -
      exact .ok ⟨kept, (Prunes.refl far).filter.trans hkept, rfl⟩

/-- What a run makes of an order: it may fill it further, but not beyond its size. -/
structure Order.Grows (side : Side) (o w : Order) : Prop where
  copy : w = { o with filled := w.filled }
  within : o.FilledWithin side → w.FilledWithin side

theorem Order.Grows.refl (side : Side) (o : Order) : o.Grows side o := ⟨rfl, fun h => h⟩

theorem forall₂_grows_refl (side : Side) (orders : List Order) :
    List.Forall₂ (Order.Grows side) orders orders :=
  List.forall₂_same.mpr fun o _ => .refl side o

/-- The orders that a position is offered to stay, but for how much of them is filled. -/
theorem Absorbs.grows {t : LiquidationTerms σ} {p : LiquidablePosition} {side : Side} {a a' : Amount}
    {orders orders' : List Order} (h : Absorbs t p a orders r a' orders' r')
    (hside : ∀ o ∈ orders, o.side = side) : List.Forall₂ (Order.Grows side) orders orders' := by
  induction h with
  | nil | done | beyond | refused => exact forall₂_grows_refl side _
  | skipped _ _ _ _ ih | full _ _ _ _ _ _ ih | short _ _ _ _ _ _ _ _ _ ih =>
    exact .cons (.refl side _) (ih (List.forall_mem_cons.mp hside).2)
  | @filled _ _ _ _ _ _ _ _ o _ _ _ _ _ _ _ _ _ _ _ hu hf _ _ _ hm ha _ _ _ ih =>
    obtain ⟨ho, hrest⟩ := List.forall_mem_cons.mp hside
    refine .cons ⟨rfl, fun hwithin => ?_⟩ (ih hrest)
    have hleast := Amount.minAbs_eq_ok hf
    rw [Order.natAbs_eq_openSize hu] at hleast
    have hfilled := Amount.add_eq_ok_iff.mp ha
    rw [Amount.mul_eq_ok_iff.mp hm, ho] at hfilled
    have hopen := o.openSize_nonneg
    exact (hwithin.fill (by omega) (by omega) hfilled).1

namespace WorkingBook
variable {b b' : WorkingBook}

/-- A book whose orders are of their sides and filled within their sizes, with all longs priced below
some other shorts. -/
structure Under (far : List Order) (b : WorkingBook) : Prop where
  side_eq : ∀ side, ∀ o ∈ b.side side, o.side = side
  within : ∀ side, ∀ o ∈ b.side side, o.FilledWithin side
  below : ∀ o ∈ b.longs, ∀ f ∈ far, o.price < f.price

/-- The book with only what is open. -/
def opened (b : WorkingBook) : WorkingBook :=
  ⟨b.longs.filter fun o => o.openSize ≠ 0, b.shorts.filter fun o => o.openSize ≠ 0⟩

theorem opened_append (longs shorts kept : List Order) :
    (⟨longs, shorts ++ kept⟩ : WorkingBook).opened =
      ⟨longs.filter fun o => o.openSize ≠ 0, (shorts.filter fun o => o.openSize ≠ 0) ++
        kept.filter fun o => o.openSize ≠ 0⟩ := by
  rw [opened, List.filter_append]

theorem prune_of_within (h : ∀ side, ∀ o ∈ b.side side, o.FilledWithin side) :
    b.prune = .ok b.opened := by
  have hlongs : openOrders b.longs = .ok b.opened.longs := openOrders_of_within (h .long)
  have hshorts : openOrders b.shorts = .ok b.opened.shorts := openOrders_of_within (h .short)
  unfold prune
  rw [hlongs, hshorts]
  rfl

namespace Under

theorem opened (h : b.Under far) : b.opened.Under far := by
  have hsub : ∀ side, ∀ o ∈ b.opened.side side, o ∈ b.side side := by
    intro side
    cases side <;> exact fun o ho => (List.mem_filter.mp ho).1
  constructor
  · exact fun side o ho => h.side_eq side o (hsub side o ho)
  · exact fun side o ho => h.within side o (hsub side o ho)
  · exact fun o ho => h.below o (hsub .long o ho)

/-- One side of the book, filled further. -/
theorem withSide (h : b.Under far) {side : Side} {orders : List Order}
    (ho : List.Forall₂ (Order.Grows side) (b.side side) orders) :
    (b.withSide side orders).Under far := by
  have hgrown : ∀ side', ∀ w ∈ (b.withSide side orders).side side', ∃ o ∈ b.side side',
      o.Grows side' w := by
    intro side' w hw
    rw [side_withSide] at hw
    split at hw
    next he =>
      subst he
      exact exists_of_forall₂ ho hw
    next => exact ⟨w, hw, .refl side' w⟩
  constructor
  · intro side' w hw
    obtain ⟨o, ho, how⟩ := hgrown side' w hw
    rw [how.copy]
    exact h.side_eq side' o ho
  · intro side' w hw
    obtain ⟨o, ho, how⟩ := hgrown side' w hw
    exact how.within (h.within side' o ho)
  · intro w hw f hf
    obtain ⟨o, ho, how⟩ := hgrown .long w hw
    rw [how.copy]
    exact h.below o ho f hf

end Under
end WorkingBook

/-- Books that differ in one market only, which has some more shorts in the second. Those are given,
up to some that are used up. -/
structure Widens (m : MarketId) (far : List Order) (books wide : Map MarketId WorkingBook) :
    Prop where
  others : ∀ m', m' ≠ m → wide[m']? = books[m']?
  here : ∃ b kept, books[m]? = some b ∧ Prunes far kept ∧
    wide[m]? = some ⟨b.longs, b.shorts ++ kept⟩

section
variable {m : MarketId} {books wide : Map MarketId WorkingBook} {b : WorkingBook}

theorem Widens.insert (h : Widens m far books wide) {kept : List Order} (hk : Prunes far kept) :
    Widens m far (books.insert m b) (wide.insert m ⟨b.longs, b.shorts ++ kept⟩) where
  others := by
    intro m' hne
    rw [Map.getElem?_insert_key, Map.getElem?_insert_key, if_neg hne.symm, if_neg hne.symm]
    exact h.others m' hne
  here := ⟨b, kept, by rw [Map.getElem?_insert_key, if_pos rfl], hk,
    by rw [Map.getElem?_insert_key, if_pos rfl]⟩

theorem Widens.insert_other (h : Widens m far books wide) {m' : MarketId} (hne : m' ≠ m) :
    Widens m far (books.insert m' b) (wide.insert m' b) where
  others := by
    intro m₁ hne₁
    rw [Map.getElem?_insert_key, Map.getElem?_insert_key, h.others m₁ hne₁]
  here := by
    obtain ⟨b₁, kept, hb, hk, hwide⟩ := h.here
    refine ⟨b₁, kept, ?_, hk, ?_⟩
    · rw [Map.getElem?_insert_key, if_neg hne]
      exact hb
    · rw [Map.getElem?_insert_key, if_neg hne]
      exact hwide

/-- Books as the liquidations of a run find them and leave them. -/
structure Reaches (m : MarketId) (far : List Order) (books wide : Map MarketId WorkingBook) :
    Prop extends Widens m far books wide where
  under : ∀ {b : WorkingBook}, books[m]? = some b → b.Under far

/-- A book that has been offered a position, and then pruned. -/
theorem Reaches.insert (h : Reaches m far books wide) (hu : b.Under far) {kept : List Order}
    (hk : Prunes far kept) :
    Reaches m far (books.insert m b.opened)
      (wide.insert m (⟨b.longs, b.shorts ++ kept⟩ : WorkingBook).opened) where
  toWidens := by
    rw [WorkingBook.opened_append]
    exact h.toWidens.insert hk.filter
  under := by
    intro b' hb'
    rw [Map.getElem?_insert_key, if_pos rfl, Option.some.injEq] at hb'
    exact hb' ▸ hu.opened

theorem Reaches.insert_other (h : Reaches m far books wide) {m' : MarketId} (hne : m' ≠ m) :
    Reaches m far (books.insert m' b) (wide.insert m' b) where
  toWidens := h.toWidens.insert_other hne
  under := by
    intro b' hb'
    rw [Map.getElem?_insert_key, if_neg hne] at hb'
    exact h.under hb'

theorem Reaches.of_insert (books : Map MarketId WorkingBook) (hu : b.Under far) :
    Reaches m far (books.insert m b) (books.insert m ⟨b.longs, b.shorts ++ far⟩) where
  others := by
    intro m' hne
    rw [Map.getElem?_insert_key, Map.getElem?_insert_key, if_neg hne.symm, if_neg hne.symm]
  here := ⟨b, far, by rw [Map.getElem?_insert_key, if_pos rfl], .refl far,
    by rw [Map.getElem?_insert_key, if_pos rfl]⟩
  under := by
    intro b' hb'
    rw [Map.getElem?_insert_key, if_pos rfl, Option.some.injEq] at hb'
    exact hb' ▸ hu

variable {t : LiquidationTerms σ}

/-- Two books that differ in shorts out of reach are pruned alike. -/
theorem Reaches.prune_alike (h : Reaches m far books wide) (hu : b.Under far) {kept : List Order}
    (hk : Prunes far kept) (hkept : ∀ f ∈ kept, f.FilledWithin .short) :
    RunM.Alike (Reaches m far)
      ((do
        let book ← b.prune
        return books.insert m book : RunM σ (Map MarketId WorkingBook)).run r)
      ((do
        let book ← (⟨b.longs, b.shorts ++ kept⟩ : WorkingBook).prune
        return wide.insert m book : RunM σ (Map MarketId WorkingBook)).run r) := by
  have hwithin : ∀ side, ∀ o ∈ (⟨b.longs, b.shorts ++ kept⟩ : WorkingBook).side side,
      o.FilledWithin side := by
    intro side
    cases side with
    | long => exact hu.within .long
    | short => exact List.forall_mem_append.mpr ⟨hu.within .short, hkept⟩
  rw [RunM.run_bind_of_ok (RunM.lift_ok.mpr ⟨WorkingBook.prune_of_within hu.within, rfl⟩),
    RunM.run_bind_of_ok (RunM.lift_ok.mpr ⟨WorkingBook.prune_of_within hwithin, rfl⟩)]
  exact .ok (h.insert hu hk)

/-- A liquidation does not come to shorts that are priced above its bound. -/
theorem liquidate_alike (h : Reaches m far books wide)
    (hfar : ∀ f ∈ far, f.FilledWithin .short ∧ (t.bounds m).upper < f.price)
    (p : LiquidablePosition) :
    RunM.Alike (Reaches m far) ((liquidate t p books).run r) ((liquidate t p wide).run r) := by
  unfold liquidate
  refine RunM.alike_bind fun remaining r₁ _ => ?_
  by_cases hm : p.market = m
  · subst hm
    obtain ⟨b, kept, hb, hk, hwide⟩ := h.here
    have hunder := h.under hb
    have hkept : ∀ f ∈ kept, f.FilledWithin .short := fun f hf => (hfar f (hk.sublist.subset hf)).1
    rw [hb, hwide]
    dsimp only
    cases hside : p.side with
    | long =>
      refine RunM.alike_bind fun x r₂ habs => ?_
      have hgrown := (absorbs_of_run habs).grows (hunder.side_eq .long)
      exact h.prune_alike (hunder.withSide hgrown) hk hkept
    | short =>
      have hdear : ∀ f ∈ kept, (t.bounds p.market).excludes p.side f.price := by
        intro f hf
        rw [hside]
        exact decide_eq_true (hfar f (hk.sublist.subset hf)).2
      apply (absorb_alike_append hdear).bind
      rintro ⟨a, orders⟩ _ r₂ rfl habs
      have hgrown := (absorbs_of_run habs).grows (hunder.side_eq .short)
      exact h.prune_alike (hunder.withSide hgrown) hk hkept
  · rw [h.others _ hm]
    cases books[p.market]? with
    | none => exact .ok h
    | some b =>
      refine RunM.alike_bind fun x r₂ _ => ?_
      refine RunM.alike_bind fun b' r₃ _ => ?_
      exact .ok (h.insert_other hm)

theorem liquidateAll_alike {positions : List LiquidablePosition} (h : Reaches m far books wide)
    (hfar : ∀ f ∈ far, f.FilledWithin .short ∧ (t.bounds m).upper < f.price) :
    RunM.Alike (Reaches m far) ((liquidateAll t positions books).run r)
      ((liquidateAll t positions wide).run r) := by
  induction positions generalizing books wide r with
  | nil => exact .ok h
  | cons p rest ih =>
    unfold liquidateAll
    exact (liquidate_alike h hfar p).bind fun _ _ r₁ h₁ _ => ih h₁

/-- Liquidates positions, and then crosses the book of one market. -/
def liquidateAndCross (executor : Executor σ) (margin : MarginTerms) (config : Configuration)
    (m : MarketId) (positions : List LiquidablePosition) (books : Map MarketId WorkingBook) :
    RunM σ (Map MarketId WorkingBook) := do
  let books ← liquidateAll ⟨executor, margin, config.liquidationBounds⟩ positions books
  match books[m]? with
  | none => return books
  | some book =>
    let upperBound := (config.acceptableBounds m).upperLimit?
    let (longs, shorts) ← crossAll ⟨executor, margin, upperBound⟩ book.longs book.shorts
    return books.insert m ⟨longs, shorts⟩

theorem liquidateAndCross_alike {executor : Executor σ} {margin : MarginTerms}
    {config : Configuration} {positions : List LiquidablePosition} (h : Reaches m far books wide)
    (hfar : ∀ f ∈ far, f.FilledWithin .short ∧
      (config.liquidationBounds m).upper < f.price) :
    RunM.Alike (Widens m far)
      ((liquidateAndCross executor margin config m positions books).run r)
      ((liquidateAndCross executor margin config m positions wide).run r) := by
  unfold liquidateAndCross
  apply (liquidateAll_alike h hfar).bind
  intro books₁ wide₁ r₁ h₁ _
  obtain ⟨b, kept, hb, hk, hwide⟩ := h₁.here
  have hunder := h₁.under hb
  have hfar : ∀ f ∈ kept, f.FilledWithin .short := fun f hf => (hfar f (hk.sublist.subset hf)).1
  have hlongs : ∀ o ∈ b.longs, o.FilledWithin .long ∧ ∀ f ∈ kept, o.price < f.price :=
    fun o ho => ⟨hunder.within .long o ho, fun f hf => hunder.below o ho f (hk.sublist.subset hf)⟩
  rw [hb, hwide]
  apply (crossAll_alike_append hlongs (hunder.within .short) hfar).bind
  rintro ⟨longs, shorts⟩ _ r₂ ⟨kept₁, hk₁, rfl⟩ -
  exact .ok (h₁.toWidens.insert (b := ⟨longs, shorts⟩) (hk.trans hk₁))

end

end
end PerpExchange
