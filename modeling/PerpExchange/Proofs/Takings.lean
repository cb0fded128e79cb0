import PerpExchange.Proofs.TradeThrough

/-! What orders take of a position that is offered to them in turn. They take all of it, or each of
those it may be offered to and that needs no margin is used up; and no order takes any of it before
these have been used up that come earlier. -/
namespace PerpExchange

/-- What the accepted liquidations of a journal fill. -/
def absorbed (journal : List Receipt) : Int :=
  (journal.map fun
    | ⟨.liquidate _ _ fill, true⟩ => fill.toInt
    | _ => 0).sum

namespace Order

/-- What liquidations make of an order: they fill it by what the journal says. -/
structure Serves (journal : List Receipt) (o w : Order) : Prop where
  copy : w = { o with filled := w.filled }
  within : w.FilledWithin w.side
  openSize_eq : w.openSize = o.openSize - filledBy o.id journal

namespace Serves
variable {j j' : List Receipt} {o w v : Order}

theorem id_eq (h : Serves j o w) : w.id = o.id := by rw [h.copy]

theorem price_eq (h : Serves j o w) : w.price = o.price := by rw [h.copy]

theorem isMarginExempt_eq (h : Serves j o w) : w.isMarginExempt = o.isMarginExempt := by
  rw [h.copy]
  rfl

theorem of_untouched (h : o.FilledWithin o.side) (h0 : filledBy o.id j = 0) : Serves j o o where
  copy := rfl
  within := h
  openSize_eq := by rw [h0, Int.sub_zero]

theorem append (h : Serves j o w) (h' : Serves j' w v) : Serves (j ++ j') o v where
  copy := by rw [h'.copy, h.copy]
  within := h'.within
  openSize_eq := by
    rw [h'.openSize_eq, h.openSize_eq, h.id_eq, filledBy_append]
    omega

theorem of_filledBy_eq (h : Serves j o w) (hj : filledBy o.id j' = filledBy o.id j) :
    Serves j' o w where
  copy := h.copy
  within := h.within
  openSize_eq := by rw [hj, h.openSize_eq]

end Serves

/-- What is left of a position and of an order that takes of it what it can. -/
theorem FilledWithin.take {o : Order} {a unfilled fill signed filled : Amount}
    (h : o.FilledWithin o.side) (h0 : 0 ≤ a.toInt) (hu : o.unfilled = .ok unfilled)
    (hf : a.minAbs unfilled = .ok fill) (hm : fill.mul o.side.sign = .ok signed)
    (ha : o.filled.add signed = .ok filled) :
    ({ o with filled } : Order).FilledWithin o.side ∧
      ({ o with filled } : Order).openSize = o.openSize - min a.toInt o.openSize := by
  have hfill := Amount.minAbs_eq_ok hf
  rw [natAbs_eq_openSize hu, Int.natAbs_of_nonneg h0] at hfill
  rw [← hfill]
  apply h.fill
  · rw [hfill]
    exact Int.le_min.mpr ⟨h0, o.openSize_nonneg⟩
  · rw [hfill]
    exact Int.min_le_right _ _
  · rw [Amount.add_eq_ok_iff.mp ha, Amount.mul_eq_ok_iff.mp hm]

end Order

/-- A walk over orders that take of a position in turn, with how much is left of it and what is
submitted. Orders in `out` sit out. -/
inductive Takes (bounds : PriceBounds) (p : LiquidablePosition) (out : Std.ExtTreeSet Hash) :
    Int → List Order → List Receipt → Int → List Order → Prop
  | nil {a : Int} : Takes bounds p out a [] [] a []
  | stop {a : Int} {o : Order} {rest : List Order} (h : a = 0 ∨ bounds.excludes p.side o.price) :
    Takes bounds p out a (o :: rest) [] a (o :: rest)
  | pass {a a' : Int} {o : Order} {rest rest' : List Order} {j : List Receipt} (h0 : a ≠ 0)
    (ho : o.id ∈ out ∨ o.openSize = 0 ∨ ¬ o.isMarginExempt)
    (h : Takes bounds p out a rest j a' rest') :
    Takes bounds p out a (o :: rest) j a' (o :: rest')
  | take {a a' : Int} {o o₁ : Order} {fill : Amount} {rest rest' : List Order} {j : List Receipt}
    (h0 : a ≠ 0) (hf : fill.toInt = min a o.openSize)
    (ho : o.Serves [⟨.liquidate p.trader o fill, true⟩] o₁)
    (h : Takes bounds p out (a - fill.toInt) rest j a' rest') :
    Takes bounds p out a (o :: rest) (⟨.liquidate p.trader o fill, true⟩ :: j) a' (o₁ :: rest')
  | refuse {a : Int} {o : Order} {fill : Amount} {rest : List Order} (h0 : a ≠ 0) :
    Takes bounds p out a (o :: rest) [⟨.liquidate p.trader o fill, false⟩] a (o :: rest)

section
variable {bounds : PriceBounds} {p : LiquidablePosition} {out : Std.ExtTreeSet Hash} {a a' : Int}
variable {orders orders' : List Order} {j before after : List Receipt} {o v : Order} {fill : Amount}
variable {id : Hash}

theorem filledBy_taken (id : Hash) (trader : Address) (o : Order) (fill : Amount)
    (j : List Receipt) :
    filledBy id (⟨.liquidate trader o fill, true⟩ :: j) =
      (if o.id = id then fill.toInt else 0) + filledBy id j := rfl

namespace Takes

/-- Only orders of the list are named. -/
theorem others (h : Takes bounds p out a orders j a' orders') (hid : id ∉ orders.map Order.id) :
    ∀ x ∈ j, x.submission.fillOf id = 0 := by
  induction h with
  | nil | stop => exact fun _ hx => absurd hx List.not_mem_nil
  | pass _ _ _ ih => exact ih fun hm => hid (List.mem_cons_of_mem _ hm)
  | take _ _ _ _ ih =>
    refine List.forall_mem_cons.mpr ⟨if_neg ?_, ih fun hm => hid (List.mem_cons_of_mem _ hm)⟩
    exact fun he => hid (he ▸ List.mem_cons_self)
  | refuse =>
    refine List.forall_mem_singleton.mpr (if_neg ?_)
    exact fun he => hid (he ▸ List.mem_cons_self)

theorem liquidates (h : Takes bounds p out a orders j a' orders') :
    ∀ x ∈ j, ∃ o fill, x.submission = .liquidate p.trader o fill := by
  induction h with
  | nil | stop => exact fun _ hx => absurd hx List.not_mem_nil
  | pass _ _ _ ih => exact ih
  | take _ _ _ _ ih => exact List.forall_mem_cons.mpr ⟨⟨_, _, rfl⟩, ih⟩
  | refuse => exact List.forall_mem_singleton.mpr ⟨_, _, rfl⟩

/-- What is taken is what is no longer left. -/
theorem left_eq (h : Takes bounds p out a orders j a' orders') : a' = a - absorbed j := by
  induction h with
  | nil | stop | refuse => simp [absorbed]
  | pass _ _ _ ih => exact ih
  | @take a a' o o₁ fill rest rest' j _ _ _ _ ih =>
    have hcons : absorbed (⟨.liquidate p.trader o fill, true⟩ :: j) = fill.toInt + absorbed j := rfl
    rw [ih, hcons]
    omega

/-- Once nothing is left the walk is over. -/
theorem of_zero (h : Takes bounds p out 0 orders j a' orders') : j = [] ∧ a' = 0 := by
  cases h with
  | nil | stop => exact ⟨rfl, rfl⟩
  | pass h0 => exact absurd rfl h0
  | take h0 => exact absurd rfl h0
  | refuse h0 => exact absurd rfl h0

theorem serves (h : Takes bounds p out a orders j a' orders')
    (hw : ∀ o ∈ orders, o.FilledWithin o.side) (hid : DistinctIds orders) :
    List.Forall₂ (Order.Serves j) orders orders' := by
  have hnone : ∀ {orders : List Order} {j : List Receipt}, (∀ o ∈ orders, o.FilledWithin o.side) →
      (∀ o ∈ orders, filledBy o.id j = 0) → List.Forall₂ (Order.Serves j) orders orders := by
    intro orders j hw h0
    exact List.forall₂_same.mpr fun o ho => .of_untouched (hw o ho) (h0 o ho)
  induction h with
  | nil => exact .nil
  | stop => exact hnone hw fun _ _ => rfl
  | refuse => exact hnone hw fun o _ => by simp [filledBy]
  | @pass _ _ o _ _ _ _ _ h ih =>
    obtain ⟨ho, hrest⟩ := List.forall_mem_cons.mp hw
    have h0 := filledBy_of_unnamed (h.others hid.head_not_mem)
    exact .cons (.of_untouched ho h0) (ih hrest (List.pairwise_cons.mp hid).2)
  | @take _ _ o o₁ fill _ _ j _ _ hserves h ih =>
    obtain ⟨ho, hrest⟩ := List.forall_mem_cons.mp hw
    obtain ⟨hne, hid'⟩ := List.pairwise_cons.mp hid
    have h0 := filledBy_of_unnamed (h.others hid.head_not_mem)
    refine .cons (hserves.of_filledBy_eq ?_) ?_
    · rw [filledBy_taken, filledBy_taken, h0, filledBy_nil]
    · apply ((List.forall₂_and_left _ _).mpr ⟨hne, ih hrest hid'⟩).imp
      rintro v w ⟨hv, hs⟩
      exact hs.of_filledBy_eq (by rw [filledBy_taken, if_neg hv, Int.zero_add])

/-- If nothing is refused, then all of the position is taken, or each order it may be offered to
that needs no margin is used up. -/
theorem used_up (h : Takes bounds p out a orders j a' orders')
    (hid : DistinctIds orders)
    (hsorted : orders.Pairwise fun o v =>
      bounds.excludes p.side o.price → bounds.excludes p.side v.price)
    (hall : ∀ x ∈ j, x.accepted) :
    a' = 0 ∨ ∀ o ∈ orders, ¬ bounds.excludes p.side o.price → o.id ∉ out → o.isMarginExempt →
      filledBy o.id j = o.openSize := by
  induction h with
  | nil => exact .inr fun _ ho => absurd ho List.not_mem_nil
  | @stop _ o _ h =>
    refine h.imp_right fun hex v hv hnot => absurd ?_ hnot
    rcases List.mem_cons.mp hv with rfl | hv
    · exact hex
    · exact (List.pairwise_cons.mp hsorted).1 v hv hex
  | refuse => exact absurd (hall _ (List.mem_singleton_self _)) (by simp)
  | @pass _ _ o _ _ _ _ ho h ih =>
    refine (ih (List.pairwise_cons.mp hid).2 (List.pairwise_cons.mp hsorted).2 hall).imp_right ?_
    intro hrest v hv hin hout hexempt
    rcases List.mem_cons.mp hv with rfl | hv
    · rcases ho with hskip | hopen | hneeds
      · exact absurd hskip hout
      · rw [filledBy_of_unnamed (h.others hid.head_not_mem), hopen]
      · exact absurd hexempt hneeds
    · exact hrest v hv hin hout hexempt
  | @take a a' o _ fill _ _ j _ hf _ h ih =>
    obtain ⟨hne, hid'⟩ := List.pairwise_cons.mp hid
    -- An order that is not used up has taken all there was.
    by_cases hfull : fill.toInt = o.openSize
    · refine (ih hid' (List.pairwise_cons.mp hsorted).2 (List.forall_mem_cons.mp hall).2).imp_right
        fun hrest v hv hin hout hexempt => ?_
      rw [filledBy_taken]
      rcases List.mem_cons.mp hv with rfl | hv
      · rw [if_pos rfl, filledBy_of_unnamed (h.others hid.head_not_mem), hfull, Int.add_zero]
      · rw [if_neg (hne v hv), hrest v hv hin hout hexempt, Int.zero_add]
    · have hnothing : a - fill.toInt = 0 := by omega
      rw [hnothing] at h
      exact .inl h.of_zero.2

/-- An order takes of the position only when those before it that do not sit out, and that need no
margin, are used up. -/
theorem in_turn (h : Takes bounds p out a orders j a' orders') (hid : DistinctIds orders)
    (hj : j = before ++ ⟨.liquidate p.trader o fill, true⟩ :: after) :
    o ∈ orders ∧ ∀ v ∈ ahead o.id orders, v.id ∉ out → v.isMarginExempt →
      filledBy v.id before = v.openSize := by
  induction h generalizing before with
  | nil | stop => simp at hj
  | refuse => cases before <;> simp at hj
  | @pass _ _ q rest _ j _ hq h ih =>
    obtain ⟨ho, hahead⟩ := ih (List.pairwise_cons.mp hid).2 hj
    refine ⟨List.mem_cons_of_mem _ ho, fun v hv hout hexempt => ?_⟩
    obtain ⟨-, rfl | hv⟩ := mem_ahead_cons hv
    · have h0 : filledBy v.id before = 0 := filledBy_of_unnamed fun x hx =>
        h.others hid.head_not_mem x (hj ▸ List.mem_append_left _ hx)
      rcases hq with hskip | hopen | hneeds
      · exact absurd hskip hout
      · rw [h0, hopen]
      · exact absurd hexempt hneeds
    · exact hahead v hv hout hexempt
  | @take a a' q _ fill' rest _ j _ hf _ h ih =>
    obtain ⟨hne, hid'⟩ := List.pairwise_cons.mp hid
    cases before with
    | nil =>
      cases hj
      exact ⟨List.mem_cons_self, fun v hv => absurd rfl (mem_ahead_cons hv).1⟩
    | cons x before =>
      obtain ⟨rfl, hrest⟩ := List.cons.inj hj
      obtain ⟨ho, hahead⟩ := ih hid' hrest
      refine ⟨List.mem_cons_of_mem _ ho, fun v hv hout hexempt => ?_⟩
      rw [filledBy_taken]
      obtain ⟨-, rfl | hv⟩ := mem_ahead_cons hv
      · have h0 : filledBy v.id before = 0 := filledBy_of_unnamed fun x hx =>
          h.others hid.head_not_mem x (hrest ▸ List.mem_append_left _ hx)
        have hfull : fill'.toInt = v.openSize := by
          by_contra hpart
          have hnothing : a - fill'.toInt = 0 := by omega
          rw [hnothing] at h
          simp [h.of_zero.1] at hrest
        rw [if_pos rfl, h0, hfull, Int.add_zero]
      · rw [if_neg (hne v (mem_of_mem_ahead hv)), hahead v hv hout hexempt, Int.zero_add]

end Takes
end

section
variable {σ : Type} {t : LiquidationTerms σ} {p : LiquidablePosition} {r r' : RunState σ}

/-- A stretch with one liquidation. -/
theorem Names.of_liquidation {trader : Address} {o : Order} {fill : Amount} {accepted : Bool}
    (hj : r'.journal = r.journal ++ [⟨.liquidate trader o fill, accepted⟩])
    (hs : ∀ id, id ∈ r.skipped → id ∈ r'.skipped) :
    Names [o.id] [⟨.liquidate trader o fill, accepted⟩] r r' where
  journal_eq := hj
  skipped := hs
  others := by
    intro id hid x hx
    rw [List.mem_singleton.mp hx]
    apply if_neg
    rintro rfl
    exact hid (List.mem_singleton_self _)

/-- An order with nothing open has nothing to take. -/
theorem openSize_eq_zero_of_minAbs {a unfilled : Amount} {o : Order} (h0 : a ≠ 0)
    (hu : o.unfilled = .ok unfilled) (hf : a.minAbs unfilled = .ok 0) : o.openSize = 0 := by
  have hf := Amount.minAbs_eq_ok hf
  rw [ne_eq, Amount.eq_iff, Amount.toInt_zero] at h0
  rw [Order.natAbs_eq_openSize hu, Amount.toInt_zero] at hf
  have hopen := o.openSize_nonneg
  omega

/-- Offering a position to orders is a walk over what they take of it. -/
theorem Absorbs.takes {a a' : Amount} {orders orders' : List Order}
    (h : Absorbs t p a orders r a' orders' r') (h0 : 0 ≤ a.toInt)
    (hw : ∀ o ∈ orders, o.FilledWithin o.side) :
    ∃ j, Takes (t.bounds p.market) p r.skipped a.toInt orders j a'.toInt orders' ∧
      Names (orders.map Order.id) j r r' := by
  have hne : ∀ {a : Amount}, a ≠ 0 → a.toInt ≠ 0 := fun h he => h (Amount.eq_iff.mpr he)
  induction h with
  | nil => exact ⟨[], .nil, .of_eq rfl rfl⟩
  | done => exact ⟨[], .stop (.inl rfl), .of_eq rfl rfl⟩
  | beyond _ h => exact ⟨[], .stop (.inr h), .of_eq rfl rfl⟩
  | skipped ha _ hs _ ih =>
    obtain ⟨j, htakes, hnames⟩ := ih h0 (List.forall_mem_cons.mp hw).2
    have hout := Std.ExtTreeSet.contains_iff_mem.mp hs
    exact ⟨j, .pass (hne ha) (.inl hout) htakes, hnames.mono (List.subset_cons_self _ _)⟩
  | full ha _ _ hu hf _ ih =>
    obtain ⟨j, htakes, hnames⟩ := ih h0 (List.forall_mem_cons.mp hw).2
    have hopen := openSize_eq_zero_of_minAbs ha hu hf
    exact ⟨j, .pass (hne ha) (.inr (.inl hopen)) htakes, hnames.mono (List.subset_cons_self _ _)⟩
  | @short _ _ _ _ o _ _ r _ r₂ _ _ ha _ _ _ _ _ hr hc _ ih =>
    obtain ⟨j, htakes, hnames⟩ := ih h0 (List.forall_mem_cons.mp hw).2
    have hskipped := (RunM.count_skipped hc).trans (RunM.reserve_skipped hr)
    have hjournal := (RunM.count_journal hc).trans (RunM.reserve_journal hr)
    rw [hskipped] at htakes
    have hneeds : ¬ o.isMarginExempt := fun he => by cases RunM.reserve_exempt he hr
    have hnone : Names [] [] r r₂ := .of_eq hjournal hskipped
    exact ⟨j, .pass (hne ha) (.inr (.inr hneeds)) htakes,
      hnone.append hnames (List.nil_subset _) (List.subset_cons_self _ _)⟩
  | @filled a a₁ _ _ fill _ filled _ o _ _ r _ _ r₃ _ _ ha _ _ hu hf _ hr ht hm hadd hd hc _ ih =>
    obtain ⟨ho, hrest⟩ := List.forall_mem_cons.mp hw
    obtain ⟨hwithin, hopen⟩ := ho.take h0 hu hf hm hadd
    have hfill : fill.toInt = min a.toInt o.openSize := by
      rw [Amount.minAbs_eq_ok hf, Order.natAbs_eq_openSize hu, Int.natAbs_of_nonneg h0]
    have hleft := Amount.sub_eq_ok_iff.mp hd
    have hskipped : r₃.skipped = r.skipped := by
      rw [RunM.count_skipped hc]
      exact (RunM.submit_skipped ht).trans (RunM.reserve_skipped hr)
    have hjournal : r₃.journal = r.journal ++ [⟨.liquidate p.trader o fill, true⟩] := by
      have hj := RunM.submit_journal ht
      rw [RunM.reserve_journal hr] at hj
      exact (RunM.count_journal hc).trans hj
    obtain ⟨j, htakes, hnames⟩ := ih (by omega) hrest
    rw [hskipped, hleft] at htakes
    refine ⟨_, .take (hne ha) hfill ⟨rfl, hwithin, ?_⟩ htakes, (Names.of_liquidation hjournal
      fun id hid => hskipped ▸ hid).append hnames ?_ (List.subset_cons_self _ _)⟩
    · rw [hopen, filledBy_taken, if_pos rfl, filledBy_nil, hfill, Int.add_zero]
    · simp
  | @refused _ _ _ _ o _ r _ _ _ _ r' _ _ _ ha _ _ _ _ _ hr ht hc hl hk =>
    have hskipped : r'.skipped = r.skipped.insert o.id := by
      rw [RunM.skip_skipped hk, RunM.release_skipped hl, RunM.count_skipped hc,
        RunM.submit_skipped ht, RunM.reserve_skipped hr]
    refine ⟨_, .refuse (hne ha), (Names.of_liquidation (RunM.refused_journal hr ht hc hl hk)
      fun id hid => ?_).mono (by simp)⟩
    rw [hskipped]
    exact Std.ExtTreeSet.mem_insert.mpr (.inr hid)

end
end PerpExchange
