import PerpExchange.Proofs.TradeThrough

/-! Matching is maximal: when the longs of a market have been crossed against its shorts, no two
orders are left that could still trade. -/
namespace PerpExchange

/-- Longs and shorts as they are crossed: each sized for its side and under an id of its own, the
better price first. -/
structure Arranged (longs shorts : List Order) : Prop where
  longs_sized : ∀ o ∈ longs, o.SizedFor .long
  shorts_sized : ∀ o ∈ shorts, o.SizedFor .short
  distinct : DistinctIds (longs ++ shorts)
  longs_sorted : longs.Pairwise fun o p => p.price ≤ o.price
  shorts_sorted : shorts.Pairwise fun o p => o.price ≤ p.price

/-- Two orders that could trade: both have something open and neither sits out, their prices cross,
and they are compatible. -/
structure CouldTrade {σ : Type} (r : RunState σ) (long short : Order) : Prop where
  long_open : long.openSize ≠ 0
  short_open : short.openSize ≠ 0
  long_in : ¬ r.isSkipped long
  short_in : ¬ r.isSkipped short
  price_le : short.price ≤ long.price
  compatible : Compatible long short

/-- What crossing makes of the orders of a market: all longs are kept and so are the shorts, but for
some that are used up, each filled by what the journal says. -/
structure Clears {σ : Type} (longs longs' shorts shorts' : List Order) (journal : List Receipt)
    (r r' : RunState σ) : Prop extends Names ((longs ++ shorts).map Order.id) journal r r' where
  longs : List.Forall₂ (Order.Becomes .long journal) longs longs'
  of_short : ∀ w ∈ shorts', ∃ o ∈ shorts, o.Becomes .short journal w
  short_kept : ∀ o ∈ shorts, filledBy o.id journal ≠ o.openSize →
    ∃ w ∈ shorts', o.Becomes .short journal w

section
variable {σ : Type} {t : MatchTerms σ} {r r₁ r' : RunState σ} {j j' : List Receipt}
variable {long long' best : Order} {longs longs' shorts shorts₁ shorts₂ shorts' : List Order}

namespace Arranged

theorem later (h : Arranged (long :: longs) shorts) : Arranged longs shorts where
  longs_sized := (List.forall_mem_cons.mp h.longs_sized).2
  shorts_sized := h.shorts_sized
  distinct := (List.pairwise_cons.mp h.distinct).2
  longs_sorted := (List.pairwise_cons.mp h.longs_sorted).2
  shorts_sorted := h.shorts_sorted

theorem distinct_first (h : Arranged (long :: longs) shorts) : DistinctIds (long :: shorts) :=
  h.distinct.sublist ((List.sublist_append_right _ _).cons_cons long)

/-- The turns of the first long. -/
theorem walks (h : Arranged (long :: longs) shorts)
    (hwalk : CrossesLong t long shorts r long' shorts₁ r₁) :
    ∃ j, Walks long long' shorts shorts₁ j r r₁ := by
  obtain ⟨j, hw, -⟩ :=
    hwalk.fair (h.longs_sized long List.mem_cons_self) h.shorts_sized h.distinct_first
  exact ⟨j, hw⟩

/-- The later longs and the shorts that the turns of the first one leave. -/
theorem next (h : Arranged (long :: longs) shorts) (hw : Walks long long' shorts shorts₁ j r r₁)
    (hsub : shorts₂.Sublist shorts₁) : Arranged longs shorts₂ where
  longs_sized := h.later.longs_sized
  shorts_sized := fun o ho => hw.sized o (hsub.subset ho)
  distinct := List.pairwise_map.mp (h.later.distinct.nodup.sublist (hw.kept_ids hsub longs))
  longs_sorted := h.later.longs_sorted
  shorts_sorted := (hw.sorted h.shorts_sorted).sublist hsub

/-- The turns of the first long touch none of the later ones. -/
theorem filledBy_later (h : Arranged (long :: longs) shorts)
    (hw : Walks long long' shorts shorts₁ j r r₁) {o : Order} (ho : o ∈ longs) :
    filledBy o.id j = 0 := by
  obtain ⟨hlongs, -, hfar⟩ := List.pairwise_append.mp h.distinct
  apply hw.filledBy_eq_zero
  apply not_mem_ids
  intro p hp he
  rcases List.mem_cons.mp hp with rfl | hp
  · exact (List.pairwise_cons.mp hlongs).1 o ho he
  · exact hfar o (List.mem_cons_of_mem _ ho) p hp he.symm

end Arranged

namespace Clears

theorem refl (h : Arranged longs shorts) (r : RunState σ) :
    Clears longs longs shorts shorts [] r r where
  toNames := .of_eq rfl rfl
  longs := by
    rw [List.forall₂_same]
    exact fun o ho => .of_untouched (h.longs_sized o ho) rfl
  of_short := fun o ho => ⟨o, ho, .of_untouched (h.shorts_sized o ho) rfl⟩
  short_kept := fun o ho _ => ⟨o, ho, .of_untouched (h.shorts_sized o ho) rfl⟩

/-- A long that sits out stays as it is. -/
theorem skip (h : Clears longs longs' shorts shorts' j r r')
    (ha : Arranged (long :: longs) shorts) :
    Clears (long :: longs) (long :: longs') shorts shorts' j r r' where
  toNames := h.toNames.mono (List.subset_cons_self _ _)
  longs := by
    have h0 := h.filledBy_eq_zero ha.distinct.head_not_mem
    exact .cons (.of_untouched (ha.longs_sized long List.mem_cons_self) h0) h.longs
  of_short := h.of_short
  short_kept := h.short_kept

/-- The turns of a long, and then those of the later longs with the shorts that are still open. -/
theorem cross (hw : Walks long long' shorts shorts₁ j r r₁)
    (hkept : shorts₂ = shorts₁.filter fun o => o.openSize ≠ 0)
    (h : Clears longs longs' shorts₂ shorts' j' r₁ r') (ha : Arranged (long :: longs) shorts) :
    Clears (long :: longs) (long' :: longs') shorts shorts' (j ++ j') r r' := by
  have hsub : shorts₂.Sublist shorts₁ := hkept ▸ List.filter_sublist
  have hids := hw.kept_ids hsub longs
  constructor
  · refine hw.toNames.append h.toNames ?_ (List.subset_cons_of_subset _ hids.subset)
    exact ((List.sublist_append_right _ _).cons_cons long |>.map _).subset
  · have hlong : filledBy long.id j' = 0 :=
      h.filledBy_eq_zero fun hm => ha.distinct.head_not_mem (hids.subset hm)
    apply List.Forall₂.cons
    · apply hw.long.of_filledBy_eq
      rw [filledBy_append, hlong, Int.add_zero]
    · have hlater : ∀ o ∈ longs, filledBy o.id j = 0 := fun o ho => ha.filledBy_later hw ho
      apply ((List.forall₂_and_left _ _).mpr ⟨hlater, h.longs⟩).imp
      intro o w how
      apply how.2.of_filledBy_eq
      rw [filledBy_append, how.1, Int.zero_add]
  · intro w hwm
    obtain ⟨w₁, hw₁, hbecomes⟩ := h.of_short w hwm
    obtain ⟨o, ho, hfirst⟩ := exists_of_forall₂ hw.shorts (hsub.subset hw₁)
    exact ⟨o, ho, hfirst.append hbecomes⟩
  · intro o ho hopen
    obtain ⟨w₁, hw₁, hfirst⟩ := exists_of_forall₂ hw.shorts.flip ho
    have hsize := hfirst.openSize_eq
    by_cases hused : w₁.openSize = 0
    · -- A short that is used up is not among those the later longs are offered to.
      have h0 : filledBy o.id j' = 0 := by
        apply h.filledBy_eq_zero
        rw [hkept]
        exact hw.used_up_not_mem ha.distinct ho hfirst hw₁ hused
      rw [filledBy_append] at hopen
      omega
    · have hw₂ : w₁ ∈ shorts₂ := hkept ▸ List.mem_filter.mpr ⟨hw₁, decide_eq_true hused⟩
      have hopen₁ : filledBy w₁.id j' ≠ w₁.openSize := by
        rw [hfirst.id_eq]
        rw [filledBy_append] at hopen
        omega
      obtain ⟨w, hwm, hbecomes⟩ := h.short_kept w₁ hw₂ hopen₁
      exact ⟨w, hwm, hfirst.append hbecomes⟩

end Clears

theorem CrossesAll.clears (h : CrossesAll t longs shorts r longs' shorts' r')
    (ha : Arranged longs shorts) : ∃ j, Clears longs longs' shorts shorts' j r r' := by
  induction h with
  | noLong => exact ⟨[], .refl ha _⟩
  | noShort => exact ⟨[], .refl ha _⟩
  | beyond => exact ⟨[], .refl ha _⟩
  | skipped _ _ _ ih =>
    obtain ⟨j, hj⟩ := ih ha.later
    exact ⟨j, hj.skip ha⟩
  | crossed _ _ hwalk ho _ ih =>
    obtain ⟨j₁, hw⟩ := ha.walks hwalk
    have hkept := openOrders_eq_ok ho hw.sized
    obtain ⟨j₂, hj⟩ := ih (ha.next hw (hkept ▸ List.filter_sublist))
    exact ⟨j₁ ++ j₂, .cross hw hkept hj ha⟩

/-- A long that has taken its turns could trade with none of the shorts that are left. -/
theorem CrossesLong.not_couldTrade (hwalk : CrossesLong t long shorts r long' shorts₁ r₁)
    (ha : Arranged (long :: longs) shorts) (hw : Walks long long' shorts shorts₁ j r r₁)
    (hkept : shorts₂ = shorts₁.filter fun o => o.openSize ≠ 0)
    (hj : Clears longs longs' shorts₂ shorts' j' r₁ r') {S : Order} (hS : S ∈ shorts') :
    ¬ CouldTrade r' long' S := by
  intro h
  obtain ⟨w, hw₂, hbecomes⟩ := hj.of_short S hS
  rw [hkept, List.mem_filter] at hw₂
  have hlong : long.id ∉ r₁.skipped := by
    intro hs
    apply h.long_in
    apply Std.ExtTreeSet.contains_iff_mem.mpr
    exact hw.long.id_eq ▸ hj.skipped _ hs
  have hshort : w.id ∉ r₁.skipped := by
    intro hs
    apply h.short_in
    apply Std.ExtTreeSet.contains_iff_mem.mpr
    exact hbecomes.id_eq ▸ hj.skipped _ hs
  have hprice : w.price ≤ long.price := by
    have hle := h.price_le
    rwa [hbecomes.price_eq, hw.long.price_eq] at hle
  have hc : Compatible long w := by
    have hc := h.compatible
    rwa [hbecomes.copy, hw.long.copy] at hc
  have hfull := hwalk.used_up (ha.longs_sized long List.mem_cons_self) ha.shorts_sized
    ha.distinct_first (hw.sorted ha.shorts_sorted) hw₂.1 (of_decide_eq_true hw₂.2) hprice hc hlong
    hshort
  exact h.long_open hfull

/-- What one long leaves undone no later long undoes: in the end no pair could trade. -/
theorem CrossesAll.not_couldTrade (h : CrossesAll t longs shorts r longs' shorts' r')
    (ha : Arranged longs shorts) : ∀ L ∈ longs', ∀ S ∈ shorts', ¬ CouldTrade r' L S := by
  induction h with
  | noLong => exact fun _ hL => absurd hL List.not_mem_nil
  | noShort => exact fun _ _ _ hS => absurd hS List.not_mem_nil
  | @beyond long best longs shorts r hlt =>
    intro L hL S hS h
    have hlong : L.price ≤ long.price := by
      rcases List.mem_cons.mp hL with rfl | hL
      · exact Int.le_refl _
      · exact (List.pairwise_cons.mp ha.longs_sorted).1 L hL
    have hshort : best.price ≤ S.price := by
      rcases List.mem_cons.mp hS with rfl | hS
      · exact Int.le_refl _
      · exact (List.pairwise_cons.mp ha.shorts_sorted).1 S hS
    exact absurd hlt (Int.not_lt.mpr (Int.le_trans hshort (Int.le_trans h.price_le hlong)))
  | skipped _ hskip hrest ih =>
    obtain ⟨j, hj⟩ := hrest.clears ha.later
    intro L hL S hS h
    rcases List.mem_cons.mp hL with rfl | hL
    · have hstill := hj.skipped _ (Std.ExtTreeSet.contains_iff_mem.mp hskip)
      exact h.long_in (Std.ExtTreeSet.contains_iff_mem.mpr hstill)
    · exact ih ha.later L hL S hS h
  | crossed _ _ hwalk ho hrest ih =>
    obtain ⟨j, hw⟩ := ha.walks hwalk
    have hkept := openOrders_eq_ok ho hw.sized
    have hnext := ha.next hw (hkept ▸ List.filter_sublist)
    obtain ⟨j', hj⟩ := hrest.clears hnext
    intro L hL S hS
    rcases List.mem_cons.mp hL with rfl | hL
    · exact hwalk.not_couldTrade ha hw hkept hj hS
    · exact ih hnext L hL S hS

/-- Matching is maximal. Whatever the margins are, whatever the executor does and whoever sits out:
in the end every long is still there, and every short that is not used up, each filled by what was
submitted of it, and no two of them could still trade. -/
theorem matching_is_maximal (ha : Arranged longs shorts)
    (h : (crossAll t longs shorts).run r = .ok (longs', shorts') r') :
    (∃ j, Clears longs longs' shorts shorts' j r r') ∧
      ∀ long ∈ longs', ∀ short ∈ shorts', ¬ CouldTrade r' long short :=
  ⟨(crossesAll_of_run h).clears ha, (crossesAll_of_run h).not_couldTrade ha⟩

end

theorem arranged_queue : Arranged queuedLongs queuedShorts where
  longs_sized := by decide
  shorts_sized := by decide
  distinct := by decide
  longs_sorted := by decide
  shorts_sorted := by decide

/-- A desk that refuses whatever names the first short of the queue. -/
def wary : Desk := { (default : Desk) with refusedOrders := [(queued 3 (.clamp (-4))).id] }

/-- The first pair is refused, and the second long uses up the second short. The first long, what is
left of the second and the first short stay open, and yet no two of them could trade. -/
theorem refused_pair_leaves_no_trade :
    ∃ longs shorts r', (crossAll queueTerms queuedLongs queuedShorts).run (.start ∅ default wary) =
        .ok (longs, shorts) r' ∧
      longs.map Order.openSize = [3, 1] ∧ shorts.map Order.openSize = [4] ∧
      ∀ long ∈ longs, ∀ short ∈ shorts, ¬ CouldTrade r' long short := by
  have hrun : (match (crossAll queueTerms queuedLongs queuedShorts).run (.start ∅ default wary) with
    | .ok (longs, shorts) _ => (longs.map Order.openSize, shorts.map Order.openSize)
    | .error _ _ => ([], [])) = ([3, 1], [4]) := by decide +kernel
  split at hrun
  next longs shorts r' h =>
    obtain ⟨hlongs, hshorts⟩ := Prod.mk.inj hrun
    exact ⟨longs, shorts, r', h, hlongs, hshorts, (matching_is_maximal arranged_queue h).2⟩
  next => cases hrun

end PerpExchange
