import PerpExchange.Proofs.Priority
import PerpExchange.Proofs.Turns

/-! No trade passes a better order by: when a pair is matched, whoever stands before one of the two
and could trade with the other has nothing left to fill. -/
namespace PerpExchange
open BookEntry (Before ofOrder)

/-- The orders that are listed before the one of an id. -/
def ahead (id : Hash) (orders : List Order) : List Order := orders.takeWhile fun o => o.id ≠ id

section
variable {orders orders' : List Order} {o p : Order} {id : Hash} {R : Order → Order → Prop}

theorem mem_of_mem_ahead (h : p ∈ ahead id orders) : p ∈ orders :=
  (List.takeWhile_sublist _).subset h

theorem ahead_cons (h : o.id ≠ id) : ahead id (o :: orders) = o :: ahead id orders := by
  rw [ahead, List.takeWhile_cons, if_pos (decide_eq_true h)]
  rfl

theorem mem_ahead_cons (h : p ∈ ahead id (o :: orders)) :
    o.id ≠ id ∧ (p = o ∨ p ∈ ahead id orders) := by
  by_cases hid : o.id = id
  · rw [ahead, List.takeWhile_cons, if_neg (by simp [hid])] at h
    cases h
  · rw [ahead_cons hid] at h
    exact ⟨hid, List.mem_cons.mp h⟩

/-- Orders that are kept stay before one they are listed before. -/
theorem mem_ahead_filter {keep : Order → Bool} (h : p ∈ ahead id orders) (hk : keep p = true) :
    p ∈ ahead id (orders.filter keep) := by
  induction orders with
  | nil => cases h
  | cons q orders ih =>
    obtain ⟨hne, h⟩ := mem_ahead_cons h
    rw [List.filter_cons]
    split
    next =>
      rw [ahead_cons hne]
      rcases h with rfl | h
      · exact List.mem_cons_self
      · exact List.mem_cons_of_mem _ (ih h)
    next hq =>
      rcases h with rfl | h
      · exact absurd hk hq
      · exact ih h

theorem exists_mem_ahead (h : List.Forall₂ R orders orders') (hid : ∀ o p, R o p → p.id = o.id)
    (hp : o ∈ ahead id orders) : ∃ p ∈ ahead id orders', R o p := by
  induction h with
  | nil => cases hp
  | @cons q q' orders orders' hq _ ih =>
    obtain ⟨hne, hp⟩ := mem_ahead_cons hp
    rw [ahead_cons (hid q q' hq ▸ hne)]
    rcases hp with rfl | hp
    · exact ⟨q', List.mem_cons_self, hq⟩
    · obtain ⟨p, hp, hr⟩ := ih hp
      exact ⟨p, List.mem_cons_of_mem _ hp, hr⟩

end

/-- Every accepted match of a journal has a property, with what the journal holds before it. -/
def EveryMatch (P : List Receipt → Order → Order → Prop) (journal : List Receipt) : Prop :=
  ∀ before long short fill after,
    journal = before ++ ⟨.matchOrders long short fill, true⟩ :: after → P before long short

section
variable {P Q : List Receipt → Order → Order → Prop} {j j' : List Receipt} {x : Receipt}
  {long short : Order} {fill : Amount}

theorem everyMatch_nil : EveryMatch P [] := by
  intro before long short fill after h
  cases before <;> cases h

theorem everyMatch_refused : EveryMatch P [⟨.matchOrders long short fill, false⟩] := by
  intro before long short fill after he
  cases before with
  | nil => cases he
  | cons y before => cases before <;> cases he

theorem everyMatch_accepted (h : P [] long short) :
    EveryMatch P [⟨.matchOrders long short fill, true⟩] := by
  intro before long' short' fill' after he
  cases before with
  | nil => cases he; exact h
  | cons y before => cases before <;> cases he

theorem EveryMatch.append (h : EveryMatch P j)
    (h' : EveryMatch (fun before => P (j ++ before)) j') : EveryMatch P (j ++ j') := by
  intro before long short fill after he
  rcases List.append_eq_append_iff.mp he with ⟨m, rfl, hm⟩ | ⟨m, rfl, hm⟩
  · exact h' m long short fill after hm
  · cases m with
    | nil =>
      have hfirst := h' [] long short fill after hm.symm
      simpa only [List.append_nil] using hfirst
    | cons x m =>
      cases hm
      exact h before long short fill m rfl

theorem EveryMatch.imp (h : EveryMatch P j) (hPQ : ∀ before x after long short,
    j = before ++ x :: after → P before long short → Q before long short) : EveryMatch Q j := by
  intro before long short fill after he
  exact hPQ before _ after long short he (h before long short fill after he)

end

/-- How an accepted match treats the orders before its pair: those that are compatible with the other
of the pair, and do not end up sitting out, are used up by what came before. -/
structure Fair {σ : Type} (longs shorts : List Order) (r r' : RunState σ) (before : List Receipt)
    (long short : Order) : Prop where
  long_copy : ∃ o ∈ longs, long = { o with filled := long.filled }
  short_copy : ∃ o ∈ shorts, short = { o with filled := short.filled }
  fresh : short.id ∉ r.skipped
  price_le : short.price ≤ long.price
  shorts : ∀ o ∈ ahead short.id shorts, o.id ∉ r'.skipped → Compatible long o →
    filledBy o.id before = o.openSize
  longs : ∀ o ∈ ahead long.id longs, o.id ∉ r'.skipped → Compatible o short →
    filledBy o.id before = o.openSize

section
variable {σ : Type} {t : MatchTerms σ} {r r₁ r' : RunState σ}
variable {j j' before after : List Receipt} {x : Receipt} {long long₁ long' short short₁ : Order}
  {longs longs' rest rest' shorts shorts₁ shorts₂ shorts' : List Order} {L S : Order}

namespace Fair

theorem of_pair (hs : ¬ r.isSkipped short) (hp : ¬ long.price < short.price) :
    Fair [long] (short :: rest) r r' [] long short where
  long_copy := ⟨long, List.mem_singleton_self _, rfl⟩
  short_copy := ⟨short, List.mem_cons_self, rfl⟩
  fresh := fun h => hs (Std.ExtTreeSet.contains_iff_mem.mpr h)
  price_le := Int.not_lt.mp hp
  shorts := fun _ ho => absurd rfl (mem_ahead_cons ho).1
  longs := fun _ ho => absurd rfl (mem_ahead_cons ho).1

/-- A match further on is fair to a short that the long has gone past, if that one sits out, is not
compatible or is used up. -/
theorem behind (h : Fair [long₁] rest r₁ r' before L S)
    (hpair : Walks long long₁ [short] [short₁] j r r₁)
    (hwalk : Walks long₁ long' rest rest' j' r₁ r') (hid : DistinctIds (long :: short :: rest))
    (hj : j' = before ++ x :: after)
    (hpast : short.id ∉ r'.skipped → Compatible long short → short₁.openSize = 0) :
    Fair [long] (short :: rest) r r' (j ++ before) L S := by
  have hnames := hwalk.toNames
  rw [List.map_cons, hpair.long.id_eq, ← List.map_cons] at hnames
  obtain ⟨o, ho, hcopy⟩ := h.long_copy
  cases List.mem_singleton.mp ho
  have hcopy : L = { long with filled := L.filled } := by rw [hcopy, hpair.long.copy]
  refine ⟨⟨long, List.mem_singleton_self _, hcopy⟩, ?_, fun hs => h.fresh (hpair.skipped _ hs),
    h.price_le, ?_, ?_⟩
  · obtain ⟨o, ho, hcopy⟩ := h.short_copy
    exact ⟨o, List.mem_cons_of_mem _ ho, hcopy⟩
  · intro o ho hskip hc
    rw [filledBy_append]
    obtain ⟨-, rfl | ho⟩ := mem_ahead_cons ho
    · have hc : Compatible long o := by rwa [hcopy] at hc
      have hused := (List.forall₂_cons.mp hpair.shorts).1.openSize_eq
      have h0 := hnames.filledBy_before hj hid.short_not_mem
      rw [hpast hskip hc] at hused
      omega
    · have h0 := hpair.filledBy_eq_zero (hid.rest_not_mem (mem_of_mem_ahead ho))
      rw [h0, h.shorts o ho hskip hc, Int.zero_add]
  · intro o ho
    have hne := (mem_ahead_cons ho).1
    rw [hcopy] at hne
    exact absurd rfl hne

end Fair

namespace CrossesLong

/-- The turns of a long are fair to the shorts it goes past. -/
theorem fair (h : CrossesLong t long shorts r long' shorts' r') (hl : long.SizedFor .long)
    (hs : ∀ o ∈ shorts, o.SizedFor .short) (hid : DistinctIds (long :: shorts)) :
    ∃ j, Walks long long' shorts shorts' j r r' ∧ EveryMatch (Fair [long] shorts r r') j := by
  induction h with
  | nil => exact ⟨[], .refl hl hs _, everyMatch_nil⟩
  | full => exact ⟨[], .refl hl hs _, everyMatch_nil⟩
  | beyond => exact ⟨[], .refl hl hs _, everyMatch_nil⟩
  | @skipped long long' short rest rest' r r' _ _ _ _ hskip _ ih =>
    obtain ⟨hshort, hrest⟩ := List.forall_mem_cons.mp hs
    obtain ⟨j, hw, hm⟩ := ih hl hrest (hid.sublist (by simp))
    have hpair : Walks long long [short] [short] [] r r :=
      .refl hl (List.forall_mem_singleton.mpr hshort) r
    refine ⟨[] ++ j, hpair.cons hw hid, everyMatch_nil.append ?_⟩
    refine hm.imp fun before x after L S hj hfair => hfair.behind hpair hw hid hj ?_
    intro hnot
    exact absurd (hw.skipped _ (Std.ExtTreeSet.contains_iff_mem.mp hskip)) hnot
  | @passed long long' short rest rest' r r₁ r' _ hu h0 hp _ ht _ ih =>
    obtain ⟨hshort, hrest⟩ := List.forall_mem_cons.mp hs
    obtain ⟨j, hw, hm⟩ := ih hl hrest (hid.sublist (by simp))
    obtain ⟨hpair, hfull⟩ := ht.of_passed hl hshort hp
    refine ⟨[] ++ j, hpair.cons hw hid, everyMatch_nil.append ?_⟩
    refine hm.imp fun before x after L S hj hfair => hfair.behind hpair hw hid hj ?_
    intro _ hc
    exact (hfull hc).resolve_left fun hfull => h0 ((Order.openSize_eq_zero hu).mp hfull)
  | @filled long long₁ long' short short₁ rest rest' r r₁ r' _ _ _ hp hskip ht h ih =>
    obtain ⟨hshort, hrest⟩ := List.forall_mem_cons.mp hs
    obtain ⟨fill, hpair, hfull⟩ := ht.of_filled hl hshort
    obtain ⟨j, hw, hm⟩ := ih hpair.long.sized hrest (hpair.distinctIds hid)
    refine ⟨_ ++ j, hpair.cons hw hid, (everyMatch_accepted (.of_pair hskip hp)).append ?_⟩
    refine hm.imp fun before x after L S hj hfair => hfair.behind hpair hw hid hj ?_
    intro _ _
    -- A long that is used up would have taken no further turn.
    refine hfull.resolve_left fun hfull => ?_
    have hjournal := hw.journal_eq
    rw [(h.of_full hfull).2.2, hj] at hjournal
    simp at hjournal
  | refused _ _ _ _ ht =>
    obtain ⟨fill, hw, -⟩ := ht.of_refused hl hs
    exact ⟨_, hw, everyMatch_refused⟩

/-- A long that is compatible with a short, and leaves some of it open, is used up, unless one of the
two sits out. -/
theorem used_up (h : CrossesLong t long shorts r long' shorts' r')
    (hl : long.SizedFor .long) (hs : ∀ o ∈ shorts, o.SizedFor .short)
    (hid : DistinctIds (long :: shorts)) (hsorted : shorts'.Pairwise fun o p => o.price ≤ p.price)
    (hS : S ∈ shorts') (hopen : S.openSize ≠ 0) (hp : S.price ≤ long.price)
    (hc : Compatible long S) (hlong : long.id ∉ r'.skipped) (hshort : S.id ∉ r'.skipped) :
    long'.openSize = 0 := by
  induction h with
  | nil => cases hS
  | full hu => exact (Order.openSize_eq_zero hu).mpr rfl
  | @beyond long short rest _ _ _ _ hlt =>
    -- The shorts that follow cost no less.
    have hle : short.price ≤ S.price := by
      rcases List.mem_cons.mp hS with rfl | hS
      · exact Int.le_refl _
      · exact (List.pairwise_cons.mp hsorted).1 S hS
    exact absurd hlt (Int.not_lt.mpr (Int.le_trans hle hp))
  | @skipped long long' short rest rest' r r' _ _ _ _ hskip h ih =>
    obtain ⟨hhead, hrest⟩ := List.forall_mem_cons.mp hs
    have hid' : DistinctIds (long :: rest) := hid.sublist (by simp)
    rcases List.mem_cons.mp hS with rfl | hS
    · obtain ⟨j, hw, -⟩ := h.fair hl hrest hid'
      exact absurd (hw.skipped _ (Std.ExtTreeSet.contains_iff_mem.mp hskip)) hshort
    · exact ih hl hrest hid' (List.pairwise_cons.mp hsorted).2 hS hp hc hlong hshort
  | @passed long long' short rest rest' r r₁ r' _ hu h0 hcross _ ht h ih =>
    obtain ⟨hhead, hrest⟩ := List.forall_mem_cons.mp hs
    rcases List.mem_cons.mp hS with rfl | hS
    · rcases (ht.of_passed hl hhead hcross).2 hc with hfull | hfull
      · exact absurd ((Order.openSize_eq_zero hu).mp hfull) h0
      · exact absurd hfull hopen
    · exact ih hl hrest (hid.sublist (by simp)) (List.pairwise_cons.mp hsorted).2 hS hp hc hlong
        hshort
  | @filled long long₁ long' short short₁ rest rest' r r₁ r' _ _ _ _ _ ht h ih =>
    obtain ⟨hhead, hrest⟩ := List.forall_mem_cons.mp hs
    obtain ⟨fill, hpair, hfull⟩ := ht.of_filled hl hhead
    rcases List.mem_cons.mp hS with rfl | hS
    · have hfull := hfull.resolve_right hopen
      rw [(h.of_full hfull).1]
      exact hfull
    · refine ih hpair.long.sized hrest (hpair.distinctIds hid) (List.pairwise_cons.mp hsorted).2 hS
        ?_ ?_ ?_ hshort
      · rwa [hpair.long.price_eq]
      · rwa [hpair.long.copy]
      · rwa [hpair.long.id_eq]
  | refused _ _ _ _ ht =>
    obtain ⟨fill, -, hskip⟩ := ht.of_refused hl hs
    exact absurd hskip hlong

end CrossesLong

namespace Fair

/-- What is fair in the turns of one long is fair among all. -/
theorem first (h : Fair [long] shorts r r₁ before L S)
    (hskipped : ∀ id, id ∈ r₁.skipped → id ∈ r'.skipped) :
    Fair (long :: longs) shorts r r' before L S := by
  obtain ⟨o, ho, hcopy⟩ := h.long_copy
  cases List.mem_singleton.mp ho
  refine ⟨⟨long, List.mem_cons_self, hcopy⟩, h.short_copy, h.fresh, h.price_le, ?_, ?_⟩
  · exact fun o ho hskip => h.shorts o ho fun hs => hskip (hskipped o.id hs)
  · intro o ho
    have hne := (mem_ahead_cons ho).1
    rw [hcopy] at hne
    exact absurd rfl hne

/-- A match of a later long is fair to a long that sits out. -/
theorem of_skipped (h : Fair longs shorts r r' before L S) (hskip : long.id ∈ r'.skipped) :
    Fair (long :: longs) shorts r r' before L S := by
  obtain ⟨o, ho, hcopy⟩ := h.long_copy
  refine ⟨⟨o, List.mem_cons_of_mem _ ho, hcopy⟩, h.short_copy, h.fresh, h.price_le, h.shorts, ?_⟩
  intro o ho hnot
  obtain ⟨-, rfl | ho⟩ := mem_ahead_cons ho
  · exact absurd hskip hnot
  · exact h.longs o ho hnot

/-- A match of a later long is fair to the first, if that one sits out, is not compatible or is used
up, and to the shorts that the first has used up. -/
theorem later (h : Fair longs shorts₂ r₁ r' before L S)
    (hwalk : Walks long long' shorts shorts₁ j r r₁)
    (hkept : shorts₂ = shorts₁.filter fun o => o.openSize ≠ 0)
    (hnames : Names ((longs ++ shorts₂).map Order.id) j' r₁ r') (hj : j' = before ++ x :: after)
    (hid : DistinctIds ((long :: longs) ++ shorts))
    (hfirst : long.id ∉ r'.skipped → Compatible long S → long'.openSize = 0) :
    Fair (long :: longs) shorts r r' (j ++ before) L S := by
  obtain ⟨hlongs, hshorts, hfar⟩ := List.pairwise_append.mp hid
  have hsub : shorts₂.Sublist shorts₁ := hkept ▸ List.filter_sublist
  refine ⟨?_, ?_, fun hs => h.fresh (hwalk.skipped _ hs), h.price_le, ?_, ?_⟩
  · obtain ⟨o, ho, hcopy⟩ := h.long_copy
    exact ⟨o, List.mem_cons_of_mem _ ho, hcopy⟩
  · obtain ⟨w, hw, hcopy⟩ := h.short_copy
    obtain ⟨o, ho, how⟩ := exists_of_forall₂ hwalk.shorts (hsub.subset hw)
    exact ⟨o, ho, by rw [hcopy, how.copy]⟩
  · intro o ho hskip hc
    obtain ⟨w, hw, how⟩ := exists_mem_ahead hwalk.shorts (fun _ _ h => h.id_eq) ho
    have hsum := how.openSize_eq
    rw [filledBy_append]
    by_cases hused : w.openSize = 0
    · -- A short that is used up is not among those that are kept.
      have h0 : filledBy o.id before = 0 := by
        apply hnames.filledBy_before hj
        rw [hkept]
        exact hwalk.used_up_not_mem hid (mem_of_mem_ahead ho) how (mem_of_mem_ahead hw) hused
      omega
    · have hw : w ∈ ahead S.id shorts₂ := hkept ▸ mem_ahead_filter hw (decide_eq_true hused)
      have hc : Compatible L w := by rwa [how.copy]
      have hrest := h.shorts w hw (how.id_eq ▸ hskip) hc
      rw [how.id_eq] at hrest
      omega
  · intro o ho hskip hc
    rw [filledBy_append]
    obtain ⟨-, rfl | ho⟩ := mem_ahead_cons ho
    · have hsum := hwalk.long.openSize_eq
      have h0 := hnames.filledBy_before hj fun hm =>
        hid.head_not_mem ((hwalk.kept_ids hsub longs).subset hm)
      rw [hfirst hskip hc] at hsum
      omega
    · have hmem := mem_of_mem_ahead ho
      have h0 : filledBy o.id j = 0 := by
        refine hwalk.filledBy_eq_zero (not_mem_ids fun p hp he => ?_)
        rcases List.mem_cons.mp hp with rfl | hp
        · exact (List.pairwise_cons.mp hlongs).1 o hmem he
        · exact hfar o (List.mem_cons_of_mem _ hmem) p hp he.symm
      rw [h0, h.longs o ho hskip hc, Int.zero_add]

end Fair

/-- The turns of the longs are fair to all orders. -/
theorem CrossesAll.fair (h : CrossesAll t longs shorts r longs' shorts' r')
    (hl : ∀ o ∈ longs, o.SizedFor .long) (hs : ∀ o ∈ shorts, o.SizedFor .short)
    (hid : DistinctIds (longs ++ shorts)) (hlongs : longs.Pairwise fun o p => p.price ≤ o.price)
    (hshorts : shorts.Pairwise fun o p => o.price ≤ p.price) :
    ∃ j, Names ((longs ++ shorts).map Order.id) j r r' ∧
      EveryMatch (Fair longs shorts r r') j := by
  induction h with
  | noLong => exact ⟨[], .of_eq rfl rfl, everyMatch_nil⟩
  | noShort => exact ⟨[], .of_eq rfl rfl, everyMatch_nil⟩
  | beyond => exact ⟨[], .of_eq rfl rfl, everyMatch_nil⟩
  | @skipped long best longs longs' shorts shorts' r r' _ hskip _ ih =>
    obtain ⟨hlong, hl⟩ := List.forall_mem_cons.mp hl
    obtain ⟨j, hn, hm⟩ := ih hl hs (List.pairwise_cons.mp hid).2 (List.pairwise_cons.mp hlongs).2
      hshorts
    refine ⟨j, hn.mono (List.subset_cons_self _ _), hm.imp fun _ _ _ _ _ _ hfair => ?_⟩
    exact hfair.of_skipped (hn.skipped _ (Std.ExtTreeSet.contains_iff_mem.mp hskip))
  | @crossed long long' best longs longs' shorts shorts₁ shorts₂ shorts' r r₁ r' _ _ hwalk ho _ ih =>
    obtain ⟨hlong, hl⟩ := List.forall_mem_cons.mp hl
    obtain ⟨hfront, hlongs⟩ := List.pairwise_cons.mp hlongs
    have hsub₁ : (long :: best :: shorts).Sublist ((long :: longs) ++ best :: shorts) :=
      (List.sublist_append_right _ _).cons_cons long
    have hid₁ : DistinctIds (long :: best :: shorts) := hid.sublist hsub₁
    obtain ⟨j₁, hw, hm₁⟩ := hwalk.fair hlong hs hid₁
    have hkept := openOrders_eq_ok ho hw.sized
    have hsub : shorts₂.Sublist shorts₁ := hkept ▸ List.filter_sublist
    have hsorted := hw.sorted hshorts
    have hids := hw.kept_ids hsub longs
    have hid₂ : DistinctIds (longs ++ shorts₂) :=
      List.pairwise_map.mp ((List.nodup_cons.mp hid.nodup).2.sublist hids)
    obtain ⟨j₂, hn, hm₂⟩ := ih hl (fun o ho => hw.sized o (hsub.subset ho)) hid₂ hlongs
      (hsorted.sublist hsub)
    refine ⟨j₁ ++ j₂, hw.toNames.append hn (hsub₁.map _).subset
      (List.subset_cons_of_subset _ hids.subset), .append ?_ ?_⟩
    · exact hm₁.imp fun _ _ _ _ _ _ hfair => hfair.first hn.skipped
    · refine hm₂.imp fun before x after L S hj hfair => hfair.later hw hkept hn hj hid ?_
      intro hnot hc
      obtain ⟨o, ho, hL⟩ := hfair.long_copy
      obtain ⟨w, hw₂, hS⟩ := hfair.short_copy
      have hprice : w.price ≤ long.price := by
        have hle := hfair.price_le
        rw [hL, hS] at hle
        exact Int.le_trans hle (hfront o ho)
      have hopen : w.openSize ≠ 0 := by
        rw [hkept] at hw₂
        exact of_decide_eq_true (List.mem_filter.mp hw₂).2
      have hfresh := hfair.fresh
      rw [hS] at hc hfresh
      exact hwalk.used_up hlong hs hid₁ hsorted (hsub.subset hw₂) hopen hprice hc
        (fun h => hnot (hn.skipped _ h)) hfresh

/-- No trade passes a better order by. Longs and shorts in order of priority are crossed, whatever
the margins are, whatever the executor does and whoever sits out. At the moment a pair is matched, a
short that is listed before the one of the pair has nothing left to fill, unless it sits out in the
end or is not compatible with the long of the pair; and so with the longs. -/
theorem no_trade_through {fill : Amount} (hlongs : (longs.map ofOrder).Pairwise (Before .long))
    (hshorts : (shorts.map ofOrder).Pairwise (Before .short)) (hid : DistinctIds (longs ++ shorts))
    (hl : ∀ o ∈ longs, o.SizedFor .long) (hs : ∀ o ∈ shorts, o.SizedFor .short)
    (h : (crossAll t longs shorts).run r = .ok (longs', shorts') r')
    (hj : r'.journal = r.journal ++ (before ++ ⟨.matchOrders long short fill, true⟩ :: after)) :
    (∃ o ∈ longs, long = { o with filled := long.filled }) ∧
    (∃ o ∈ shorts, short = { o with filled := short.filled }) ∧
    (∀ o ∈ ahead short.id shorts, ¬ r'.isSkipped o → Compatible long o →
      filledBy o.id before = o.openSize) ∧
    (∀ o ∈ ahead long.id longs, ¬ r'.isSkipped o → Compatible o short →
      filledBy o.id before = o.openSize) := by
  have hlongs := (List.pairwise_map.mp hlongs).imp fun hb => hb.price_le
  have hshorts := (List.pairwise_map.mp hshorts).imp fun hb => hb.le_price
  obtain ⟨j, hn, hm⟩ := (crossesAll_of_run h).fair hl hs hid hlongs hshorts
  rw [hn.journal_eq] at hj
  have hfair := hm before long short fill after (List.append_cancel_left hj)
  refine ⟨hfair.long_copy, hfair.short_copy, ?_, ?_⟩
  · intro o ho hskip
    exact hfair.shorts o ho fun hs => hskip (Std.ExtTreeSet.contains_iff_mem.mpr hs)
  · intro o ho hskip
    exact hfair.longs o ho fun hs => hskip (Std.ExtTreeSet.contains_iff_mem.mpr hs)

end

/-- A limit order of the first block, at a price of five. -/
def queued (id : UInt8) (size : Amount) : Order :=
  .place (Bytes.ofList 32 [id]) (.limit ⟨⟨1, Bytes.zero 20, size, 5, 0, false⟩, false⟩) 1

def queuedLongs : List Order := [queued 1 3, queued 2 5]

def queuedShorts : List Order := [queued 3 (.clamp (-4)), queued 4 (.clamp (-4))]

def queueTerms : MatchTerms Desk := ⟨Desk.executor, ⟨0, 0⟩, none⟩

/-- The second long takes from the second short once the first of each is used up. -/
theorem queued_orders_used_up_in_turn :
    ∃ lists r' before, (crossAll queueTerms queuedLongs queuedShorts).run
        (.start ∅ default default) = .ok lists r' ∧
      r'.journal = before ++
        [⟨.matchOrders { queued 2 5 with filled := 1 } (queued 4 (.clamp (-4))) 4, true⟩] ∧
      filledBy (queued 1 3).id before = 3 ∧ filledBy (queued 3 (.clamp (-4))).id before = 4 := by
  have hrun : (match (crossAll queueTerms queuedLongs queuedShorts).run
      (.start ∅ default default) with
    | .ok _ r => (r.journal, (queuedLongs ++ queuedShorts).any r.isSkipped)
    | .error _ _ => ([], true)) =
      ([⟨.matchOrders (queued 1 3) (queued 3 (.clamp (-4))) 3, true⟩,
        ⟨.matchOrders (queued 2 5) { queued 3 (.clamp (-4)) with filled := .clamp (-3) } 1, true⟩] ++
          [⟨.matchOrders { queued 2 5 with filled := 1 } (queued 4 (.clamp (-4))) 4, true⟩],
        false) := by decide +kernel
  split at hrun
  next lists r' h =>
    obtain ⟨hj, hskip⟩ := Prod.mk.inj hrun
    have hstay : ∀ o ∈ queuedLongs ++ queuedShorts, ¬ r'.isSkipped o :=
      List.any_eq_false.mp hskip
    obtain ⟨-, -, hshort, hlong⟩ := no_trade_through (by decide) (by decide)
      (by decide) (by decide) (by decide) h (hj.trans (List.nil_append _).symm)
    refine ⟨lists, r', _, h, hj, hlong (queued 1 3) ?_ (hstay _ ?_) ?_,
      hshort (queued 3 (.clamp (-4))) ?_ (hstay _ ?_) ?_⟩
    all_goals decide
  next => cases hrun

end PerpExchange
