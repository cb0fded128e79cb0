import PerpExchange.Proofs.HeadEffect

/-! Which orders stay when a block is accepted: the most that can stay together. -/
namespace PerpExchange

/-- Whether one order lets another stay: it is on the other side of the same market, its price
crosses, and it is no newer. -/
def Order.Backs (p o : Order) : Prop :=
  p.market = o.market ∧ p.side ≠ o.side ∧ Book.crosses o p.price = true ∧ p.block ≤ o.block

/-- Orders that can stay together: none has to go, and each that stays only while it can be matched
is backed by one that stays. -/
def Consistent (orders : Map Hash Order) (accepted : BlockNumber) (time : Timestamp)
    (K : Hash → Prop) : Prop :=
  ∀ id, K id → ∃ o, orders[id]? = some o ∧ o.acceptDecision accepted time ≠ .remove ∧
    (o.acceptDecision accepted time = .keepIfMatcheable →
      ∃ (id' : Hash) (p : Order), K id' ∧ orders[id']? = some p ∧ p.Backs o)

/-- Whether the order under an id is among some orders that can stay together. -/
def Survives (orders : Map Hash Order) (accepted : BlockNumber) (time : Timestamp) (id : Hash) :
    Prop :=
  ∃ K, Consistent orders accepted time K ∧ K id

section
variable {orders : Map Hash Order} {accepted : BlockNumber} {time : Timestamp} {id id' : Hash}
  {o p : Order}

/-- An order that acceptance keeps whatever becomes of the others stays on its own. -/
theorem survives_of_keep (ho : orders[id]? = some o) (hk : o.acceptDecision accepted time = .keep) :
    Survives orders accepted time id := by
  refine ⟨fun id' => id' = id, ?_, rfl⟩
  rintro _ rfl
  exact ⟨o, ho, by simp [hk], by simp [hk]⟩

/-- An order that does not have to go stays with one that backs it. -/
theorem Survives.of_backs (h : Survives orders accepted time id') (hp : orders[id']? = some p)
    (hb : p.Backs o) (ho : orders[id]? = some o) (hstays : o.acceptDecision accepted time ≠ .remove) :
    Survives orders accepted time id := by
  rcases h with ⟨K, hK, hid'⟩
  refine ⟨fun i => K i ∨ i = id, ?_, .inr rfl⟩
  rintro i (hi | rfl)
  · obtain ⟨q, hq, hstays, hbacked⟩ := hK i hi
    refine ⟨q, hq, hstays, fun hkeep => ?_⟩
    obtain ⟨j, x, hj, hx, hxb⟩ := hbacked hkeep
    exact ⟨j, x, .inl hj, hx, hxb⟩
  · exact ⟨o, ho, hstays, fun _ => ⟨id', p, .inl hid', hp, hb⟩⟩

end

/-- In a list that is ordered so that no entry with a property comes after one without, the leading
entries with the property are all that have it. -/
theorem mem_takeWhile_of_pairwise {α : Type} {R : α → α → Prop} {p : α → Bool}
    (hp : ∀ {a b : α}, R a b → p b = true → p a = true) {l : List α} (h : l.Pairwise R) {a : α} :
    a ∈ l.takeWhile p ↔ a ∈ l ∧ p a = true := by
  induction l with
  | nil => simp
  | cons x l ih =>
    obtain ⟨hx, hl⟩ := List.pairwise_cons.mp h
    rw [List.takeWhile_cons]
    split
    next hpx => rw [List.mem_cons, List.mem_cons, ih hl]; grind
    next hpx =>
      have hno : ¬(a ∈ x :: l ∧ p a = true) := by
        rintro ⟨ha, hpa⟩
        rcases List.mem_cons.mp ha with rfl | ha
        · exact hpx hpa
        · exact hpx (hp (hx a ha) hpa)
      simpa using hno

def Side.facing : Side → Side
  | .long => .short
  | .short => .long

theorem Side.ne_iff_eq_facing {s t : Side} : s ≠ t ↔ s = t.facing := by
  cases s <;> cases t <;> simp [facing]

namespace Book
open BookEntry
variable {books : Map MarketId Book} {orders : Map Hash Order} {o : Order}
  {removed : Std.ExtTreeSet Hash}

theorem counterSide_eq (b : Book) (o : Order) : b.counterSide o = b.side o.side.facing := by
  unfold counterSide
  cases o.side <;> rfl

/-- On the side that trades against an order, prices that cross it come first. -/
theorem crosses_of_before {x y : BookEntry} (h : Before o.side.facing x y)
    (hy : crosses o y.price = true) : crosses o x.price = true := by
  unfold crosses at hy ⊢
  cases hs : o.side with
  | long =>
    simp only [hs, decide_eq_true_eq] at hy ⊢
    rw [hs] at h
    exact Int.le_trans h.le_price hy
  | short =>
    simp only [hs, decide_eq_true_eq] at hy ⊢
    rw [hs] at h
    exact Int.le_trans hy h.price_le

/-- An order has a counter match exactly if an order that is not removed backs it. -/
theorem hasCounterMatch_iff (h : Indexes books orders) :
    (books.getD o.market .empty).hasCounterMatch removed o = true ↔
      ∃ (id : Hash) (p : Order), id ∉ removed ∧ orders[id]? = some p ∧ p.Backs o := by
  have hmem : ∀ e, e ∈ ((books.getD o.market .empty).side o.side.facing).takeWhile
      (fun e => crosses o e.price) ↔
        e ∈ (books.getD o.market .empty).side o.side.facing ∧ crosses o e.price = true := fun e =>
    mem_takeWhile_of_pairwise (R := Before o.side.facing) crosses_of_before
      (h.sorted o.market o.side.facing)
  rw [hasCounterMatch, counterSide_eq, List.any_eq_true]
  simp only [hmem, Bool.and_eq_true, Bool.not_eq_true', decide_eq_true_eq, ← Bool.not_eq_true,
    Std.ExtTreeSet.contains_iff_mem]
  constructor
  · rintro ⟨e, ⟨he, hcross⟩, hstays, hblock⟩
    obtain ⟨p, hp, hm, hs, rfl⟩ := h.owned he
    exact ⟨_, p, hstays, hp, hm, Side.ne_iff_eq_facing.mpr hs, hcross, hblock⟩
  · rintro ⟨id, p, hid, hp, hm, hs, hcross, hblock⟩
    have hlisted := h.listed hp
    rw [hm, Side.ne_iff_eq_facing.mp hs] at hlisted
    have hkey : (ofOrder p).id = id := h.keyed hp
    exact ⟨ofOrder p, ⟨hlisted, hcross⟩, hkey ▸ hid, hblock⟩

variable (b : Book)

theorem length_sift_le (os : List Order) (removed : Std.ExtTreeSet Hash) :
    (b.sift os removed).1.length ≤ os.length := by
  fun_induction sift b os removed with
  | case1 removed => exact Nat.le_refl _
  | case2 o rest removed hm kept removed' heq ih =>
    rw [heq] at ih
    exact Nat.succ_le_succ ih
  | case3 o rest removed hm ih => exact Nat.le_succ_of_le ih

theorem mem_sift_of_mem (os : List Order) (removed : Std.ExtTreeSet Hash) {id : Hash}
    (h : id ∈ removed) : id ∈ (b.sift os removed).2 := by
  fun_induction sift b os removed with
  | case1 removed => exact h
  | case2 o rest removed hm kept removed' heq ih =>
    rw [heq] at ih
    exact ih h
  | case3 o rest removed hm ih => exact ih (Std.ExtTreeSet.mem_insert.mpr (.inr h))

theorem mem_sift (os : List Order) (removed : Std.ExtTreeSet Hash) {o : Order} (h : o ∈ os) :
    o ∈ (b.sift os removed).1 ∨ o.id ∈ (b.sift os removed).2 := by
  fun_induction sift b os removed with
  | case1 removed => exact absurd h List.not_mem_nil
  | case2 p rest removed hm kept removed' heq ih =>
    rw [heq] at ih
    rcases List.mem_cons.mp h with rfl | h
    · exact .inl List.mem_cons_self
    · exact (ih h).imp_left (List.mem_cons_of_mem _)
  | case3 p rest removed hm ih =>
    rcases List.mem_cons.mp h with rfl | h
    · exact .inr (b.mem_sift_of_mem _ _ (Std.ExtTreeSet.mem_insert.mpr (.inl Std.compare_self)))
    · exact ih h

/-- Sifting that keeps all orders removes nothing, since each of them is matched. -/
theorem sift_eq_self (os : List Order) (removed : Std.ExtTreeSet Hash)
    (h : os.length ≤ (b.sift os removed).1.length) :
    (b.sift os removed).2 = removed ∧ ∀ o ∈ os, b.hasCounterMatch removed o = true := by
  fun_induction sift b os removed with
  | case1 removed => exact ⟨rfl, fun o ho => absurd ho List.not_mem_nil⟩
  | case2 p rest removed hm kept removed' heq ih =>
    rw [heq] at ih
    obtain ⟨hremoved, hall⟩ := ih (Nat.le_of_succ_le_succ h)
    exact ⟨hremoved, List.forall_mem_cons.mpr ⟨hm, hall⟩⟩
  | case3 p rest removed hm ih =>
    have hle := b.length_sift_le rest (removed.insert p.id)
    exact absurd (Nat.le_trans h hle) (Nat.not_succ_le_self _)

/-- What holds of all that is removed at first, and of every order that only removed ones match,
holds of all that sifting removes. -/
theorem sift_induction {P : Hash → Prop} (os : List Order) (removed : Std.ExtTreeSet Hash)
    (hstep : ∀ (o : Order) (removed : Std.ExtTreeSet Hash), o ∈ os → (∀ id ∈ removed, P id) →
      b.hasCounterMatch removed o = false → P o.id)
    (h : ∀ id ∈ removed, P id) :
    (∀ id ∈ (b.sift os removed).2, P id) ∧ ∀ o ∈ (b.sift os removed).1, o ∈ os := by
  fun_induction sift b os removed with
  | case1 removed => exact ⟨h, fun o ho => ho⟩
  | case2 p rest removed hm kept removed' heq ih =>
    rw [heq] at ih
    obtain ⟨hP, hsub⟩ := ih (fun o removed ho => hstep o removed (List.mem_cons_of_mem _ ho)) h
    constructor
    · exact hP
    · intro o ho
      rcases List.mem_cons.mp ho with rfl | ho
      · exact List.mem_cons_self
      · exact List.mem_cons_of_mem _ (hsub o ho)
  | case3 p rest removed hm ih =>
    have hp : P p.id := hstep p removed List.mem_cons_self h (by simpa using hm)
    have hinsert : ∀ id ∈ removed.insert p.id, P id := by
      intro id hid
      rcases Std.ExtTreeSet.mem_insert.mp hid with he | hid
      · exact Std.LawfulEqCmp.eq_of_compare he ▸ hp
      · exact h id hid
    obtain ⟨hP, hsub⟩ :=
      ih (fun o removed ho => hstep o removed (List.mem_cons_of_mem _ ho)) hinsert
    exact ⟨hP, fun o ho => List.mem_cons_of_mem _ (hsub o ho)⟩

theorem mem_siftAll_of_mem (os : List Order) (removed : Std.ExtTreeSet Hash) {id : Hash}
    (h : id ∈ removed) : id ∈ b.siftAll os removed := by
  fun_induction siftAll b os removed with
  | case1 os removed sifted hlt ih => exact ih (b.mem_sift_of_mem os removed h)
  | case2 os removed sifted hlt => exact b.mem_sift_of_mem os removed h

/-- When sifting ends, every order is removed or matched by one that is not. -/
theorem mem_siftAll (os : List Order) (removed : Std.ExtTreeSet Hash) {o : Order} (h : o ∈ os) :
    o.id ∈ b.siftAll os removed ∨ b.hasCounterMatch (b.siftAll os removed) o = true := by
  fun_induction siftAll b os removed with
  | case1 os removed sifted hlt ih =>
    rcases b.mem_sift os removed h with hkept | hgone
    · exact ih hkept
    · exact .inl (b.mem_siftAll_of_mem _ _ hgone)
  | case2 os removed sifted hlt =>
    obtain ⟨hremoved, hall⟩ := b.sift_eq_self os removed (Nat.le_of_not_lt hlt)
    exact .inr (hremoved ▸ hall o h)

theorem siftAll_induction {P : Hash → Prop} (os : List Order) (removed : Std.ExtTreeSet Hash)
    (hstep : ∀ (o : Order) (removed : Std.ExtTreeSet Hash), o ∈ os → (∀ id ∈ removed, P id) →
      b.hasCounterMatch removed o = false → P o.id)
    (h : ∀ id ∈ removed, P id) : ∀ id ∈ b.siftAll os removed, P id := by
  fun_induction siftAll b os removed with
  | case1 os removed sifted hlt ih =>
    obtain ⟨hP, hsub⟩ := b.sift_induction os removed hstep h
    exact ih (fun o removed ho => hstep o removed (hsub o ho)) hP
  | case2 os removed sifted hlt => exact (b.sift_induction os removed hstep h).1

theorem mem_foldl_insert (os : List Order) (removed : Std.ExtTreeSet Hash) {id : Hash} :
    id ∈ os.foldl (fun removed o => removed.insert o.id) removed ↔
      id ∈ removed ∨ ∃ o ∈ os, o.id = id := by
  induction os generalizing removed with
  | nil => simp
  | cons o os ih =>
    rw [List.foldl_cons, ih, Std.ExtTreeSet.mem_insert, Std.compare_eq_iff_eq]
    grind

theorem mem_listed (h : Indexes books orders) {m : MarketId} :
    o ∈ (books.getD m .empty).ids.filterMap (fun id => orders[id]?) ↔
      orders[o.id]? = some o ∧ o.market = m := by
  simp only [List.mem_filterMap, ids, List.mem_map, List.mem_append]
  constructor
  · rintro ⟨id, ⟨e, he, rfl⟩, ho⟩
    have hkey := h.keyed ho
    have howned : ∃ side, e ∈ (books.getD m .empty).side side :=
      he.elim (fun he => ⟨.long, he⟩) fun he => ⟨.short, he⟩
    rcases howned with ⟨side, he⟩
    obtain ⟨p, hp, hm, -, -⟩ := h.owned he
    rw [ho] at hp
    cases hp
    exact ⟨hkey ▸ ho, hm⟩
  · rintro ⟨ho, rfl⟩
    have hlisted := h.listed ho
    refine ⟨o.id, ⟨ofOrder o, ?_, rfl⟩, ho⟩
    cases hs : o.side with
    | long =>
      rw [hs] at hlisted
      exact .inl hlisted
    | short =>
      rw [hs] at hlisted
      exact .inr hlisted

variable (accepted : BlockNumber) (time : Timestamp)

/-- No order that leaves can be among those that stay together. -/
theorem not_survives_of_mem_leavers (h : Indexes books orders) {m : MarketId} {id : Hash}
    (hid : id ∈ (books.getD m .empty).leavers orders accepted time) :
    ¬ Survives orders accepted time id := by
  unfold leavers at hid
  refine siftAll_induction (P := fun id => ¬ Survives orders accepted time id) _ _ _ ?_ ?_ id hid
  · rintro o removed hconditional hremoved hno ⟨K, hK, hKo⟩
    obtain ⟨hlisted, hdecision⟩ := List.mem_filter.mp hconditional
    obtain ⟨ho, rfl⟩ := (mem_listed h).mp hlisted
    obtain ⟨o', ho', -, hbacked⟩ := hK o.id hKo
    rw [ho] at ho'
    cases ho'
    obtain ⟨id', p, hKp, hp, hbacks⟩ := hbacked (by simpa using hdecision)
    have hmatch : (books.getD o.market .empty).hasCounterMatch removed o = true :=
      (hasCounterMatch_iff h).mpr
        ⟨id', p, fun hgone => hremoved id' hgone ⟨K, hK, hKp⟩, hp, hbacks⟩
    rw [hno] at hmatch
    cases hmatch
  · rintro id hid ⟨K, hK, hKo⟩
    rcases (mem_foldl_insert _ _).mp hid with hid | ⟨o, hremove, rfl⟩
    · exact Std.ExtTreeSet.not_mem_empty hid
    · obtain ⟨hlisted, hdecision⟩ := List.mem_filter.mp hremove
      obtain ⟨ho, -⟩ := (mem_listed h).mp hlisted
      obtain ⟨o', ho', hstays, -⟩ := hK o.id hKo
      rw [ho] at ho'
      cases ho'
      exact hstays (by simpa using hdecision)

/-- Orders of one market that do not leave can stay together. -/
theorem survives_of_not_mem_leavers (h : Indexes books orders) {id : Hash}
    (ho : orders[id]? = some o)
    (hid : id ∉ (books.getD o.market .empty).leavers orders accepted time) :
    Survives orders accepted time id := by
  refine ⟨fun id' => ∃ p, orders[id']? = some p ∧ p.market = o.market ∧
    id' ∉ (books.getD o.market .empty).leavers orders accepted time, ?_, o, ho, rfl, hid⟩
  rintro id' ⟨p, hp, hm, hstays⟩
  obtain rfl := h.keyed hp
  have hlisted := (mem_listed h).mpr ⟨hp, hm⟩
  refine ⟨p, hp, fun hremove => hstays ?_, fun hkeep => ?_⟩
  · unfold leavers
    refine mem_siftAll_of_mem _ _ _ ((mem_foldl_insert _ _).mpr (.inr ⟨p, ?_, rfl⟩))
    exact List.mem_filter.mpr ⟨hlisted, decide_eq_true hremove⟩
  · have hsifted : p.id ∈ (books.getD o.market .empty).leavers orders accepted time ∨
        (books.getD o.market .empty).hasCounterMatch
          ((books.getD o.market .empty).leavers orders accepted time) p = true := by
      unfold leavers
      exact mem_siftAll _ _ _ (List.mem_filter.mpr ⟨hlisted, decide_eq_true hkeep⟩)
    rcases hsifted with hgone | hmatch
    · exact absurd hgone hstays
    · rw [← hm] at hmatch ⊢
      obtain ⟨id', q, hq, hq', hbacks⟩ := (hasCounterMatch_iff h).mp hmatch
      exact ⟨id', q, ⟨q, hq', hbacks.1, hq⟩, hq', hbacks⟩

end Book

namespace Store
variable {s : Store} (accepted : BlockNumber) (time : Timestamp)

/-- The orders that stay when a block is accepted are the most that can stay together. -/
theorem Indexed.accept_orders (h : s.Indexed) {id : Hash} {o : Order} :
    (s.accept accepted time).1.orders[id]? = some o ↔
      s.orders[id]? = some o ∧ Survives s.orders accepted time id := by
  have horders : (s.accept accepted time).1.orders = _ := (s.deleteAll_reorders _).orders_eq
  rw [horders, Map.getElem?_foldl_erase]
  split
  next hgone =>
    simp only [List.mem_flatMap, Map.mem_values, Std.ExtTreeSet.mem_toList] at hgone
    rcases hgone with ⟨b, ⟨m, hb⟩, hid⟩
    have hbook : s.books.getD m .empty = b := by rw [Map.getD_of_getElem?, hb, Option.getD_some]
    rw [← hbook] at hid
    have hnot := Book.not_survives_of_mem_leavers accepted time h hid
    exact ⟨fun h => (by cases h), fun h => absurd h.2 hnot⟩
  next hgone =>
    simp only [List.mem_flatMap, Map.mem_values, Std.ExtTreeSet.mem_toList] at hgone
    refine ⟨fun ho => ⟨ho, ?_⟩, fun h => h.1⟩
    refine Book.survives_of_not_mem_leavers accepted time h ho fun hid => hgone ?_
    have hlisted := Indexes.listed h ho
    rw [Map.getD_of_getElem?] at hid hlisted
    cases hb : s.books[o.market]? with
    | none =>
      rw [hb] at hlisted
      simp at hlisted
    | some b =>
      rw [hb] at hid
      exact ⟨b, ⟨o.market, hb⟩, hid⟩

end Store

end PerpExchange
