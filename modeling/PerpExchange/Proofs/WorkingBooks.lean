import PerpExchange.Proofs.FillBudget

/-! The working books of a run hold copies of stored orders, each of them at most once. -/
namespace PerpExchange
open BookEntry (Before ofOrder)

/-- Orders with ids of their own. -/
def DistinctIds (orders : List Order) : Prop := orders.Pairwise fun o p => o.id ≠ p.id

instance (orders : List Order) : Decidable (DistinctIds orders) :=
  inferInstanceAs (Decidable (orders.Pairwise fun o p => o.id ≠ p.id))

/-- Of distinct orders at most one is under an id. -/
theorem openUnder_le {id : Hash} {orders : List Order} {c : Int} (hd : DistinctIds orders)
    (hle : ∀ o ∈ orders, o.id = id → o.remaining ≤ c) (hc : 0 ≤ c) :
    openUnder id orders ≤ c := by
  induction orders with
  | nil => exact hc
  | cons o orders ih =>
    obtain ⟨hne, hd⟩ := List.pairwise_cons.mp hd
    obtain ⟨ho, hle⟩ := List.forall_mem_cons.mp hle
    rw [openUnder_cons]
    split
    next hid =>
      have := ho hid
      have := openUnder_eq_zero fun p hp => hid ▸ (hne p hp).symm
      omega
    next =>
      have := ih hd hle
      omega

namespace Store

/-- Books whose orders are copies of stored orders of their market and side, no two on a side of the
same order. -/
structure Staffs (s : Store) (books : Map MarketId WorkingBook) : Prop where
  copies : s.Fields books
  distinct : ∀ {m : MarketId} {b : WorkingBook}, books[m]? = some b →
    ∀ side, DistinctIds (b.side side)

variable {s : Store} {m : MarketId} {side : Side} {block : BlockNumber} {now : Timestamp}
variable {o w : Order}

/-- What may trade of an order that only reduces a position: as much as there is of the position, or
all that is open if that is no more. -/
inductive Clips (o : Order) (size : Amount) : Order → Prop
  | cut {unfilled openSize held signed filled : Amount} (h0 : size ≠ 0)
    (hs : size.signum ≠ o.size.signum) (hu : o.unfilled = .ok unfilled)
    (ho : unfilled.abs = .ok openSize) (hh : size.abs = .ok held) (hlt : held < openSize)
    (hm : held.mul o.side.sign = .ok signed) (hf : o.size.sub signed = .ok filled) :
    Clips o size { o with filled }
  | whole {unfilled openSize held : Amount} (h0 : size ≠ 0) (hs : size.signum ≠ o.size.signum)
    (hu : o.unfilled = .ok unfilled) (ho : unfilled.abs = .ok openSize) (hh : size.abs = .ok held)
    (hle : ¬ held < openSize) : Clips o size o

theorem clips_of_ok {size : Amount} (h : clipToPosition o size = .ok (some w)) :
    Clips o size w := by
  unfold clipToPosition at h
  split at h
  · cases h
  next hfaces =>
  obtain ⟨h0, hs⟩ := not_or.mp hfaces
  obtain ⟨unfilled, hu, h⟩ := Checked.bind_eq_ok.mp h
  obtain ⟨openSize, ho, h⟩ := Checked.bind_eq_ok.mp h
  obtain ⟨held, hh, h⟩ := Checked.bind_eq_ok.mp h
  split at h
  next hlt =>
    obtain ⟨signed, hm, h⟩ := Checked.bind_eq_ok.mp h
    obtain ⟨filled, hf, h⟩ := Checked.bind_eq_ok.mp h
    cases h
    exact .cut h0 hs hu ho hh hlt hm hf
  next hle =>
    cases h
    exact .whole h0 hs hu ho hh hle

namespace Clips
variable {size : Amount}

theorem copy (h : Clips o size w) : w = { o with filled := w.filled } := by
  cases h <;> rfl

theorem faces (h : Clips o size w) : size ≠ 0 ∧ size.signum ≠ o.size.signum := by
  cases h with
  | cut h0 hs => exact ⟨h0, hs⟩
  | whole h0 hs => exact ⟨h0, hs⟩

/-- A copy that is cut down has no more left to fill than the order, nor than the position. -/
theorem remaining_le (h : Clips o size w) (h0 : 0 ≤ o.remaining) :
    0 ≤ w.remaining ∧ w.remaining ≤ o.remaining ∧ w.remaining ≤ size.toInt.natAbs := by
  cases h with
  | @cut _ openSize held _ filled _ _ hu ho hh hlt hm hf =>
    have ho : openSize.toInt = o.remaining := by
      rw [Amount.abs_eq_ok.mp ho, Order.natAbs_of_unfilled h0 hu]
    have hh := Amount.abs_eq_ok.mp hh
    have hrem : ({ o with filled } : Order).remaining = held.toInt := by
      show (o.size.toInt - filled.toInt) * o.side.sign.toInt = held.toInt
      rw [Amount.sub_eq_ok_iff.mp hf, Amount.mul_eq_ok_iff.mp hm]
      cases o.side <;> simp only [Side.toInt_sign_long, Side.toInt_sign_short] <;> omega
    rw [Amount.lt_iff] at hlt
    omega
  | @whole _ openSize held _ _ hu ho hh hle =>
    have ho : openSize.toInt = o.remaining := by
      rw [Amount.abs_eq_ok.mp ho, Order.natAbs_of_unfilled h0 hu]
    have hh := Amount.abs_eq_ok.mp hh
    rw [Amount.lt_iff] at hle
    omega

end Clips

/-- What may trade of an order is all of it, unless it only reduces a position. -/
theorem tradeable_cases {block : Option BlockNumber} (h : s.tradeable o block now = .ok (some w)) :
    (o.reduceOnly = true ∧ Clips o (s.positionSize o.trader o.market) w) ∨
      (o.reduceOnly = false ∧ w = o) := by
  unfold tradeable at h
  split at h
  · cases h
  obtain ⟨permits, -, h⟩ := Checked.bind_eq_ok.mp h
  split at h
  · cases h
  split at h
  · cases h
  split at h
  next hr => exact .inl ⟨hr, clips_of_ok h⟩
  next hr =>
    cases h
    exact .inr ⟨Bool.eq_false_iff.mpr hr, rfl⟩

theorem tradeable_copy {block : Option BlockNumber} (h : s.tradeable o block now = .ok (some w)) :
    w = { o with filled := w.filled } := by
  rcases tradeable_cases h with ⟨-, hclips⟩ | ⟨-, rfl⟩
  · exact hclips.copy
  · rfl

theorem tradeable_remaining {block : Option BlockNumber}
    (h : s.tradeable o block now = .ok (some w)) (h0 : 0 ≤ o.remaining) :
    0 ≤ w.remaining ∧ w.remaining ≤ o.remaining := by
  rcases tradeable_cases h with ⟨-, hclips⟩ | ⟨-, rfl⟩
  · obtain ⟨h0, hle, -⟩ := hclips.remaining_le h0
    exact ⟨h0, hle⟩
  · exact ⟨h0, Int.le_refl _⟩

/-- How much of an order may trade at a block and a time. -/
def openAt (s : Store) (block : BlockNumber) (now : Timestamp) (o : Order) : Int :=
  match s.tradeable o (some block) now with
  | .ok (some w) => w.remaining
  | _ => 0

theorem openAt_of_tradeable (h : s.tradeable o (some block) now = .ok (some w)) :
    s.openAt block now o = w.remaining := by
  rw [openAt, h]

theorem openAt_bounds (h0 : 0 ≤ o.remaining) :
    0 ≤ s.openAt block now o ∧ s.openAt block now o ≤ o.remaining := by
  unfold openAt
  split
  next h => exact tradeable_remaining h h0
  next => exact ⟨Int.le_refl _, h0⟩

/-- An order of a run: what may trade of one that is listed on a side of a market and is not being
cancelled. -/
def Enters (s : Store) (m : MarketId) (side : Side) (block : BlockNumber) (now : Timestamp)
    (cancelled : List Hash) (w : Order) : Prop :=
  ∃ e ∈ (s.book m).side side, ∃ o, s.orders[e.id]? = some o ∧
    s.tradeable o (some block) now = .ok (some w) ∧ w.id ∉ cancelled

theorem tradeableEntry_eq_ok {block : Option BlockNumber} {e : BookEntry}
    (h : s.tradeableEntry block now e = .ok (some w)) :
    ∃ o, s.orders[e.id]? = some o ∧ s.tradeable o block now = .ok (some w) := by
  unfold tradeableEntry at h
  split at h
  next o ho => exact ⟨o, ho, h⟩
  next => cases h

theorem Enters.not_cancelled {cancelled : List Hash} (h : s.Enters m side block now cancelled w) :
    w.id ∉ cancelled := by
  rcases h with ⟨_, _, _, _, _, hw⟩
  exact hw

/-- What enters a run is a copy of a stored order of the market and the side. -/
theorem Enters.copy {cancelled : List Hash} (hi : s.Indexed)
    (h : s.Enters m side block now cancelled w) :
    ∃ o, s.orders[w.id]? = some o ∧ o.market = m ∧ o.side = side ∧
      w = { o with filled := w.filled } ∧ s.tradeable o (some block) now = .ok (some w) := by
  rcases h with ⟨e, he, o, ho, ht, -⟩
  obtain ⟨o', ho', hm, hs, -⟩ := Indexes.owned hi he
  rw [ho] at ho'
  cases ho'
  have hw := tradeable_copy ht
  have hkey : o.id = e.id := Indexes.keyed hi ho
  have hid : w.id = e.id := by
    rw [hw]
    exact hkey
  exact ⟨o, hid ▸ ho, hm, hs, hw, ht⟩

theorem Enters.working {cancelled : List Hash} (hi : s.Indexed) (hb : s.InBounds)
    (h : s.Enters m side block now cancelled w) : s.Working m side w := by
  obtain ⟨o, ho, hm, hs, hw, ht⟩ := h.copy hi
  obtain ⟨h0, hle⟩ := tradeable_remaining ht (hb ho).remaining_nonneg
  exact ⟨o, ho, hm, hs, hw, h0, hle⟩

theorem entry_ids_distinct (hi : s.Indexed) (m : MarketId) (side : Side) :
    ((s.book m).side side).Pairwise fun e e' => e.id ≠ e'.id := by
  apply (Indexes.nodup hi m side).imp_of_mem
  intro e e' he he' hne hid
  apply hne
  obtain ⟨o, ho, -, -, rfl⟩ := Indexes.owned hi he
  obtain ⟨o', ho', -, -, rfl⟩ := Indexes.owned hi he'
  rw [hid, ho'] at ho
  cases ho
  rfl

theorem candidates_eq_ok {bound : Amount} {cancelled : List Hash} {orders : List Order}
    (h : s.candidates m side bound block now cancelled = .ok orders) :
    (∀ o ∈ orders, s.Enters m side block now cancelled o) ∧
      (s.Indexed → DistinctIds orders) := by
  obtain ⟨eligible, he, h⟩ := Checked.bind_eq_ok.mp h
  cases h
  have he := Checked.filterMapM_eq_ok he
  have hentry : ∀ {e : BookEntry} {w : Order},
      (s.tradeableEntry (some block) now e).toOption.join = some w →
        ∃ o, s.orders[e.id]? = some o ∧ s.tradeable o (some block) now = .ok (some w) := by
    intro e w hw
    apply tradeableEntry_eq_ok
    cases hx : s.tradeableEntry (some block) now e with
    | error f => rw [hx] at hw; cases hw
    | ok x => rw [hx] at hw; exact congrArg Except.ok hw
  have hsub : (((s.book m).side side).takeWhile fun e =>
      !beyond side (some bound) e.price).Sublist ((s.book m).side side) := List.takeWhile_sublist _
  constructor
  · intro o ho
    obtain ⟨ho, hc⟩ := List.mem_filter.mp ho
    rw [he] at ho
    obtain ⟨e, hmem, hw⟩ := List.mem_filterMap.mp ho
    obtain ⟨p, hp, ht⟩ := hentry hw
    exact ⟨e, hsub.subset hmem, p, hp, ht, of_decide_eq_true hc⟩
  · intro hi
    have hid : ∀ {e : BookEntry} {w : Order},
        (s.tradeableEntry (some block) now e).toOption.join = some w → w.id = e.id := by
      intro e w hw
      obtain ⟨p, hp, ht⟩ := hentry hw
      have hkey : p.id = e.id := Indexes.keyed hi hp
      rw [tradeable_copy ht]
      exact hkey
    apply List.Pairwise.filter
    rw [he]
    apply List.pairwise_filterMap.mpr
    apply ((entry_ids_distinct hi m side).sublist hsub).imp
    intro e e' hne w hw w' hw'
    rw [hid hw, hid hw']
    exact hne

/-- Each side of a working book holds the candidates up to some price. -/
theorem workingBooks_side {config : Configuration} {cancelled : List Hash}
    {books : Map MarketId WorkingBook}
    (h : s.workingBooks config block now cancelled = .ok books) {b : WorkingBook}
    (hb : books[m]? = some b) (side : Side) :
    ∃ bound, s.candidates m side bound block now cancelled = .ok (b.side side) := by
  have hall : ∀ (markets : List MarketId) (start : Map MarketId WorkingBook),
      (∀ (m : MarketId) (b : WorkingBook), start[m]? = some b → ∀ side, ∃ bound,
        s.candidates m side bound block now cancelled = .ok (b.side side)) →
      markets.foldlM (fun books m => do
        return books.insert m (← s.workingBook config m block now cancelled)) start = .ok books →
      ∀ (m : MarketId) (b : WorkingBook), books[m]? = some b → ∀ side, ∃ bound,
        s.candidates m side bound block now cancelled = .ok (b.side side) := by
    intro markets
    induction markets with
    | nil =>
      intro start hstart h
      cases h
      exact hstart
    | cons m markets ih =>
      intro start hstart h
      obtain ⟨books₁, h₁, h⟩ := Checked.bind_eq_ok.mp h
      obtain ⟨b, hwb, h₁⟩ := Checked.bind_eq_ok.mp h₁
      cases h₁
      apply ih _ _ h
      intro m' b' hb'
      rw [Map.getElem?_insert_key] at hb'
      split at hb'
      next he =>
        cases hb'
        obtain ⟨longs, hl, hwb⟩ := Checked.bind_eq_ok.mp hwb
        obtain ⟨shorts, hs, hwb⟩ := Checked.bind_eq_ok.mp hwb
        cases hwb
        intro side
        cases side with
        | long => exact ⟨_, he ▸ hl⟩
        | short => exact ⟨_, he ▸ hs⟩
      next => exact hstart m' b' hb'
  exact hall config.activeMarkets ∅ (fun m b h => by simp at h) h m b hb side

theorem workingBooks_enter {config : Configuration} {cancelled : List Hash}
    {books : Map MarketId WorkingBook}
    (h : s.workingBooks config block now cancelled = .ok books) {b : WorkingBook}
    (hb : books[m]? = some b) {side : Side} (hw : w ∈ b.side side) :
    s.Enters m side block now cancelled w := by
  obtain ⟨_, hc⟩ := workingBooks_side h hb side
  exact (candidates_eq_ok hc).1 w hw

theorem workingBooks_eq_ok {config : Configuration} {cancelled : List Hash}
    {books : Map MarketId WorkingBook} (hi : s.Indexed) (hb : s.InBounds)
    (h : s.workingBooks config block now cancelled = .ok books) : s.Staffs books := by
  constructor
  · intro m b hmb side w hw
    exact (workingBooks_enter h hmb hw).working hi hb
  · intro m b hmb side
    obtain ⟨_, hc⟩ := workingBooks_side h hmb side
    exact (candidates_eq_ok hc).2 hi

/-- All orders of the working books have ids of their own. -/
theorem Staffs.distinctIds {books : Map MarketId WorkingBook} (h : s.Staffs books) :
    DistinctIds (allOrders books.toList) := by
  rcases h with ⟨hf, hd⟩
  have hget : ∀ {m : MarketId} {b : WorkingBook}, (m, b) ∈ books.toList → books[m]? = some b :=
    Std.ExtTreeMap.mem_toList_iff_getElem?_eq_some.mp
  have hmem : ∀ {m : MarketId} {b : WorkingBook}, (m, b) ∈ books.toList → ∀ o ∈ b.longs ++ b.shorts,
      ∃ side, s.Working m side o := by
    intro m b hb o ho
    rcases List.mem_append.mp ho with ho | ho
    · exact ⟨.long, hf (hget hb) .long o ho⟩
    · exact ⟨.short, hf (hget hb) .short o ho⟩
  apply List.pairwise_flatMap.mpr
  constructor
  · rintro ⟨m, b⟩ hb
    refine List.pairwise_append.mpr ⟨hd (hget hb) .long, hd (hget hb) .short, ?_⟩
    intro o ho p hp hid
    have hside := ((hf (hget hb) .long o ho).place_eq (hf (hget hb) .short p hp) hid).2
    cases hside
  · apply (Map.distinct_keys _).imp_of_mem
    rintro ⟨m, b⟩ ⟨m', b'⟩ hb hb' hne o ho p hp hid
    obtain ⟨side, hw⟩ := hmem hb o ho
    obtain ⟨side', hw'⟩ := hmem hb' p hp
    exact hne (hw.place_eq hw' hid).1

/-- The working books have no more open of a stored order than may trade of it. -/
theorem openUnder_workingBooks_le {config : Configuration} {cancelled : List Hash}
    {books : Map MarketId WorkingBook} {id : Hash} (hi : s.Indexed)
    (hb : s.InBounds)
    (h : s.workingBooks config block now cancelled = .ok books) (ho : s.orders[id]? = some o) :
    openUnder id (allOrders books.toList) ≤ s.openAt block now o := by
  refine openUnder_le (workingBooks_eq_ok hi hb h).distinctIds ?_
    (openAt_bounds (hb ho).remaining_nonneg).1
  intro w hw hid
  obtain ⟨⟨m, b⟩, hmb, hw⟩ := List.mem_flatMap.mp hw
  have hmb := Std.ExtTreeMap.mem_toList_iff_getElem?_eq_some.mp hmb
  have henters : ∃ side, s.Enters m side block now cancelled w := by
    rcases List.mem_append.mp hw with hw | hw
    · exact ⟨.long, workingBooks_enter h hmb hw⟩
    · exact ⟨.short, workingBooks_enter h hmb hw⟩
  obtain ⟨side, hw⟩ := henters
  obtain ⟨p, hp, -, -, -, ht⟩ := hw.copy hi
  rw [hid, ho] at hp
  cases hp
  exact Int.le_of_eq (openAt_of_tradeable ht).symm

end Store
end PerpExchange
