import PerpExchange.Proofs.Bounds
import PerpExchange.Proofs.RunSteps
import Mathlib.Algebra.BigOperators.Group.List.Basic
import Mathlib.Algebra.Ring.Int.Defs

/-! No order is filled beyond its size by a run, whatever the executor refuses. What a run has
filled of an order and what its working copy has left together never exceed what the store has left.
-/
namespace PerpExchange

namespace Store

/-- A copy of a stored order of a market and a side, with no more left to fill than the original. -/
def Working (s : Store) (m : MarketId) (side : Side) (w : Order) : Prop :=
  ∃ o, s.orders[w.id]? = some o ∧ o.market = m ∧ o.side = side ∧
    w = { o with filled := w.filled } ∧ 0 ≤ w.remaining ∧ w.remaining ≤ o.remaining

/-- An order of a run: a stored order, up to its fill. -/
def IsCopy (s : Store) (w : Order) : Prop :=
  ∃ o, s.orders[w.id]? = some o ∧ w = { o with filled := w.filled }

end Store

section
variable {s : Store} {m : MarketId} {side : Side} {w : Order}

theorem Store.Working.market_eq (h : s.Working m side w) : w.market = m := by
  rcases h with ⟨o, -, hm, -, he, -⟩
  rw [he]
  exact hm

theorem Store.Working.side_eq (h : s.Working m side w) : w.side = side := by
  rcases h with ⟨o, -, -, hs, he, -⟩
  rw [he]
  exact hs

theorem Store.Working.isCopy (h : s.Working m side w) : s.IsCopy w := by
  rcases h with ⟨o, ho, -, -, he, -⟩
  exact ⟨o, ho, he⟩

theorem Store.Working.remaining_nonneg (h : s.Working m side w) : 0 ≤ w.remaining := by
  rcases h with ⟨o, -, -, -, -, h0, -⟩
  exact h0

/-- A copy stays one while it is filled up to what it has left. -/
theorem Store.Working.fill (h : s.Working m side w) {filled : Amount}
    (h0 : 0 ≤ ({ w with filled } : Order).remaining)
    (hle : ({ w with filled } : Order).remaining ≤ w.remaining) :
    s.Working m side { w with filled } := by
  rcases h with ⟨o, ho, hm, hs, he, -, hr⟩
  refine ⟨o, ho, hm, hs, ?_, h0, Int.le_trans hle hr⟩
  rw [he]

theorem Store.Working.place_eq {m' : MarketId} {side' : Side} {w' : Order}
    (h : s.Working m side w) (h' : s.Working m' side' w') (hid : w.id = w'.id) :
    m = m' ∧ side = side' := by
  rcases h with ⟨o, ho, rfl, rfl, -⟩
  rcases h' with ⟨o', ho', rfl, rfl, -⟩
  rw [hid, ho'] at ho
  cases ho
  exact ⟨rfl, rfl⟩

end

/-- What a submission fills of an order. -/
def Submission.fillOf (id : Hash) : Submission → Int
  | .matchOrders long short fill => if long.id = id ∨ short.id = id then fill.toInt else 0
  | .liquidate _ order fill => if order.id = id then fill.toInt else 0
  | .cancelOrders _ | .settleFunding | .samplePremium => 0

/-- What the accepted submissions of a journal fill of an order. -/
def filledBy (id : Hash) (journal : List Receipt) : Int :=
  (journal.map fun x => if x.accepted then x.submission.fillOf id else 0).sum

/-- What orders under an id have left to fill. -/
def openUnder (id : Hash) (orders : List Order) : Int :=
  (orders.map fun o => if o.id = id then o.remaining else 0).sum

@[simp] theorem filledBy_nil (id : Hash) : filledBy id [] = 0 := rfl

@[simp] theorem filledBy_append (id : Hash) (j j' : List Receipt) :
    filledBy id (j ++ j') = filledBy id j + filledBy id j' := by
  simp [filledBy]

theorem filledBy_of_unnamed {id : Hash} {j : List Receipt}
    (h : ∀ x ∈ j, x.submission.fillOf id = 0) : filledBy id j = 0 := by
  apply List.sum_eq_zero
  intro n hn
  obtain ⟨x, hx, rfl⟩ := List.mem_map.mp hn
  rw [h x hx, ite_self]

@[simp] theorem openUnder_nil (id : Hash) : openUnder id [] = 0 := rfl

@[simp] theorem openUnder_cons (id : Hash) (o : Order) (orders : List Order) :
    openUnder id (o :: orders) = (if o.id = id then o.remaining else 0) + openUnder id orders := rfl

@[simp] theorem openUnder_append (id : Hash) (os os' : List Order) :
    openUnder id (os ++ os') = openUnder id os + openUnder id os' := by
  simp [openUnder]

theorem openUnder_nonneg {orders : List Order} (id : Hash) (h : ∀ o ∈ orders, 0 ≤ o.remaining) :
    0 ≤ openUnder id orders := by
  induction orders with
  | nil => exact Int.le_refl 0
  | cons o orders ih =>
    obtain ⟨h0, h⟩ := List.forall_mem_cons.mp h
    have := ih h
    rw [openUnder_cons]
    split <;> omega

theorem openUnder_filter_le {id : Hash} {orders : List Order} (p : Order → Bool)
    (h : ∀ o ∈ orders, 0 ≤ o.remaining) : openUnder id (orders.filter p) ≤ openUnder id orders := by
  induction orders with
  | nil => exact Int.le_refl 0
  | cons o orders ih =>
    obtain ⟨h0, h⟩ := List.forall_mem_cons.mp h
    have := ih h
    rw [List.filter_cons, openUnder_cons]
    split
    · rw [openUnder_cons]
      omega
    · split <;> omega

theorem openUnder_eq_zero {id : Hash} {orders : List Order} (h : ∀ o ∈ orders, o.id ≠ id) :
    openUnder id orders = 0 := by
  induction orders with
  | nil => rfl
  | cons o orders ih =>
    obtain ⟨ho, h⟩ := List.forall_mem_cons.mp h
    rw [openUnder_cons, if_neg ho, ih h, Int.add_zero]

/-- What a run may submit: fills of at least one unit between copies of stored orders of one market
that cross in price and in time, and liquidations of at least one unit into such a copy. -/
def Store.Admits (s : Store) : Submission → Prop
  | .matchOrders long short fill =>
    0 < fill ∧ (∃ m, s.Working m .long long ∧ s.Working m .short short) ∧
      short.price ≤ long.price ∧ canCrossInTime long short
  | .liquidate _ order fill => 0 < fill ∧ ∃ m side, s.Working m side order
  | .cancelOrders _ | .settleFunding | .samplePremium => True

variable {σ : Type} {s : Store} {m : MarketId} {side : Side} {r r₁ r₂ r' : RunState σ}
variable {as bs cs ds : List Order} {w : Order}

/-- A stretch of a run that submits only what may be submitted, and fills no more of any order than
what is open shrinks by. -/
def Draws (s : Store) (before after : List Order) (r r' : RunState σ) : Prop :=
  ∃ journal, r'.journal = r.journal ++ journal ∧ (∀ x ∈ journal, s.Admits x.submission) ∧
    ∀ id, filledBy id journal + openUnder id after ≤ openUnder id before

theorem Draws.of_journal_eq (h : r'.journal = r.journal) (as : List Order) : Draws s as as r r' :=
  ⟨[], by rw [h, List.append_nil], by simp, fun id => by simp⟩

/-- A stretch with one submission, which fills what is open shrinks by if it is accepted. -/
theorem Draws.of_receipt {x : Receipt} (hj : r'.journal = r.journal ++ [x])
    (ha : s.Admits x.submission) (h : ∀ id, (if x.accepted then x.submission.fillOf id else 0) +
      openUnder id bs ≤ openUnder id as) : Draws s as bs r r' := by
  refine ⟨[x], hj, ?_, ?_⟩
  · simpa using ha
  · intro id
    simpa [filledBy] using h id

/-- Two stretches in a row, each of which may leave some of the orders alone. -/
theorem Draws.trans (h₁ : Draws s as bs r r₁) (h₂ : Draws s cs ds r₁ r') {before after : List Order}
    (h : ∀ id, openUnder id as + openUnder id cs + openUnder id after ≤
      openUnder id before + openUnder id bs + openUnder id ds) : Draws s before after r r' := by
  rcases h₁ with ⟨j₁, he₁, ha₁, hb₁⟩
  rcases h₂ with ⟨j₂, he₂, ha₂, hb₂⟩
  refine ⟨j₁ ++ j₂, by rw [he₂, he₁, List.append_assoc], ?_, ?_⟩
  · intro x hx
    rcases List.mem_append.mp hx with hx | hx
    · exact ha₁ x hx
    · exact ha₂ x hx
  · intro id
    have := h id
    have := hb₁ id
    have := hb₂ id
    rw [filledBy_append]
    omega

theorem Draws.mono (h : Draws s as bs r r') {before after : List Order}
    (hle : ∀ id, openUnder id as + openUnder id after ≤ openUnder id before + openUnder id bs) :
    Draws s before after r r' :=
  h.trans (Draws.of_journal_eq rfl []) fun id => by simpa using hle id

theorem Draws.of_journal (h : Draws s as bs r r₁) (he : r'.journal = r₁.journal) :
    Draws s as bs r r' :=
  h.trans (Draws.of_journal_eq he []) fun id => by simp

/-- A fill that is the lesser of an amount and what a copy has left, and not zero. -/
theorem fill_pos_of_minAbs {a unfilled fill : Amount} (h : s.Working m side w)
    (hu : w.unfilled = .ok unfilled) (hf : a.minAbs unfilled = .ok fill) (h0 : fill ≠ 0) :
    0 < fill ∧ 0 < fill.toInt ∧ fill.toInt ≤ w.remaining := by
  have hf := Amount.minAbs_eq_ok hf
  rw [Order.natAbs_of_unfilled h.remaining_nonneg hu] at hf
  have hr := h.remaining_nonneg
  have h0 : fill.toInt ≠ 0 := fun h => h0 (Amount.eq_iff.mpr h)
  rw [Amount.lt_iff, Amount.toInt_zero]
  omega

def PairResult.after (long short : Order) : PairResult → Order × Order
  | .passed | .refused => (long, short)
  | .filled long short => (long, short)

/-- A pair fills no more than both of its orders have left. -/
theorem Trades.draws {t : MatchTerms σ} {long short : Order} {result : PairResult}
    (h : Trades t long short r result r') (hl : s.Working m .long long)
    (hs : s.Working m .short short) :
    Draws s [long, short] [(result.after long short).1, (result.after long short).2] r r' ∧
      s.Working m .long (result.after long short).1 ∧
        s.Working m .short (result.after long short).2 := by
  have hne : long.id ≠ short.id := fun hid => by cases (hl.place_eq hs hid).2
  have hadmits : ∀ {a : Agreement} {r₁ : RunState σ}, (agree t long short).run r = .ok (some a) r₁ →
      s.Admits (.matchOrders long short a.fill) ∧ 0 ≤ a.fill.toInt ∧
        a.fill.toInt ≤ long.remaining ∧ a.fill.toInt ≤ short.remaining := by
    intro a r₁ ha
    obtain ⟨hp, hc, h0, x, y, hx, hy, hf⟩ := agree_some ha
    obtain ⟨hpos, hpos', hright⟩ := fill_pos_of_minAbs hs hy hf h0
    have hf := Amount.minAbs_eq_ok hf
    rw [Order.natAbs_of_unfilled hl.remaining_nonneg hx] at hf
    rw [Amount.lt_iff] at hp
    refine ⟨⟨hpos, ⟨m, hl, hs⟩, ?_, hc⟩, by omega, by omega, hright⟩
    rw [Amount.le_iff]
    omega
  cases h with
  | passed h => exact ⟨.of_journal_eq (agree_journal h) _, hl, hs⟩
  | @filled a longFilled shortFilled r₁ r₂ _ _ h ht hlf hsf hc =>
    obtain ⟨hadm, h0, hleft, hright⟩ := hadmits h
    have hlr : ({ long with filled := longFilled } : Order).remaining =
        long.remaining - a.fill.toInt := by
      apply Order.remaining_fill
      rw [hl.side_eq, Amount.add_eq_ok_iff.mp hlf, Side.toInt_sign_long, Int.mul_one]
    have hsr : ({ short with filled := shortFilled } : Order).remaining =
        short.remaining - a.fill.toInt := by
      apply Order.remaining_fill
      rw [hs.side_eq, Amount.sub_eq_ok_iff.mp hsf, Side.toInt_sign_short]
      omega
    have hj : r'.journal = r.journal ++ [⟨.matchOrders long short a.fill, true⟩] := by
      rw [RunM.count_journal hc, RunM.submit_journal ht, agree_journal h]
    refine ⟨.of_receipt hj hadm fun id => ?_, hl.fill (by omega) (by omega),
      hs.fill (by omega) (by omega)⟩
    simp only [PairResult.after, openUnder_cons, openUnder_nil, hlr, hsr, Submission.fillOf,
      if_true]
    by_cases hlid : long.id = id
    · have hsid : short.id ≠ id := fun h => hne (hlid.trans h.symm)
      simp only [hlid, hsid, true_or, if_true, if_false]
      omega
    · by_cases hsid : short.id = id
      · simp only [hlid, hsid, or_true, if_true, if_false]
        omega
      · simp only [hlid, hsid, or_self, if_false]
        omega
  | refused h ht hc hrl hrs hkl hks =>
    obtain ⟨a, _, h, hj⟩ := (Trades.refused h ht hc hrl hrs hkl hks).refused_journal
    obtain ⟨hadm, -⟩ := hadmits h
    exact ⟨.of_receipt hj hadm fun id => by simp [PairResult.after], hl, hs⟩

/-- A long fills no more than it and the shorts have left. -/
theorem CrossesLong.draws {t : MatchTerms σ} {long long' : Order} {shorts shorts' : List Order}
    (h : CrossesLong t long shorts r long' shorts' r') (hl : s.Working m .long long)
    (hs : ∀ o ∈ shorts, s.Working m .short o) :
    Draws s (long :: shorts) (long' :: shorts') r r' ∧ s.Working m .long long' ∧
      ∀ o ∈ shorts', s.Working m .short o := by
  induction h with
  | nil => exact ⟨.of_journal_eq rfl _, hl, hs⟩
  | full => exact ⟨.of_journal_eq rfl _, hl, hs⟩
  | beyond => exact ⟨.of_journal_eq rfl _, hl, hs⟩
  | skipped _ _ _ _ _ ih =>
    obtain ⟨hshort, hs⟩ := List.forall_mem_cons.mp hs
    obtain ⟨hd, hl', hs'⟩ := ih hl hs
    refine ⟨hd.mono fun id => ?_, hl', List.forall_mem_cons.mpr ⟨hshort, hs'⟩⟩
    simp only [openUnder_cons]
    omega
  | passed _ _ _ _ ht _ ih =>
    obtain ⟨hshort, hs⟩ := List.forall_mem_cons.mp hs
    obtain ⟨hpair, -, -⟩ := ht.draws hl hshort
    obtain ⟨hd, hl', hs'⟩ := ih hl hs
    refine ⟨hpair.trans hd fun id => ?_, hl', List.forall_mem_cons.mpr ⟨hshort, hs'⟩⟩
    simp only [PairResult.after, openUnder_cons, openUnder_nil]
    omega
  | filled _ _ _ _ ht _ ih =>
    obtain ⟨hshort, hs⟩ := List.forall_mem_cons.mp hs
    obtain ⟨hpair, hl₁, hshort₁⟩ := ht.draws hl hshort
    obtain ⟨hd, hl', hs'⟩ := ih hl₁ hs
    refine ⟨hpair.trans hd fun id => ?_, hl', List.forall_mem_cons.mpr ⟨hshort₁, hs'⟩⟩
    simp only [PairResult.after, openUnder_cons, openUnder_nil]
    omega
  | refused _ _ _ _ ht =>
    obtain ⟨hshort, hs'⟩ := List.forall_mem_cons.mp hs
    obtain ⟨hpair, -, -⟩ := ht.draws hl hshort
    refine ⟨hpair.mono fun id => ?_, hl, hs⟩
    simp only [PairResult.after, openUnder_cons, openUnder_nil]
    omega

theorem mem_of_openOrders {orders kept : List Order} (h : openOrders orders = .ok kept) :
    ∀ o ∈ kept, o ∈ orders := by
  rw [Checked.filterM_eq_ok h]
  exact fun o ho => (List.mem_filter.mp ho).1

theorem openUnder_openOrders_le {orders kept : List Order} (h : openOrders orders = .ok kept)
    (h0 : ∀ o ∈ orders, 0 ≤ o.remaining) (id : Hash) : openUnder id kept ≤ openUnder id orders := by
  rw [Checked.filterM_eq_ok h]
  exact openUnder_filter_le _ h0

theorem CrossesAll.draws {t : MatchTerms σ} {longs longs' shorts shorts' : List Order}
    (h : CrossesAll t longs shorts r longs' shorts' r') (hl : ∀ o ∈ longs, s.Working m .long o)
    (hs : ∀ o ∈ shorts, s.Working m .short o) :
    Draws s (longs ++ shorts) (longs' ++ shorts') r r' ∧ (∀ o ∈ longs', s.Working m .long o) ∧
      ∀ o ∈ shorts', s.Working m .short o := by
  induction h with
  | noLong => exact ⟨.of_journal_eq rfl _, hl, hs⟩
  | noShort => exact ⟨.of_journal_eq rfl _, hl, hs⟩
  | beyond => exact ⟨.of_journal_eq rfl _, hl, hs⟩
  | skipped _ _ _ ih =>
    obtain ⟨hlong, hl⟩ := List.forall_mem_cons.mp hl
    obtain ⟨hd, hl', hs'⟩ := ih hl hs
    refine ⟨hd.mono fun id => ?_, List.forall_mem_cons.mpr ⟨hlong, hl'⟩, hs'⟩
    simp only [openUnder_cons, openUnder_append]
    omega
  | crossed _ _ hlong ho _ ih =>
    obtain ⟨hlong₀, hl⟩ := List.forall_mem_cons.mp hl
    obtain ⟨hd₁, hlong', hs₁⟩ := hlong.draws hlong₀ hs
    have hs₂ := fun o h => hs₁ o (mem_of_openOrders ho o h)
    obtain ⟨hd, hl', hs'⟩ := ih hl hs₂
    refine ⟨hd₁.trans hd fun id => ?_, List.forall_mem_cons.mpr ⟨hlong', hl'⟩, hs'⟩
    have := openUnder_openOrders_le ho (fun o h => (hs₁ o h).remaining_nonneg) id
    simp only [openUnder_cons, openUnder_append]
    omega

/-- A position is liquidated into no more than the orders have left. -/
theorem Absorbs.draws {t : LiquidationTerms σ} {p : LiquidablePosition} {a a' : Amount}
    {orders orders' : List Order} (h : Absorbs t p a orders r a' orders' r')
    (hw : ∀ o ∈ orders, s.Working m side o) :
    Draws s orders orders' r r' ∧ ∀ o ∈ orders', s.Working m side o := by
  induction h with
  | nil => exact ⟨.of_journal_eq rfl _, hw⟩
  | done => exact ⟨.of_journal_eq rfl _, hw⟩
  | beyond => exact ⟨.of_journal_eq rfl _, hw⟩
  | skipped _ _ _ _ ih =>
    obtain ⟨ho, hw⟩ := List.forall_mem_cons.mp hw
    obtain ⟨hd, hw'⟩ := ih hw
    refine ⟨hd.mono fun id => ?_, List.forall_mem_cons.mpr ⟨ho, hw'⟩⟩
    simp only [openUnder_cons]
    omega
  | full _ _ _ _ _ _ ih =>
    obtain ⟨ho, hw⟩ := List.forall_mem_cons.mp hw
    obtain ⟨hd, hw'⟩ := ih hw
    refine ⟨hd.mono fun id => ?_, List.forall_mem_cons.mpr ⟨ho, hw'⟩⟩
    simp only [openUnder_cons]
    omega
  | short _ _ _ _ _ _ hr hc _ ih =>
    obtain ⟨ho, hw⟩ := List.forall_mem_cons.mp hw
    obtain ⟨hd, hw'⟩ := ih hw
    have hj := (RunM.count_journal hc).trans (RunM.reserve_journal hr)
    refine ⟨(Draws.of_journal_eq hj []).trans hd fun id => ?_, List.forall_mem_cons.mpr ⟨ho, hw'⟩⟩
    simp only [openUnder_cons, openUnder_nil]
    omega
  | @filled a a₁ a' unfilled fill signed filled reserved o rest rest' r r₁ r₂ r₃ r' u
      h0 hb hk hu hf hf0 hr ht hm ha hd hc _ ih =>
    obtain ⟨ho, hw⟩ := List.forall_mem_cons.mp hw
    obtain ⟨hdraws, hw'⟩ := ih hw
    have hpos := fill_pos_of_minAbs ho hu hf hf0
    have hrem : ({ o with filled := filled } : Order).remaining = o.remaining - fill.toInt := by
      apply Order.remaining_fill
      rw [Amount.add_eq_ok_iff.mp ha, Amount.mul_eq_ok_iff.mp hm]
    have hj : r₃.journal = r.journal ++ [⟨.liquidate p.trader o fill, true⟩] := by
      rw [RunM.count_journal hc, RunM.submit_journal ht, RunM.reserve_journal hr]
    have hfirst : Draws s [o] [{ o with filled := filled }] r r₃ := by
      apply Draws.of_receipt hj ⟨hpos.1, m, side, ho⟩
      intro id
      simp only [openUnder_cons, openUnder_nil, hrem, Submission.fillOf, if_true]
      split <;> omega
    refine ⟨hfirst.trans hdraws fun id => ?_, List.forall_mem_cons.mpr ⟨ho.fill ?_ ?_, hw'⟩⟩
    · simp only [openUnder_cons, openUnder_nil]
      omega
    · omega
    · omega
  | @refused a unfilled fill reserved o rest r r₁ r₂ r₃ r₄ r' u v w h0 hb hk hu hf hf0 hr ht hc hl
      hsk =>
    obtain ⟨ho, -⟩ := List.forall_mem_cons.mp hw
    have hpos := fill_pos_of_minAbs ho hu hf hf0
    have hj := RunM.refused_journal hr ht hc hl hsk
    exact ⟨.of_receipt hj ⟨hpos.1, m, side, ho⟩ fun id => by simp, hw⟩

/-- All orders of the books of a run. -/
def allOrders (books : List (MarketId × WorkingBook)) : List Order :=
  books.flatMap fun b => b.2.longs ++ b.2.shorts

@[simp] theorem openUnder_allOrders_cons (id : Hash) (b : MarketId × WorkingBook)
    (books : List (MarketId × WorkingBook)) :
    openUnder id (allOrders (b :: books)) =
      openUnder id b.2.longs + openUnder id b.2.shorts + openUnder id (allOrders books) := by
  simp only [allOrders, List.flatMap_cons, openUnder_append]

theorem openUnder_perm {id : Hash} (h : as.Perm bs) : openUnder id as = openUnder id bs :=
  (h.map _).sum_eq

theorem openUnder_allOrders_perm {books books' : List (MarketId × WorkingBook)} {id : Hash}
    (h : books.Perm books') :
    openUnder id (allOrders books) = openUnder id (allOrders books') :=
  openUnder_perm (h.flatMap_right _)

/-- Books whose orders are copies of stored orders of their market and side. -/
def Store.Fields (s : Store) (books : Map MarketId WorkingBook) : Prop :=
  ∀ {m b}, books[m]? = some b → ∀ side, ∀ o ∈ b.side side, s.Working m side o

theorem Configuration.nodup_inTurn (config : Configuration) (books : Map MarketId WorkingBook) :
    (config.inTurn books).Nodup := by
  refine config.nodup_activeMarkets.filterMap fun m m' e he he' => ?_
  obtain ⟨_, -, rfl⟩ := Option.map_eq_some_iff.mp he
  obtain ⟨_, -, hmarket⟩ := Option.map_eq_some_iff.mp he'
  exact (congrArg Prod.fst hmarket).symm

/-- No market has its turn twice, so that together they have no more open than all books have. -/
theorem openUnder_inTurn_le {config : Configuration} {books : Map MarketId WorkingBook}
    (hf : s.Fields books) (id : Hash) :
    openUnder id (allOrders (config.inTurn books)) ≤ openUnder id (allOrders books.toList) := by
  have hsubset : config.inTurn books ⊆ books.toList := fun e he =>
    Std.ExtTreeMap.mem_toList_iff_getElem?_eq_some.mpr (Configuration.getElem?_of_mem_inTurn he)
  obtain ⟨turns, hturns, hsublist⟩ := List.subperm_of_subset (config.nodup_inTurn books) hsubset
  obtain ⟨rest, hrest⟩ := hsublist.exists_perm_append
  have hopen : 0 ≤ openUnder id (allOrders rest) := by
    refine openUnder_nonneg id fun o ho => ?_
    obtain ⟨⟨m, b⟩, hb, ho⟩ := List.mem_flatMap.mp ho
    have hbook := Std.ExtTreeMap.mem_toList_iff_getElem?_eq_some.mp
      (hrest.mem_iff.mpr (List.mem_append_right turns hb))
    rcases List.mem_append.mp ho with ho | ho
    · exact (hf hbook .long o ho).remaining_nonneg
    · exact (hf hbook .short o ho).remaining_nonneg
  rw [openUnder_allOrders_perm hrest, ← openUnder_allOrders_perm hturns, allOrders, allOrders,
    List.flatMap_append, openUnder_append]
  exact Int.le_add_of_nonneg_right hopen

theorem openUnder_side (b : WorkingBook) (side : Side) (orders : List Order) (id : Hash) :
    openUnder id (b.withSide side orders).longs + openUnder id (b.withSide side orders).shorts +
        openUnder id (b.side side) =
      openUnder id b.longs + openUnder id b.shorts + openUnder id orders := by
  cases side <;> simp only [WorkingBook.withSide, WorkingBook.side] <;> omega

theorem WorkingBook.side_withSide (b : WorkingBook) (side side' : Side) (orders : List Order) :
    (b.withSide side orders).side side' = if side' = side then orders else b.side side' := by
  cases side <;> cases side' <;> rfl

theorem WorkingBook.prune_eq_ok {b b' : WorkingBook} (h : b.prune = .ok b') (side : Side) :
    openOrders (b.side side) = .ok (b'.side side) := by
  obtain ⟨longs, hl, h⟩ := Checked.bind_eq_ok.mp h
  obtain ⟨shorts, hs, h⟩ := Checked.bind_eq_ok.mp h
  cases h
  cases side
  · exact hl
  · exact hs

/-- Liquidating a position fills no more than the books have left. -/
theorem liquidate_draws {t : LiquidationTerms σ} {p : LiquidablePosition}
    {books books' : Map MarketId WorkingBook}
    (h : (liquidate t p books).run r = .ok books' r') (hf : s.Fields books) :
    Draws s (allOrders books.toList) (allOrders books'.toList) r r' ∧ s.Fields books' := by
  unfold liquidate at h
  obtain ⟨remaining, _, hx, h⟩ := RunM.bind_ok.mp h
  obtain ⟨-, rfl⟩ := RunM.lift_ok.mp hx
  cases hb : books[p.market]? with
  | none =>
    rw [hb] at h
    obtain ⟨rfl, rfl⟩ := RunM.pure_ok.mp h
    exact ⟨.of_journal_eq rfl _, hf⟩
  | some b =>
    rw [hb] at h
    obtain ⟨⟨a, orders⟩, r₁, ha, h⟩ := RunM.bind_ok.mp h
    obtain ⟨pruned, _, hx, h⟩ := RunM.bind_ok.mp h
    obtain ⟨hp, rfl⟩ := RunM.lift_ok.mp hx
    obtain ⟨rfl, rfl⟩ := RunM.pure_ok.mp h
    obtain ⟨hd, hw⟩ := (absorbs_of_run ha).draws (hf hb p.side)
    have hopen := fun side => WorkingBook.prune_eq_ok hp side
    have hcopies : ∀ side, ∀ o ∈ (b.withSide p.side orders).side side,
        s.Working p.market side o := by
      intro side
      rw [WorkingBook.side_withSide]
      split
      next he => exact he ▸ hw
      next => exact hf hb side
    constructor
    · apply hd.mono
      intro id
      rw [openUnder_allOrders_perm (Map.toList_perm_cons_erase hb),
        openUnder_allOrders_perm Map.toList_insert_perm, openUnder_allOrders_cons,
        openUnder_allOrders_cons]
      have := openUnder_side b p.side orders id
      have := openUnder_openOrders_le (hopen .long)
        (fun o h => (hcopies .long o h).remaining_nonneg) id
      have := openUnder_openOrders_le (hopen .short)
        (fun o h => (hcopies .short o h).remaining_nonneg) id
      simp only [WorkingBook.side] at *
      omega
    · intro m b' hb' side o ho
      rw [Map.getElem?_insert_key] at hb'
      split at hb'
      next he =>
        cases hb'
        exact he ▸ hcopies side o (mem_of_openOrders (hopen side) o ho)
      next => exact hf hb' side o ho

theorem liquidateAll_draws {t : LiquidationTerms σ} {positions : List LiquidablePosition}
    {books books' : Map MarketId WorkingBook}
    (h : (liquidateAll t positions books).run r = .ok books' r') (hf : s.Fields books) :
    Draws s (allOrders books.toList) (allOrders books'.toList) r r' ∧ s.Fields books' := by
  induction positions generalizing books r with
  | nil =>
    obtain ⟨rfl, rfl⟩ := RunM.pure_ok.mp h
    exact ⟨.of_journal_eq rfl _, hf⟩
  | cons p rest ih =>
    obtain ⟨books₁, r₁, hp, h⟩ := RunM.bind_ok.mp h
    obtain ⟨hd₁, hf₁⟩ := liquidate_draws hp hf
    obtain ⟨hd, hf'⟩ := ih h hf₁
    exact ⟨hd₁.trans hd fun id => by omega, hf'⟩

theorem crossMarkets_draws {executor : Executor σ} {margin : MarginTerms} {config : Configuration}
    {books : List (MarketId × WorkingBook)} {u : Unit}
    (h : (crossMarkets executor margin config books).run r = .ok u r')
    (hw : ∀ b ∈ books, ∀ side, ∀ o ∈ b.2.side side, s.Working b.1 side o) :
    Draws s (allOrders books) [] r r' := by
  induction books generalizing r with
  | nil =>
    obtain ⟨-, rfl⟩ := RunM.pure_ok.mp h
    exact .of_journal_eq rfl _
  | cons b rest ih =>
    rcases b with ⟨m, b⟩
    obtain ⟨hb, hw⟩ := List.forall_mem_cons.mp hw
    obtain ⟨⟨longs, shorts⟩, r₁, hc, h⟩ := RunM.bind_ok.mp h
    obtain ⟨hd, hl, hs⟩ := (crossesAll_of_run hc).draws (hb .long) (hb .short)
    apply hd.trans (ih h hw)
    intro id
    have := openUnder_nonneg id fun o h => (hl o h).remaining_nonneg
    have := openUnder_nonneg id fun o h => (hs o h).remaining_nonneg
    simp only [openUnder_allOrders_cons, openUnder_append, openUnder_nil]
    omega

end PerpExchange
