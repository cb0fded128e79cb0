import PerpExchange.Proofs.RunJournal
import PerpExchange.Proofs.WorkingBooks

/-! A whole run fills no order beyond its size, and every pair it submits crosses in price and in
time. -/
namespace PerpExchange

variable {σ : Type} {s : Store} {executor : Executor σ} {config : Configuration}
variable {block : BlockNumber} {now : Timestamp} {r r' : RunState σ}

/-- A submission that does not trade fills nothing. -/
theorem Submission.fillOf_of_not_trades {x : Submission} (h : ¬ x.Trades) (id : Hash) :
    x.fillOf id = 0 := by
  cases x with
  | matchOrders => exact absurd trivial h
  | liquidate => exact absurd trivial h
  | cancelOrders | settleFunding | samplePremium => rfl

theorem Store.admits_of_not_trades {x : Submission} (h : ¬ x.Trades) : s.Admits x := by
  cases x with
  | matchOrders => exact absurd trivial h
  | liquidate => exact absurd trivial h
  | cancelOrders | settleFunding | samplePremium => trivial

theorem filledBy_eq_zero {journal : List Receipt} (h : ∀ x ∈ journal, ¬ x.submission.Trades)
    (id : Hash) : filledBy id journal = 0 :=
  filledBy_of_unnamed fun x hx => Submission.fillOf_of_not_trades (h x hx) id

theorem draws_of_not_trades {journal : List Receipt} (hj : r'.journal = r.journal ++ journal)
    (h : ∀ x ∈ journal, ¬ x.submission.Trades) : Draws s [] [] r r' :=
  ⟨journal, hj, fun x hx => Store.admits_of_not_trades (h x hx), fun id => by
    simp [filledBy_eq_zero h]⟩

/-- A run fills no more of any order than the working books it sets up have open. -/
theorem runBlock_draws {outcome : RunOutcome} (hi : s.Indexed) (hb : s.InBounds)
    (h : (runBlock executor config s block now).run r = .ok outcome r') :
    ∃ books cancelled, s.workingBooks config block now cancelled = .ok books ∧
      Draws s (allOrders books.toList) [] r r' := by
  cases runsBlock_of_run h with
  | @parts _ _ _ cancelled books books' _ _ r₃ _ r₅ _ _ hfunding hsample _ hcancel hbooks hliq hcross
      hc =>
  refine ⟨books, cancelled, hbooks, ?_⟩
  have hstaff := Store.workingBooks_eq_ok hi hb hbooks
  obtain ⟨hd, hf⟩ := liquidateAll_draws hliq hstaff.copies
  have hmarkets := crossMarkets_draws hcross fun e he =>
    hf (Configuration.getElem?_of_mem_inTurn he)
  obtain ⟨notices, hj, hnotices⟩ := notices_journal hfunding hsample hcancel
  have hstart : Draws s [] [] r r₃ := draws_of_not_trades hj fun x hx => (hnotices x hx).not_trades
  have htrade : Draws s (allOrders books.toList) [] r₃ r₅ := hd.trans hmarkets fun id => by
    have hturns : openUnder id (allOrders (config.inTurn books')) ≤ _ := openUnder_inTurn_le hf id
    omega
  exact hstart.trans (htrade.of_journal (RunM.count_journal hc)) fun id => by omega

/-- A run fills no more of an order than may trade of it. -/
theorem runBlock_fills_le_openAt {metrics : Metrics} {desk : σ} {outcome : RunOutcome} {id : Hash}
    {o : Order} (hi : s.Indexed) (hb : s.InBounds)
    (h : (runBlock executor config s block now).run (.start ∅ metrics desk) = .ok outcome r)
    (ho : s.orders[id]? = some o) : filledBy id r.journal ≤ s.openAt block now o := by
  obtain ⟨books, cancelled, hbooks, journal, hj, -, hle⟩ := runBlock_draws hi hb h
  have hj : r.journal = journal := hj
  subst hj
  have := hle id
  have := Store.openUnder_workingBooks_le hi hb hbooks ho
  rw [openUnder_nil] at *
  omega

/-- No order is filled beyond its size by a run, whatever the executor takes or refuses: the fills
of the accepted submissions that name it add up to no more than what the store has left of it. -/
theorem runBlock_fills_le_unfilled {metrics : Metrics} {desk : σ} {outcome : RunOutcome}
    (hi : s.Indexed) (hb : s.InBounds)
    (h : (runBlock executor config s block now).run (.start ∅ metrics desk) = .ok outcome r) :
    (∀ (id : Hash) (o : Order), s.orders[id]? = some o →
      filledBy id r.journal ≤ (o.size.toInt - o.filled.toInt).natAbs) ∧
    (∀ x ∈ r.journal, ∀ trader order fill, x.submission = .liquidate trader order fill →
      0 < fill ∧ s.IsCopy order) ∧
    (∀ x ∈ r.journal, ∀ long short fill, x.submission = .matchOrders long short fill →
      0 < fill ∧ s.IsCopy long ∧ s.IsCopy short ∧ long.side = .long ∧ short.side = .short ∧
        long.market = short.market ∧ short.price ≤ long.price ∧
        (long.block < short.block → ¬ long.isIoc ∧ ¬ short.isPostOnly) ∧
        (short.block < long.block → ¬ short.isIoc ∧ ¬ long.isPostOnly)) := by
  obtain ⟨books, cancelled, hbooks, journal, hj, hadm, -⟩ := runBlock_draws hi hb h
  have hj : r.journal = journal := hj
  subst hj
  refine ⟨?_, ?_, ?_⟩
  · intro id o ho
    have h0 := (hb ho).remaining_nonneg
    rw [Order.natAbs_unfilled h0]
    exact Int.le_trans (runBlock_fills_le_openAt hi hb h ho) (Store.openAt_bounds h0).2
  · intro x hx trader order fill he
    have ha := hadm x hx
    rw [he] at ha
    rcases ha with ⟨hpos, m, side, hw⟩
    exact ⟨hpos, hw.isCopy⟩
  · intro x hx long short fill he
    have ha := hadm x hx
    rw [he] at ha
    rcases ha with ⟨hpos, ⟨m, hl, hs⟩, hp, hc⟩
    refine ⟨hpos, hl.isCopy, hs.isCopy, hl.side_eq, hs.side_eq,
      hl.market_eq.trans hs.market_eq.symm, hp, ?_, ?_⟩
    · intro hlt
      simpa [canCrossInTime, hlt] using hc
    · intro hlt
      have hnlt : ¬ long.block < short.block := fun h => absurd (UInt64.lt_trans h hlt) (by simp)
      simpa [canCrossInTime, hlt, hnlt] using hc

/-- A long of ten units and a short of four at one price. -/
def crossingPair : Store :=
  let terms (size : Amount) : OrderTerms := ⟨1, Bytes.zero 20, size, 5, 0, false⟩
  (Store.empty.add (.place (Bytes.ofList 32 [1]) (.limit ⟨terms 10, false⟩) 1)).add
    (.place (Bytes.ofList 32 [2]) (.limit ⟨terms (.clamp (-4)), false⟩) 2)

/-- Only the market of the two orders is active, with default terms. -/
def firstMarketOpen : Configuration := (ProtocolParams.adjustMarket default 1 id).configuration

theorem crossingPair_fills_le_unfilled :
    ∃ outcome r,
      (runBlock Desk.executor firstMarketOpen crossingPair 3 7).run (.start ∅ default default) =
        .ok outcome r ∧ outcome.matchings = 1 ∧
      ∀ (id : Hash) (o : Order), crossingPair.orders[id]? = some o →
        filledBy id r.journal ≤ (o.size.toInt - o.filled.toInt).natAbs := by
  have hmatched : (match (runBlock Desk.executor firstMarketOpen crossingPair 3 7).run
      (.start ∅ default default) with
    | .ok outcome _ => outcome.matchings
    | .error _ _ => 0) = 1 := by decide +kernel
  have hi : crossingPair.Indexed := (Store.indexed_empty.add _).add _
  have hb : crossingPair.InBounds :=
    Store.InBounds.add (Store.InBounds.add Store.inBounds_empty (Order.inBounds_place ..))
      (Order.inBounds_place ..)
  split at hmatched
  next outcome r h => exact ⟨outcome, r, h, hmatched, (runBlock_fills_le_unfilled hi hb h).1⟩
  next => cases hmatched

end PerpExchange
