import PerpExchange.Proofs.Dealings
import PerpExchange.Proofs.RunCompletion
import PerpExchange.Proofs.RunJournal
import PerpExchange.Proofs.SweepFindings
import PerpExchange.Proofs.WorkingBooks

/-! A run liquidates only traders below the maintenance margin, the worst off first, and no more of a
position than its threshold. -/
namespace PerpExchange

/-- What a submission liquidates of the position of a trader in a market. -/
def Submission.liquidationOf (a : Address) (m : MarketId) : Submission → Int
  | .liquidate trader order fill => if trader = a ∧ order.market = m then fill.toInt else 0
  | .matchOrders .. | .cancelOrders _ | .settleFunding | .samplePremium => 0

/-- What the accepted submissions of a journal liquidate of the position of a trader in a market. -/
def liquidated (a : Address) (m : MarketId) (journal : List Receipt) : Int :=
  (journal.map fun x => if x.accepted then x.submission.liquidationOf a m else 0).sum

section
variable {a : Address} {m : MarketId}

theorem liquidated_append (j j' : List Receipt) :
    liquidated a m (j ++ j') = liquidated a m j + liquidated a m j' := by
  simp [liquidated]

theorem liquidated_eq_zero {j : List Receipt}
    (h : ∀ x ∈ j, x.submission.liquidationOf a m = 0) : liquidated a m j = 0 := by
  induction j with
  | nil => rfl
  | cons x j ih =>
    obtain ⟨hx, h⟩ := List.forall_mem_cons.mp h
    have hj := ih h
    unfold liquidated at hj ⊢
    rw [List.map_cons, List.sum_cons, hj, hx]
    split <;> rfl

end

section
variable {config : Configuration} {books : Map MarketId WorkingBook} {a : Address} {m : MarketId}
variable {p : LiquidablePosition} {positions : List LiquidablePosition} {ds : List Dealing}

/-- The orders of the books are in the market they are listed under. -/
def InMarkets (books : Map MarketId WorkingBook) : Prop :=
  ∀ {m : MarketId} {side : Side} {o : Order}, Offers books m side o → o.market = m

theorem LiquidationOf.liquidated_eq (hb : InMarkets books) (h : LiquidationOf config books p ds) :
    liquidated a m (ds.map Dealing.receipt) =
      if p.trader = a ∧ p.market = m then volume ds else 0 := by
  have hall := h.liquidates
  clear h
  induction ds with
  | nil => simp [liquidated]
  | cons d ds ih =>
    obtain ⟨hd, hall⟩ := List.forall_mem_cons.mp hall
    have hrest := ih hall
    rcases hd with ⟨-, o, fill, hsub, -, ho, -⟩
    have hfill : d.fill = fill := by rw [Dealing.fill, hsub]
    unfold liquidated at hrest ⊢
    rw [List.map_cons, List.map_cons, List.sum_cons, hrest, volume_cons, Dealing.volume, hfill, hsub,
      Submission.liquidationOf, hb ho]
    split <;> split <;> simp

theorem Liquidations.liquidated_eq_zero (hb : InMarkets books)
    (h : Liquidations config books positions ds)
    (hnone : ∀ p ∈ positions, ¬ (p.trader = a ∧ p.market = m)) :
    liquidated a m (ds.map Dealing.receipt) = 0 := by
  induction h with
  | nil => rfl
  | cons hof _ ih =>
    obtain ⟨hp, hnone⟩ := List.forall_mem_cons.mp hnone
    rw [List.map_append, liquidated_append, hof.liquidated_eq hb, ih hnone, if_neg hp]
    rfl

/-- Of positions that are apart one at most is that of a trader in a market, and no more of it is
liquidated than there was to do. -/
theorem Liquidations.liquidated_le {c : Int} (hb : InMarkets books)
    (h : Liquidations config books positions ds)
    (hapart : positions.Pairwise LiquidablePosition.Apart)
    (hle : ∀ p ∈ positions, p.trader = a → p.market = m →
      p.filledSize = 0 ∧ 0 ≤ p.size.toInt ∧ p.size.toInt ≤ c) (h0 : 0 ≤ c) :
    liquidated a m (ds.map Dealing.receipt) ≤ c := by
  induction h with
  | nil => exact h0
  | @cons p positions ds ds' hof hrest ih =>
    obtain ⟨hp, hapart⟩ := List.pairwise_cons.mp hapart
    obtain ⟨hpc, hle⟩ := List.forall_mem_cons.mp hle
    rw [List.map_append, liquidated_append, hof.liquidated_eq hb]
    split
    next hat =>
      have hothers : ∀ q ∈ positions, ¬ (q.trader = a ∧ q.market = m) := by
        rintro q hq ⟨ha, hm⟩
        rcases hp q hq with hne | hne
        · exact hne (hat.1.trans ha.symm)
        · exact hne (hat.2.trans hm.symm)
      obtain ⟨hfresh, hsize, hc⟩ := hpc hat.1 hat.2
      have hvolume := hof.volume_le (by rw [hfresh, Amount.toInt_zero]; exact hsize)
      rw [hfresh, Amount.toInt_zero] at hvolume
      rw [hrest.liquidated_eq_zero hb hothers]
      omega
    next =>
      have := ih hapart hle
      omega

/-- Positions that stand in an order are liquidated in it. -/
theorem Liquidations.pairwise {R : LiquidablePosition → LiquidablePosition → Prop}
    (h : Liquidations config books positions ds) (hs : positions.Pairwise R) (hr : ∀ p, R p p) :
    ds.Pairwise fun d e => ∃ p ∈ positions, ∃ q ∈ positions,
      d.Liquidates config books p ∧ e.Liquidates config books q ∧ R p q := by
  induction h with
  | nil => exact .nil
  | @cons p positions ds ds' hof hrest ih =>
    obtain ⟨hp, hs⟩ := List.pairwise_cons.mp hs
    refine List.pairwise_append.mpr ⟨?_, (ih hs).imp ?_, ?_⟩
    · exact List.pairwise_of_forall_mem_list fun d hd e he => ⟨p, List.mem_cons_self, p,
        List.mem_cons_self, hof.liquidates d hd, hof.liquidates e he, hr p⟩
    · rintro d e ⟨q, hq, q', hq', hrest⟩
      exact ⟨q, List.mem_cons_of_mem _ hq, q', List.mem_cons_of_mem _ hq', hrest⟩
    · intro d hd e he
      obtain ⟨q, hq, he⟩ := hrest.exists_position e he
      exact ⟨p, List.mem_cons_self, q, List.mem_cons_of_mem _ hq, hof.liquidates d hd, he, hp q hq⟩

end

/-- An order is, up to its fill, one that rests in the book of its market. -/
def Store.Lists (s : Store) (o : Order) : Prop :=
  ∃ p, s.orders[o.id]? = some p ∧ o = { p with filled := o.filled } ∧
    BookEntry.ofOrder p ∈ (s.book p.market).side p.side

section
variable {σ : Type} {s : Store} {executor : Executor σ} {config : Configuration}
variable {block : BlockNumber} {now : Timestamp} {r r' : RunState σ}

/-- What a run leaves in its journal: notices, then liquidations of what the sweep has found, then
matches. -/
theorem runBlock_journal {outcome : RunOutcome}
    (h : (runBlock executor config s block now).run r = .ok outcome r') :
    ∃ found cancelled books notices, ∃ closed crossed : List Dealing,
      s.sweep config.toRiskState = .ok found ∧
      s.workingBooks config block now cancelled = .ok books ∧
      r'.journal = r.journal ++
        (notices ++ (closed.map Dealing.receipt ++ crossed.map Dealing.receipt)) ∧
      (∀ x ∈ notices, Notice found x.submission) ∧
      Liquidations config books found.liquidable closed ∧ ∀ d ∈ crossed, d.Matches books := by
  cases runsBlock_of_run h with
  | @parts _ _ found cancelled books _ _ _ _ _ _ _ _ hfunding hsample hsweep hcancel hbooks hliq
      hcross hcount =>
    obtain ⟨notices, hj, hnotices⟩ := notices_journal hfunding hsample hcancel
    obtain ⟨⟨closed, hclosed, hof⟩, honly⟩ := liquidateAll_deals hliq (OffersOnly.refl books)
    obtain ⟨crossed, hcrossed, hmatched⟩ := crossMarkets_deals hcross fun e he =>
      honly (Configuration.getElem?_of_mem_inTurn he)
    refine ⟨found, cancelled, books, notices, closed, crossed, hsweep, hbooks, ?_, hnotices, hof,
      hmatched⟩
    rw [RunM.count_journal hcount, hcrossed.journal, hclosed.journal, hj, List.append_assoc,
      List.append_assoc]

theorem Store.HasThresholds.thresholdOf {a : Address} {m : MarketId} {q : Position}
    (h : s.HasThresholds) (hq : s.HasPosition a m q) : ThresholdOf q.size q.liquidationThreshold := by
  rcases hq with ⟨t, ht, hq⟩
  exact h a t ht m q hq

/-- What the working books offer rests in the books of the store, in the market and on the side it is
offered. -/
theorem Store.lists_of_offers {cancelled : List Hash} {books : Map MarketId WorkingBook}
    {m : MarketId} {side : Side} {o : Order} (hi : s.Indexed)
    (hbooks : s.workingBooks config block now cancelled = .ok books) (h : Offers books m side o) :
    s.Lists o ∧ o.market = m ∧ o.side = side := by
  rcases h with ⟨b, hb, w, hw, he⟩
  obtain ⟨p, hp, hm, hs, hcopy, -⟩ := (workingBooks_enter hbooks hb hw).copy hi
  have hid : o.id = w.id := by rw [he]
  have ho : o = { p with filled := o.filled } := by
    rw [he, hcopy]
  refine ⟨⟨p, hid ▸ hp, ho, Indexes.listed hi hp⟩, ?_, ?_⟩
  · rw [ho]
    exact hm
  · rw [ho]
    exact hs

theorem Notice.ne_liquidate {found : SweepResult} {x : Submission} (h : Notice found x)
    (a : Address) (o : Order) (fill : Amount) : x ≠ .liquidate a o fill := by
  rintro rfl
  cases h

theorem Notice.liquidationOf {found : SweepResult} {x : Submission} (h : Notice found x)
    (a : Address) (m : MarketId) : x.liquidationOf a m = 0 := by
  cases h <;> rfl

theorem Dealing.Matches.ne_liquidate {books : Map MarketId WorkingBook} {d : Dealing}
    (h : d.Matches books) (a : Address) (o : Order) (fill : Amount) :
    d.receipt.submission ≠ .liquidate a o fill := by
  rcases h with ⟨_, _, _, hsub, -⟩
  rw [hsub]
  exact fun he => by cases he

theorem Dealing.Matches.liquidationOf {books : Map MarketId WorkingBook} {d : Dealing}
    (h : d.Matches books) (a : Address) (m : MarketId) :
    d.receipt.submission.liquidationOf a m = 0 := by
  rcases h with ⟨_, _, _, hsub, -⟩
  rw [hsub]
  rfl

/-- A liquidation is of a position the sweep has found, by an order that rests on its side. -/
theorem Dealing.Liquidates.spec {cancelled : List Hash} {books : Map MarketId WorkingBook}
    {p : LiquidablePosition} {d : Dealing} {a : Address} {o : Order} {fill : Amount}
    (hi : s.Indexed) (hbooks : s.workingBooks config block now cancelled = .ok books)
    (hp : s.Liquidable config.toRiskState p) (h : d.Liquidates config books p)
    (hsub : d.receipt.submission = .liquidate a o fill) :
    p.trader = a ∧ 0 < fill ∧ s.Lists o ∧
      (∃ q, s.HasPosition a o.market q ∧ q.liquidationThreshold ≠ 0 ∧ o.side = Side.of q.size) ∧
      (o.side = .long → (config.liquidationBounds o.market).lower ≤ o.price) ∧
      (o.side = .short → o.price ≤ (config.liquidationBounds o.market).upper) := by
  rcases h with ⟨-, o', fill', hsub', hpos, ho, hprice⟩
  rw [hsub] at hsub'
  cases hsub'
  obtain ⟨hlists, hm, hs⟩ := Store.lists_of_offers hi hbooks ho
  obtain ⟨q, hq, hne, hside, -⟩ := hp.position
  rw [← hm, ← hs] at hprice
  refine ⟨rfl, hpos, hlists, ⟨q, hm ▸ hq, hne, hs.trans hside⟩, fun hlong => ?_, fun hshort => ?_⟩
  · rw [hlong, PriceBounds.excludes, decide_eq_true_eq, Amount.lt_iff] at hprice
    rw [Amount.le_iff]
    omega
  · rw [hshort, PriceBounds.excludes, decide_eq_true_eq, Amount.lt_iff] at hprice
    rw [Amount.le_iff]
    omega

/-- The orders of a cancellation are of a trader who is not below the maintenance margin. -/
theorem Store.Finds.cancellation {found : SweepResult} {seen : List Address} {orders : List Order}
    {o : Order} {rs : RiskState} (h : s.Finds rs seen found)
    (hn : Notice found (.cancelOrders orders)) (ho : o ∈ orders) :
    ∃ fraction, s.HasFraction rs o.trader fraction ∧ rs.maintenanceMargin ≤ fraction := by
  cases hn with
  | @cancellation a selected _ ha hb =>
    obtain ⟨fraction, hf, hle, hall⟩ := h.cancels a selected ha
    have hmem : o ∈ selected := by
      rw [← flatten_batches maxCancelBatch selected]
      exact List.mem_flatten.mpr ⟨orders, hb, ho⟩
    rw [trader_of_mem_cancellable (hall o hmem)]
    exact ⟨fraction, hf, hle⟩

/-- The liquidations of a journal are in order if all of them lie in a stretch that is. -/
theorem pairwise_liquidations {R : Address → Address → Prop} {front middle back : List Receipt}
    (hfront : ∀ x ∈ front, ∀ a o fill, x.submission ≠ .liquidate a o fill)
    (hback : ∀ x ∈ back, ∀ a o fill, x.submission ≠ .liquidate a o fill)
    (hmiddle : middle.Pairwise fun x y => ∀ a o fill a' o' fill',
      x.submission = .liquidate a o fill → y.submission = .liquidate a' o' fill' → R a a') :
    (front ++ (middle ++ back)).Pairwise fun x y => ∀ a o fill a' o' fill',
      x.submission = .liquidate a o fill → y.submission = .liquidate a' o' fill' → R a a' := by
  refine List.pairwise_append.mpr ⟨?_, List.pairwise_append.mpr ⟨hmiddle, ?_, ?_⟩, ?_⟩
  · refine List.pairwise_of_forall_mem_list fun x hx y _ a o fill _ _ _ hsub => ?_
    exact absurd hsub (hfront x hx a o fill)
  · refine List.pairwise_of_forall_mem_list fun x hx y _ a o fill _ _ _ hsub => ?_
    exact absurd hsub (hback x hx a o fill)
  · intro x _ y hy _ _ _ a o fill _ hsub
    exact absurd hsub (hback y hy a o fill)
  · intro x hx y _ a o fill _ _ _ hsub
    exact absurd hsub (hfront x hx a o fill)

/-- The liquidations of positions the sweep has found come by the margin fractions of their
traders. -/
theorem Liquidations.by_fraction {found : SweepResult} {seen : List Address}
    {cancelled : List Hash} {books : Map MarketId WorkingBook} {ds : List Dealing} (hi : s.Indexed)
    (hbooks : s.workingBooks config block now cancelled = .ok books)
    (hfinds : s.Finds config.toRiskState seen found)
    (hsorted : found.liquidable.Pairwise fun p q => p.marginFraction ≤ q.marginFraction)
    (h : Liquidations config books found.liquidable ds) :
    (ds.map Dealing.receipt).Pairwise fun x y => ∀ a o fill a' o' fill',
      x.submission = .liquidate a o fill → y.submission = .liquidate a' o' fill' →
        ∀ fraction fraction', s.HasFraction config.toRiskState a fraction →
          s.HasFraction config.toRiskState a' fraction' → fraction ≤ fraction' := by
  refine List.pairwise_map.mpr ((h.pairwise hsorted fun p => Int.le_refl _).imp ?_)
  rintro d e ⟨p, hp, q, hq, hd, he, hle⟩ a o fill a' o' fill' hsub hsub' x y hx hy
  have hp := (hfinds.liquidable p hp).1
  have hq := (hfinds.liquidable q hq).1
  obtain ⟨rfl, -⟩ := hd.spec hi hbooks hp hsub
  obtain ⟨rfl, -⟩ := he.spec hi hbooks hq hsub'
  rw [hx.eq hp.fraction, hy.eq hq.fraction]
  exact hle

/-- Only traders below the maintenance margin are liquidated, by orders that rest on the side of
their position within the bounds on liquidation prices. No more of a position is liquidated than its
threshold, and so no more than there is of it. The worst off come first, and no order of a trader below
the maintenance margin is cancelled. -/
theorem runBlock_liquidates_within_thresholds {metrics : Metrics} {desk : σ} {outcome : RunOutcome}
    (hi : s.Indexed) (ht : s.HasThresholds)
    (h : (runBlock executor config s block now).run (.start ∅ metrics desk) = .ok outcome r) :
    (∀ x ∈ r.journal, ∀ a o fill, x.submission = .liquidate a o fill → 0 < fill ∧
      (∃ fraction, s.HasFraction config.toRiskState a fraction ∧
        fraction < config.maintenanceMargin) ∧ s.Lists o ∧
      (∃ q, s.HasPosition a o.market q ∧ q.liquidationThreshold ≠ 0 ∧ o.side = Side.of q.size) ∧
      (o.side = .long → (config.liquidationBounds o.market).lower ≤ o.price) ∧
      (o.side = .short → o.price ≤ (config.liquidationBounds o.market).upper)) ∧
    (∀ a m q, s.HasPosition a m q →
      liquidated a m r.journal ≤ q.liquidationThreshold.toInt.natAbs ∧
      liquidated a m r.journal ≤ q.size.toInt.natAbs) ∧
    (r.journal.Pairwise fun x y => ∀ a o fill a' o' fill', x.submission = .liquidate a o fill →
      y.submission = .liquidate a' o' fill' → ∀ fraction fraction',
        s.HasFraction config.toRiskState a fraction →
        s.HasFraction config.toRiskState a' fraction' → fraction ≤ fraction') ∧
    (∀ x ∈ r.journal, ∀ orders, x.submission = .cancelOrders orders → ∀ o ∈ orders,
      ∃ fraction, s.HasFraction config.toRiskState o.trader fraction ∧
        config.maintenanceMargin ≤ fraction) := by
  obtain ⟨found, cancelled, books, notices, closed, crossed, hsweep, hbooks, hj, hnotices, hclosed,
    hcrossed⟩ := runBlock_journal h
  obtain ⟨⟨seen, hfinds⟩, hsorted⟩ := Store.sweep_eq_ok hsweep
  have hj : r.journal = notices ++ (closed.map Dealing.receipt ++ crossed.map Dealing.receipt) := hj
  rw [hj]
  refine ⟨?_, ?_, ?_, ?_⟩
  · intro x hx a o fill hsub
    rcases List.mem_append.mp hx with hx | hx
    · exact absurd hsub ((hnotices x hx).ne_liquidate a o fill)
    rcases List.mem_append.mp hx with hx | hx <;> obtain ⟨d, hd, rfl⟩ := List.mem_map.mp hx
    · obtain ⟨p, hp, hd⟩ := hclosed.exists_position d hd
      have hliq := (hfinds.liquidable p hp).1
      obtain ⟨rfl, hpos, hrest⟩ := hd.spec hi hbooks hliq hsub
      exact ⟨hpos, ⟨p.marginFraction, hliq.fraction, hliq.below⟩, hrest⟩
    · exact absurd hsub ((hcrossed d hd).ne_liquidate a o fill)
  · intro a m q hq
    have hthreshold := ht.thresholdOf hq
    have hle : liquidated a m (closed.map Dealing.receipt) ≤
        q.liquidationThreshold.toInt.natAbs := by
      -- The sweep lists a position once, with nothing filled and its threshold as its size.
      refine hclosed.liquidated_le (fun ho => (Store.lists_of_offers hi hbooks ho).2.1)
        hfinds.apart ?_ (Int.natCast_nonneg _)
      rintro p hp rfl rfl
      obtain ⟨⟨-, -, ⟨q', hq', -, -, hsize⟩, hfresh⟩, -⟩ := hfinds.liquidable p hp
      cases hq.eq hq'
      exact ⟨hfresh, by omega, by omega⟩
    have hnotice := liquidated_eq_zero fun x hx => (hnotices x hx).liquidationOf a m
    have hmatch : liquidated a m (crossed.map Dealing.receipt) = 0 :=
      liquidated_eq_zero (List.forall_mem_map.mpr fun d hd => (hcrossed d hd).liquidationOf a m)
    rw [liquidated_append, liquidated_append, hnotice, hmatch]
    have := hthreshold.natAbs_le
    omega
  · refine pairwise_liquidations (fun x hx => (hnotices x hx).ne_liquidate) ?_
      (hclosed.by_fraction hi hbooks hfinds hsorted)
    exact List.forall_mem_map.mpr fun d hd => (hcrossed d hd).ne_liquidate
  · intro x hx orders hsub o ho
    rcases List.mem_append.mp hx with hx | hx
    · exact hfinds.cancellation (hsub ▸ hnotices x hx) ho
    rcases List.mem_append.mp hx with hx | hx <;> obtain ⟨d, hd, rfl⟩ := List.mem_map.mp hx
    · obtain ⟨p, -, -, _, _, hsub', -⟩ := hclosed.exists_position d hd
      rw [hsub] at hsub'
      cases hsub'
    · obtain ⟨_, _, _, hsub', -⟩ := hcrossed d hd
      rw [hsub] at hsub'
      cases hsub'

end

/-- The order that is there could take all of the position, and takes its threshold, a quarter. -/
theorem underwater_liquidated_to_threshold :
    Store.underwater.Indexed ∧ Store.underwater.HasThresholds ∧ ∃ outcome r,
      (runBlock Desk.executor oneMarket.configuration Store.underwater 3 4).run
        (.start ∅ default default) = .ok outcome r ∧
      liquidated Store.boughtHigh.trader 0 r.journal = 250000000000000000 ∧
      (∀ x ∈ r.journal, ∀ a o fill, x.submission = .liquidate a o fill →
        ∃ fraction, Store.underwater.HasFraction (.ofParams oneMarket) a fraction ∧
          fraction < oneMarket.maintenanceMargin) ∧
      ∀ a m q, Store.underwater.HasPosition a m q →
        liquidated a m r.journal ≤ q.liquidationThreshold.toInt.natAbs := by
  have hi := Store.ingested_underwater.invariant.1
  have ht := Store.ingested_underwater.hasThresholds
  have hrun : (match (runBlock Desk.executor oneMarket.configuration Store.underwater 3 4).run
      (.start ∅ default default) with
    | .ok _ r => liquidated Store.boughtHigh.trader 0 r.journal
    | .error _ _ => 0) = 250000000000000000 := by decide +kernel
  split at hrun
  next outcome r h =>
    obtain ⟨hbelow, hbudget, -, -⟩ := runBlock_liquidates_within_thresholds hi ht h
    refine ⟨hi, ht, outcome, r, h, hrun, fun x hx a o fill hsub => ?_, fun a m q hq => ?_⟩
    · exact (hbelow x hx a o fill hsub).2.1
    · exact (hbudget a m q hq).1
  next => cases hrun

end PerpExchange
