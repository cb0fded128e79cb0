import PerpExchange.Proofs.FillBudget
import PerpExchange.Proofs.MarginFlow

/-! A run as a list of dealings: the fills it submits, each with the market it is made in and the
verdict on it. A stretch of a run takes from the margins what its accepted dealings charge, and each
dealing is covered by the margins it finds. -/
namespace PerpExchange

/-- Orders that trade at once and signed orders need margin of their own, unless they only reduce a
position. -/
def Order.NeedsMargin (o : Order) : Prop := (o.kind = .ioc ∨ o.kind = .signed) ∧ ¬ o.reduceOnly

instance (o : Order) : Decidable o.NeedsMargin := inferInstanceAs (Decidable (_ ∧ _))

theorem Order.isMarginExempt_iff {o : Order} : o.isMarginExempt ↔ ¬ o.NeedsMargin := by
  unfold isMarginExempt NeedsMargin
  cases o.kind <;> simp

/-- The margin that a fill of an order takes. -/
def Order.cost (terms : MarginTerms) (bound : Option Amount) (fill : Amount) (o : Order) :
    Checked Amount :=
  if o.NeedsMargin then
    requiredMargin o.price (o.side = .short) fill bound terms.minAllowable terms.takerFee
  else .ok 0

/-- Margins with an amount taken from one trader. -/
def debit (μ : Address → Int) (trader : Address) (amount : Amount) : Address → Int :=
  fun a => μ a - if trader = a then amount.toInt else 0

/-- What a trader pays for some orders at a cost. -/
def charge (cost : Order → Checked Amount) (a : Address) (orders : List Order) : Int :=
  (orders.map fun o => if o.trader = a then ((cost o).toOption.getD 0).toInt else 0).sum

/-- Margins out of which some orders are paid for, one after the other. -/
def Covers (cost : Order → Checked Amount) : (Address → Int) → List Order → Prop
  | _, [] => True
  | μ, o :: rest => ∃ k, cost o = .ok k ∧ (o.NeedsMargin → k.toInt ≤ μ o.trader) ∧
      Covers cost (debit μ o.trader k) rest

/-- A fill that was submitted: the market its orders trade in, and the receipt. -/
structure Dealing where
  market : MarketId
  receipt : Receipt

namespace Dealing

def fill (d : Dealing) : Amount :=
  match d.receipt.submission with
  | .matchOrders _ _ fill | .liquidate _ _ fill => fill
  | .cancelOrders _ | .settleFunding | .samplePremium => 0

/-- The highest price the orders are charged at: that of liquidations if it is one, and the highest
acceptable one if not. -/
def bound (config : Configuration) (d : Dealing) : Option Amount :=
  match d.receipt.submission with
  | .liquidate .. => (config.liquidationBounds d.market).upperLimit?
  | .matchOrders .. => (config.acceptableBounds d.market).upperLimit?
  | .cancelOrders _ | .settleFunding | .samplePremium => none

def cost (config : Configuration) (terms : MarginTerms) (d : Dealing) : Order → Checked Amount :=
  Order.cost terms (d.bound config) d.fill

/-- The margins can pay for the orders. -/
def CoveredBy (config : Configuration) (terms : MarginTerms) (μ : Address → Int) (d : Dealing) :
    Prop :=
  Covers (d.cost config terms) μ d.receipt.submission.orders

/-- What a trader pays; nothing if the fill was refused. -/
def charge (config : Configuration) (terms : MarginTerms) (a : Address) (d : Dealing) : Int :=
  if d.receipt.accepted then
    PerpExchange.charge (d.cost config terms) a d.receipt.submission.orders
  else 0

/-- How much was filled. -/
def volume (d : Dealing) : Int := if d.receipt.accepted then d.fill.toInt else 0

end Dealing

/-- What a trader pays in all. -/
def charged (config : Configuration) (terms : MarginTerms) (a : Address) (ds : List Dealing) : Int :=
  (ds.map (Dealing.charge config terms a)).sum

/-- How much was filled in all. -/
def volume (ds : List Dealing) : Int := (ds.map Dealing.volume).sum

section
variable {config : Configuration} {terms : MarginTerms} {μ μ₁ μ' : Address → Int} {a : Address}
variable {d : Dealing} {ds ds' : List Dealing}

@[simp] theorem charged_nil : charged config terms a [] = 0 := rfl

@[simp] theorem charged_cons : charged config terms a (d :: ds) =
    d.charge config terms a + charged config terms a ds := rfl

theorem charged_eq_zero (h : ∀ d ∈ ds, d.receipt.accepted = false) :
    charged config terms a ds = 0 := by
  induction ds with
  | nil => rfl
  | cons d ds ih =>
    obtain ⟨hd, h⟩ := List.forall_mem_cons.mp h
    rw [charged_cons, ih h, Dealing.charge, hd]
    rfl

@[simp] theorem volume_nil : volume [] = 0 := rfl

@[simp] theorem volume_cons : volume (d :: ds) = d.volume + volume ds := rfl

/-- Margins after some dealings, each of which they covered when it was made. -/
inductive Settles (config : Configuration) (terms : MarginTerms) :
    (Address → Int) → List Dealing → (Address → Int) → Prop
  | nil {μ : Address → Int} : Settles config terms μ [] μ
  | cons {μ μ' : Address → Int} {d : Dealing} {ds : List Dealing}
    (h : d.CoveredBy config terms μ)
    (hrest : Settles config terms (fun a => μ a - d.charge config terms a) ds μ') :
    Settles config terms μ (d :: ds) μ'

namespace Settles

theorem append (h : Settles config terms μ ds μ₁) (h' : Settles config terms μ₁ ds' μ') :
    Settles config terms μ (ds ++ ds') μ' := by
  induction h with
  | nil => exact h'
  | cons hd _ ih => exact .cons hd (ih h')

theorem eq_sub_charged (h : Settles config terms μ ds μ') (a : Address) :
    μ' a = μ a - charged config terms a ds := by
  induction h with
  | nil => exact (Int.sub_zero _).symm
  | cons _ _ ih =>
    rw [ih, charged_cons]
    exact Int.sub_sub ..

/-- What is made after some of the dealings is covered by what these have left. -/
theorem covered (h : Settles config terms μ ds μ') {done rest : List Dealing}
    (hds : ds = done ++ d :: rest) :
    d.CoveredBy config terms fun a => μ a - charged config terms a done := by
  induction h generalizing done with
  | nil => simp at hds
  | @cons μ _ d₁ _ hd _ ih =>
    cases done with
    | nil =>
      cases hds
      simpa using hd
    | cons d₂ done =>
      cases hds
      simpa only [charged_cons, Int.sub_sub] using ih rfl

end Settles

/-- Orders that are paid for leave no margin below zero. -/
theorem Covers.charge_le {cost : Order → Checked Amount} {orders : List Order}
    (hcost : ∀ o, ¬ o.NeedsMargin → cost o = .ok 0) (h : Covers cost μ orders) (h0 : 0 ≤ μ a) :
    charge cost a orders ≤ μ a := by
  induction orders generalizing μ with
  | nil => exact h0
  | cons o rest ih =>
    rcases h with ⟨k, hk, hle, hrest⟩
    have hpaid : (if o.trader = a then k.toInt else 0) ≤ μ a := by
      split
      next ha =>
        by_cases hn : o.NeedsMargin
        · exact ha ▸ hle hn
        · rw [hcost o hn] at hk
          cases hk
          exact h0
      next => exact h0
    have hcharge : charge cost a (o :: rest) =
        (if o.trader = a then k.toInt else 0) + charge cost a rest := by
      simp [charge, hk, Except.toOption]
    have hleft := ih hrest (by unfold debit; omega)
    unfold debit at hleft
    omega

theorem Dealing.CoveredBy.charge_le (h : d.CoveredBy config terms μ) (h0 : 0 ≤ μ a) :
    d.charge config terms a ≤ μ a := by
  unfold Dealing.charge
  split
  · exact Covers.charge_le (fun o hn => if_neg hn) h h0
  · exact h0

/-- A margin that is not below zero never gets there. -/
theorem Settles.charged_le (h : Settles config terms μ ds μ') (h0 : 0 ≤ μ a)
    {done : List Dealing} (hd : done <+: ds) : charged config terms a done ≤ μ a := by
  induction h generalizing done with
  | nil =>
    rw [List.prefix_nil.mp hd]
    exact h0
  | @cons μ _ d _ hcovered _ ih =>
    cases done with
    | nil => exact h0
    | cons d' done =>
      obtain ⟨rfl, hprefix⟩ := List.cons_prefix_cons.mp hd
      have hle := hcovered.charge_le h0
      have hrest := ih (Int.sub_nonneg_of_le hle) hprefix
      rw [charged_cons]
      exact Int.add_le_of_le_sub_left hrest

end

section
variable {σ : Type} {config : Configuration} {terms : MarginTerms} {bound : Option Amount}
variable {o : Order} {fill : Amount} {r r₁ r' : RunState σ} {u : Unit}

namespace RunM

theorem reserve_none (h : (reserve terms bound o fill).run r = .ok none r') :
    r'.marginOf = r.marginOf := by
  cases reserves_of_run h with
  | short =>
    funext a
    rw [marginOf_insert]
    split
    next ha => rw [← ha, RunState.marginOf]
    next => rfl

/-- What is reserved is what the fill costs, and was there. -/
theorem reserve_some {k : Amount} (h : (reserve terms bound o fill).run r = .ok (some k) r') :
    o.cost terms bound fill = .ok k ∧ (o.NeedsMargin → k.toInt ≤ r.marginOf o.trader) ∧
      r'.marginOf = debit r.marginOf o.trader k := by
  cases reserves_of_run h with
  | exempt he =>
    have hn := Order.isMarginExempt_iff.mp he
    refine ⟨if_neg hn, fun h => absurd h hn, ?_⟩
    funext a
    simp [debit]
  | debited he hq hle hl =>
    have hn : o.NeedsMargin := by
      rw [Order.isMarginExempt_iff, not_not] at he
      exact he
    rw [Amount.lt_iff] at hle
    refine ⟨(if_pos hn).trans hq, fun _ => by unfold RunState.marginOf; omega, ?_⟩
    funext a
    unfold RunState.marginOf debit
    rw [Map.getD_insert_key, Map.getD_insert_key]
    split
    next ha => rw [← ha, Amount.sub_eq_ok_iff.mp hl]
    next => exact (Int.sub_zero _).symm

theorem release_margin {trader : Address} {k : Amount}
    (h : (release trader k).run r = .ok u r') (a : Address) :
    r'.marginOf a = r.marginOf a + if trader = a then k.toInt else 0 := by
  cases releases_of_run h with
  | nothing hz => simp [hz]
  | credited _ hs =>
    rw [marginOf_insert]
    split
    next ha => rw [← ha, Amount.add_eq_ok_iff.mp hs, RunState.marginOf]
    next => exact (Int.add_zero _).symm

theorem count_margin {c : Counter} (h : (count c).run r = .ok u r') :
    r'.marginOf = r.marginOf := by
  cases modify_ok.mp h
  rfl

theorem skip_margin {id : Hash} (h : (skip id).run r = .ok u r') : r'.marginOf = r.marginOf := by
  cases modify_ok.mp h
  rfl

theorem submit_margin {executor : Executor σ} {x : Submission} {accepted : Bool}
    (h : (submit executor x).run r = .ok accepted r') : r'.marginOf = r.marginOf := by
  obtain ⟨_, _, hs, hm⟩ := yields_submit (r := r) executor x
  rw [hs] at h
  cases h
  funext a
  rw [RunState.marginOf, hm, RunState.marginOf]

/-- What was reserved for a fill that is refused comes back. -/
theorem refused_margin {executor : Executor σ} {reserved : Amount} {s : Submission} {c : Counter}
    {v w : Unit} {r₂ r₃ r₄ : RunState σ}
    (hr : (reserve terms bound o fill).run r = .ok (some reserved) r₁)
    (ht : (submit executor s).run r₁ = .ok false r₂) (hc : (count c).run r₂ = .ok u r₃)
    (hl : (release o.trader reserved).run r₃ = .ok v r₄) (hk : (skip o.id).run r₄ = .ok w r') :
    r'.marginOf = r.marginOf := by
  funext a
  rw [skip_margin hk, release_margin hl, count_margin hc, submit_margin ht, (reserve_some hr).2.2]
  exact Int.sub_add_cancel ..

end RunM
end

/-- An order of a side of a book, up to its fill. -/
def Offers (books : Map MarketId WorkingBook) (m : MarketId) (side : Side) (o : Order) : Prop :=
  ∃ b, books[m]? = some b ∧ ∃ w ∈ b.side side, o = { w with filled := o.filled }

theorem Offers.fill {books : Map MarketId WorkingBook} {m : MarketId} {side : Side} {o : Order}
    (h : Offers books m side o) (filled : Amount) : Offers books m side { o with filled } := by
  rcases h with ⟨b, hb, w, hw, he⟩
  exact ⟨b, hb, w, hw, by rw [he]⟩

/-- Books with no orders but those of others. -/
def OffersOnly (books books' : Map MarketId WorkingBook) : Prop :=
  ∀ {m : MarketId} {b : WorkingBook}, books'[m]? = some b →
    ∀ side, ∀ o ∈ b.side side, Offers books m side o

theorem OffersOnly.refl (books : Map MarketId WorkingBook) : OffersOnly books books :=
  fun hb _ o ho => ⟨_, hb, o, ho, rfl⟩

namespace Dealing

/-- A fill of two orders of the books. -/
def Matches (books : Map MarketId WorkingBook) (d : Dealing) : Prop :=
  ∃ long short fill, d.receipt.submission = .matchOrders long short fill ∧
    Offers books d.market .long long ∧ Offers books d.market .short short

/-- A fill of a position by an order on its side, at a price within the bounds. -/
def Liquidates (config : Configuration) (books : Map MarketId WorkingBook)
    (p : LiquidablePosition) (d : Dealing) : Prop :=
  d.market = p.market ∧ ∃ o fill, d.receipt.submission = .liquidate p.trader o fill ∧ 0 < fill ∧
    Offers books p.market p.side o ∧
      ¬ (config.liquidationBounds p.market).excludes p.side o.price

end Dealing

/-- What may come of liquidating a position: fills of it that add up to no more than there was to
do. -/
structure LiquidationOf (config : Configuration) (books : Map MarketId WorkingBook)
    (p : LiquidablePosition) (ds : List Dealing) : Prop where
  liquidates : ∀ d ∈ ds, d.Liquidates config books p
  volume_le : p.filledSize.toInt ≤ p.size.toInt →
    volume ds ≤ p.size.toInt - p.filledSize.toInt

/-- What may come of liquidating positions in turn. -/
inductive Liquidations (config : Configuration) (books : Map MarketId WorkingBook) :
    List LiquidablePosition → List Dealing → Prop
  | nil : Liquidations config books [] []
  | cons {p : LiquidablePosition} {positions : List LiquidablePosition} {ds ds' : List Dealing}
    (h : LiquidationOf config books p ds) (hrest : Liquidations config books positions ds') :
    Liquidations config books (p :: positions) (ds ++ ds')

theorem Liquidations.exists_position {config : Configuration} {books : Map MarketId WorkingBook}
    {positions : List LiquidablePosition} {ds : List Dealing}
    (h : Liquidations config books positions ds) :
    ∀ d ∈ ds, ∃ p ∈ positions, d.Liquidates config books p := by
  induction h with
  | nil => exact fun d hd => absurd hd List.not_mem_nil
  | @cons p positions ds ds' h _ ih =>
    intro d hd
    rcases List.mem_append.mp hd with hd | hd
    · exact ⟨p, List.mem_cons_self, h.liquidates d hd⟩
    · obtain ⟨q, hq, hd⟩ := ih d hd
      exact ⟨q, List.mem_cons_of_mem _ hq, hd⟩

section
variable {σ : Type} {executor : Executor σ} {config : Configuration} {terms : MarginTerms}
variable {books books₁ books₂ : Map MarketId WorkingBook} {m : MarketId}
variable {r r₁ r' : RunState σ} {d : Dealing} {ds ds' : List Dealing}

/-- A stretch of a run that makes some dealings, and submits nothing else. -/
structure Deals (config : Configuration) (terms : MarginTerms) (ds : List Dealing)
    (r r' : RunState σ) : Prop where
  journal : r'.journal = r.journal ++ ds.map Dealing.receipt
  settles : Settles config terms r.marginOf ds r'.marginOf

namespace Deals

theorem nothing (hj : r'.journal = r.journal) (hm : r'.marginOf = r.marginOf) :
    Deals config terms [] r r' := by
  refine ⟨by rw [hj, List.map_nil, List.append_nil], ?_⟩
  rw [hm]
  exact .nil

theorem one (hj : r'.journal = r.journal ++ [d.receipt])
    (hc : d.CoveredBy config terms r.marginOf)
    (hm : ∀ a, r'.marginOf a = r.marginOf a - d.charge config terms a) :
    Deals config terms [d] r r' := by
  refine ⟨hj, .cons hc ?_⟩
  rw [funext hm]
  exact .nil

theorem trans (h : Deals config terms ds r r₁) (h' : Deals config terms ds' r₁ r') :
    Deals config terms (ds ++ ds') r r' :=
  ⟨by rw [h'.journal, h.journal, List.append_assoc, List.map_append],
    h.settles.append h'.settles⟩

end Deals

/-- Of a pair that does not agree nothing stays debited. -/
theorem agree_none_margin {t : MatchTerms σ} {long short : Order}
    (h : (agree t long short).run r = .ok none r') : r'.marginOf = r.marginOf := by
  cases agrees_of_run h with
  | apart => rfl
  | untimely => rfl
  | full => rfl
  | longLacks _ _ _ _ _ _ hrl hm => rw [RunM.count_margin hm, RunM.reserve_none hrl]
  | shortLacks _ _ _ _ _ _ hrl hrs hm hb =>
    funext a
    rw [RunM.release_margin hb, RunM.count_margin hm, RunM.reserve_none hrs,
      (RunM.reserve_some hrl).2.2]
    exact Int.sub_add_cancel ..

/-- A pair that agrees is debited what the fill costs each of the two. -/
theorem agree_some_margin {t : MatchTerms σ} {long short : Order} {x : Agreement}
    (h : (agree t long short).run r = .ok (some x) r') :
    Order.cost t.margin t.upperBound x.fill long = .ok x.longMargin ∧
      Order.cost t.margin t.upperBound x.fill short = .ok x.shortMargin ∧
      Covers (Order.cost t.margin t.upperBound x.fill) r.marginOf [long, short] ∧
      r'.marginOf = debit (debit r.marginOf long.trader x.longMargin) short.trader x.shortMargin := by
  cases agrees_of_run h with
  | agreed _ _ _ _ _ _ hrl hrs =>
    obtain ⟨hl, hle, hm⟩ := RunM.reserve_some hrl
    obtain ⟨hs, hle', hm'⟩ := RunM.reserve_some hrs
    rw [hm] at hle' hm'
    exact ⟨hl, hs, ⟨_, hl, hle, _, hs, hle', trivial⟩, hm'⟩

/-- What a refused pair was debited comes back. -/
theorem Trades.refused_margin {t : MatchTerms σ} {long short : Order}
    (h : Trades t long short r .refused r') : r'.marginOf = r.marginOf := by
  cases h with
  | refused h ht hc hrl hrs hkl hks =>
    funext a
    rw [RunM.skip_margin hks, RunM.skip_margin hkl, RunM.release_margin hrs,
      RunM.release_margin hrl, RunM.count_margin hc, RunM.submit_margin ht,
      (agree_some_margin h).2.2.2]
    unfold debit
    omega

/-- What a long or a short pays for a fill that both cost. -/
theorem charge_pair {cost : Order → Checked Amount} {long short : Order} {k k' : Amount}
    (hl : cost long = .ok k) (hs : cost short = .ok k') (a : Address) :
    charge cost a [long, short] =
      (if long.trader = a then k.toInt else 0) + if short.trader = a then k'.toInt else 0 := by
  simp [charge, hl, hs, Except.toOption]

/-- A pair makes one dealing at most. -/
theorem Trades.deals {long short : Order} {result : PairResult}
    (h : Trades ⟨executor, terms, (config.acceptableBounds m).upperLimit?⟩ long short r result
      r') (hl : Offers books m .long long) (hs : Offers books m .short short) :
    (∃ ds, Deals config terms ds r r' ∧ ∀ d ∈ ds, d.Matches books) ∧
      Offers books m .long (result.after long short).1 ∧
        Offers books m .short (result.after long short).2 := by
  have hmatches : ∀ fill accepted, ∀ d ∈ [(⟨m, ⟨.matchOrders long short fill, accepted⟩⟩ : Dealing)],
      d.Matches books := by
    intro fill accepted d hd
    cases List.mem_singleton.mp hd
    exact ⟨long, short, fill, rfl, hl, hs⟩
  cases h with
  | passed h =>
    exact ⟨⟨[], .nothing (agree_journal h) (agree_none_margin h), by simp⟩, hl, hs⟩
  | @filled x _ _ r₁ r₂ _ _ h ht _ _ hc =>
    obtain ⟨hlc, hsc, hcovers, hm⟩ := agree_some_margin h
    refine ⟨⟨_, .one (d := ⟨m, ⟨.matchOrders long short x.fill, true⟩⟩) ?_ hcovers ?_,
      hmatches x.fill true⟩, hl.fill _, hs.fill _⟩
    · rw [RunM.count_journal hc, RunM.submit_journal ht, agree_journal h]
    · intro a
      have hcharge : Dealing.charge config terms a ⟨m, ⟨.matchOrders long short x.fill, true⟩⟩ = _ :=
        charge_pair hlc hsc a
      have hleft : r'.marginOf = r₂.marginOf := (RunM.count_margin hc :)
      rw [hcharge, hleft, RunM.submit_margin ht, hm]
      exact Int.sub_sub ..
  | refused h ht hc hrl hrs hkl hks =>
    have hrefused := Trades.refused h ht hc hrl hrs hkl hks
    obtain ⟨x, _, h, hj⟩ := hrefused.refused_journal
    refine ⟨⟨_, .one (d := ⟨m, ⟨.matchOrders long short x.fill, false⟩⟩) hj
      (agree_some_margin h).2.2.1 fun a => ?_, hmatches x.fill false⟩, hl, hs⟩
    have hcharge : Dealing.charge config terms a
      ⟨m, ⟨.matchOrders long short x.fill, false⟩⟩ = 0 := rfl
    rw [hcharge, hrefused.refused_margin, Int.sub_zero]

theorem CrossesLong.deals {long long' : Order} {shorts shorts' : List Order}
    (h : CrossesLong ⟨executor, terms, (config.acceptableBounds m).upperLimit?⟩ long shorts r
      long' shorts' r') (hl : Offers books m .long long)
    (hs : ∀ o ∈ shorts, Offers books m .short o) :
    (∃ ds, Deals config terms ds r r' ∧ ∀ d ∈ ds, d.Matches books) ∧
      Offers books m .long long' ∧ ∀ o ∈ shorts', Offers books m .short o := by
  induction h with
  | nil => exact ⟨⟨[], .nothing rfl rfl, by simp⟩, hl, hs⟩
  | full => exact ⟨⟨[], .nothing rfl rfl, by simp⟩, hl, hs⟩
  | beyond => exact ⟨⟨[], .nothing rfl rfl, by simp⟩, hl, hs⟩
  | skipped _ _ _ _ _ ih =>
    obtain ⟨hshort, hs⟩ := List.forall_mem_cons.mp hs
    obtain ⟨hds, hl', hs'⟩ := ih hl hs
    exact ⟨hds, hl', List.forall_mem_cons.mpr ⟨hshort, hs'⟩⟩
  | passed _ _ _ _ ht _ ih =>
    obtain ⟨hshort, hs⟩ := List.forall_mem_cons.mp hs
    obtain ⟨⟨ds, hds, hm⟩, -, -⟩ := ht.deals hl hshort
    obtain ⟨⟨ds', hds', hm'⟩, hl', hs'⟩ := ih hl hs
    exact ⟨⟨_, hds.trans hds', List.forall_mem_append.mpr ⟨hm, hm'⟩⟩, hl',
      List.forall_mem_cons.mpr ⟨hshort, hs'⟩⟩
  | filled _ _ _ _ ht _ ih =>
    obtain ⟨hshort, hs⟩ := List.forall_mem_cons.mp hs
    obtain ⟨⟨ds, hds, hm⟩, hl₁, hshort₁⟩ := ht.deals hl hshort
    obtain ⟨⟨ds', hds', hm'⟩, hl', hs'⟩ := ih hl₁ hs
    exact ⟨⟨_, hds.trans hds', List.forall_mem_append.mpr ⟨hm, hm'⟩⟩, hl',
      List.forall_mem_cons.mpr ⟨hshort₁, hs'⟩⟩
  | refused _ _ _ _ ht =>
    obtain ⟨hshort, -⟩ := List.forall_mem_cons.mp hs
    exact ⟨(ht.deals hl hshort).1, hl, hs⟩

theorem CrossesAll.deals {longs longs' shorts shorts' : List Order}
    (h : CrossesAll ⟨executor, terms, (config.acceptableBounds m).upperLimit?⟩ longs shorts r
      longs' shorts' r') (hl : ∀ o ∈ longs, Offers books m .long o)
    (hs : ∀ o ∈ shorts, Offers books m .short o) :
    ∃ ds, Deals config terms ds r r' ∧ ∀ d ∈ ds, d.Matches books := by
  induction h with
  | noLong => exact ⟨[], .nothing rfl rfl, by simp⟩
  | noShort => exact ⟨[], .nothing rfl rfl, by simp⟩
  | beyond => exact ⟨[], .nothing rfl rfl, by simp⟩
  | skipped _ _ _ ih => exact ih (List.forall_mem_cons.mp hl).2 hs
  | crossed _ _ hlong ho _ ih =>
    obtain ⟨hlong₀, hl⟩ := List.forall_mem_cons.mp hl
    obtain ⟨⟨ds, hds, hm⟩, -, hs₁⟩ := hlong.deals hlong₀ hs
    obtain ⟨ds', hds', hm'⟩ := ih hl fun o h => hs₁ o (mem_of_openOrders ho o h)
    exact ⟨_, hds.trans hds', List.forall_mem_append.mpr ⟨hm, hm'⟩⟩

/-- Crossing the books of markets makes matches of their orders. -/
theorem crossMarkets_deals {entries : List (MarketId × WorkingBook)} {u : Unit}
    (h : (crossMarkets executor terms config entries).run r = .ok u r')
    (hb : ∀ e ∈ entries, ∀ side, ∀ o ∈ e.2.side side, Offers books e.1 side o) :
    ∃ ds, Deals config terms ds r r' ∧ ∀ d ∈ ds, d.Matches books := by
  induction entries generalizing r with
  | nil =>
    obtain ⟨-, rfl⟩ := RunM.pure_ok.mp h
    exact ⟨[], .nothing rfl rfl, by simp⟩
  | cons e rest ih =>
    rcases e with ⟨m, b⟩
    obtain ⟨hb, hrest⟩ := List.forall_mem_cons.mp hb
    obtain ⟨⟨longs, shorts⟩, r₁, hc, h⟩ := RunM.bind_ok.mp h
    obtain ⟨ds, hds, hm⟩ := (crossesAll_of_run hc).deals (hb .long) (hb .short)
    obtain ⟨ds', hds', hm'⟩ := ih h hrest
    exact ⟨_, hds.trans hds', List.forall_mem_append.mpr ⟨hm, hm'⟩⟩

theorem charge_one {cost : Order → Checked Amount} {o : Order} {k : Amount} (h : cost o = .ok k)
    (a : Address) : charge cost a [o] = if o.trader = a then k.toInt else 0 := by
  simp [charge, h, Except.toOption]

/-- The lesser of an amount and what an order has open is a part of the amount. -/
theorem fill_le_of_minAbs {a unfilled fill : Amount} (hf : a.minAbs unfilled = .ok fill)
    (h0 : fill ≠ 0) : 0 < fill ∧ (0 ≤ a.toInt → fill.toInt ≤ a.toInt) := by
  have hf := Amount.minAbs_eq_ok hf
  have h0 : fill.toInt ≠ 0 := fun h => h0 (Amount.eq_iff.mpr h)
  rw [Amount.lt_iff, Amount.toInt_zero]
  omega

/-- A position makes dealings with the orders it is offered to, and what they fill is taken from
what remains of it. -/
theorem Absorbs.deals {p : LiquidablePosition} {a a' : Amount} {orders orders' : List Order}
    (h : Absorbs ⟨executor, terms, config.liquidationBounds⟩ p a orders r a'
      orders' r') (ho : ∀ o ∈ orders, Offers books p.market p.side o) :
    (∃ ds, Deals config terms ds r r' ∧ (∀ d ∈ ds, d.Liquidates config books p) ∧
      (0 ≤ a.toInt → volume ds + a'.toInt = a.toInt ∧ 0 ≤ a'.toInt)) ∧
        ∀ o ∈ orders', Offers books p.market p.side o := by
  have hone : ∀ {o : Order} {fill : Amount}, 0 < fill → Offers books p.market p.side o →
      ¬ (config.liquidationBounds p.market).excludes p.side o.price →
        ∀ accepted, (⟨p.market, ⟨.liquidate p.trader o fill, accepted⟩⟩ : Dealing).Liquidates config
          books p :=
    fun hpos ho hb _ => ⟨rfl, _, _, rfl, hpos, ho, hb⟩
  induction h with
  | nil => exact ⟨⟨[], .nothing rfl rfl, by simp, by simp⟩, ho⟩
  | done => exact ⟨⟨[], .nothing rfl rfl, by simp, by simp⟩, ho⟩
  | beyond => exact ⟨⟨[], .nothing rfl rfl, by simp, by simp⟩, ho⟩
  | skipped _ _ _ _ ih =>
    obtain ⟨ho, hrest⟩ := List.forall_mem_cons.mp ho
    obtain ⟨hds, hrest'⟩ := ih hrest
    exact ⟨hds, List.forall_mem_cons.mpr ⟨ho, hrest'⟩⟩
  | full _ _ _ _ _ _ ih =>
    obtain ⟨ho, hrest⟩ := List.forall_mem_cons.mp ho
    obtain ⟨hds, hrest'⟩ := ih hrest
    exact ⟨hds, List.forall_mem_cons.mpr ⟨ho, hrest'⟩⟩
  | short _ _ _ _ _ _ hr hc _ ih =>
    obtain ⟨ho, hrest⟩ := List.forall_mem_cons.mp ho
    obtain ⟨⟨ds, hds, hl, hv⟩, hrest'⟩ := ih hrest
    have hquiet : Deals config terms [] _ _ :=
      .nothing ((RunM.count_journal hc).trans (RunM.reserve_journal hr))
        ((RunM.count_margin hc).trans (RunM.reserve_none hr))
    exact ⟨⟨ds, hquiet.trans hds, hl, hv⟩, List.forall_mem_cons.mpr ⟨ho, hrest'⟩⟩
  | @filled a a₁ a' unfilled fill signed filled reserved o rest rest' r r₁ r₂ r₃ r' u
      _ hb _ _ hf hf0 hr ht _ _ hd hc _ ih =>
    obtain ⟨ho, hrest⟩ := List.forall_mem_cons.mp ho
    obtain ⟨⟨ds, hds, hl, hv⟩, hrest'⟩ := ih hrest
    obtain ⟨hcost, hle, hm⟩ := RunM.reserve_some hr
    obtain ⟨hpos, hpart⟩ := fill_le_of_minAbs hf hf0
    have hj : r₃.journal = r.journal ++ [⟨.liquidate p.trader o fill, true⟩] := by
      rw [RunM.count_journal hc, RunM.submit_journal ht, RunM.reserve_journal hr]
    have hfirst : Deals config terms [⟨p.market, ⟨.liquidate p.trader o fill, true⟩⟩] r r₃ := by
      refine .one hj ⟨_, hcost, hle, trivial⟩ fun x => ?_
      have hcharge : Dealing.charge config terms x
        ⟨p.market, ⟨.liquidate p.trader o fill, true⟩⟩ = _ := charge_one hcost x
      have hleft : r₃.marginOf = r₂.marginOf := (RunM.count_margin hc :)
      rw [hcharge, hleft, RunM.submit_margin ht, hm]
      rfl
    refine ⟨⟨_, hfirst.trans hds, ?_, fun h0 => ?_⟩, List.forall_mem_cons.mpr ⟨ho.fill _, hrest'⟩⟩
    · exact List.forall_mem_cons.mpr ⟨hone hpos ho hb true, hl⟩
    · have hpart := hpart h0
      have hd := Amount.sub_eq_ok_iff.mp hd
      obtain ⟨hsum, h0'⟩ := hv (by omega)
      have hfill : Dealing.volume ⟨p.market, ⟨.liquidate p.trader o fill, true⟩⟩ = fill.toInt := rfl
      refine ⟨?_, h0'⟩
      rw [List.singleton_append, volume_cons, hfill]
      omega
  | @refused a unfilled fill reserved o rest r r₁ r₂ r₃ r₄ r' u v w _ hb _ _ hf hf0 hr ht hc hl hk =>
    obtain ⟨hcost, hle, -⟩ := RunM.reserve_some hr
    obtain ⟨hpos, -⟩ := fill_le_of_minAbs hf hf0
    have hj := RunM.refused_journal hr ht hc hl hk
    have hback : ∀ x, r'.marginOf x = r.marginOf x - 0 := by
      intro x
      rw [RunM.refused_margin hr ht hc hl hk, Int.sub_zero]
    refine ⟨⟨_, .one (d := ⟨p.market, ⟨.liquidate p.trader o fill, false⟩⟩) hj
      ⟨_, hcost, hle, trivial⟩ hback, ?_, fun h0 => ⟨Int.zero_add _, h0⟩⟩, ho⟩
    exact List.forall_mem_singleton.mpr (hone hpos (ho o List.mem_cons_self) hb false)

theorem OffersOnly.insert {b b' : WorkingBook} {side : Side} {orders : List Order}
    (h : OffersOnly books books₁) (hb : books₁[m]? = some b)
    (ho : ∀ o ∈ orders, Offers books m side o) (hp : (b.withSide side orders).prune = .ok b') :
    OffersOnly books (books₁.insert m b') := by
  intro m' b₁ hb₁ side' o hmem
  rw [Map.getElem?_insert_key] at hb₁
  split at hb₁
  next he =>
    cases hb₁
    have hmem := mem_of_openOrders (WorkingBook.prune_eq_ok hp side') o hmem
    rw [WorkingBook.side_withSide] at hmem
    split at hmem
    next hs => exact he ▸ hs ▸ ho o hmem
    next => exact he ▸ h hb side' o hmem
  next => exact h hb₁ side' o hmem

theorem liquidate_deals {p : LiquidablePosition}
    (h : (liquidate ⟨executor, terms, config.liquidationBounds⟩ p books₁).run r =
      .ok books₂ r') (hb : OffersOnly books books₁) :
    (∃ ds, Deals config terms ds r r' ∧ LiquidationOf config books p ds) ∧
      OffersOnly books books₂ := by
  unfold liquidate at h
  obtain ⟨remaining, _, hx, h⟩ := RunM.bind_ok.mp h
  obtain ⟨hremaining, rfl⟩ := RunM.lift_ok.mp hx
  have hremaining := Amount.sub_eq_ok_iff.mp hremaining
  cases hbook : books₁[p.market]? with
  | none =>
    rw [hbook] at h
    obtain ⟨rfl, rfl⟩ := RunM.pure_ok.mp h
    exact ⟨⟨[], .nothing rfl rfl, by simp, fun h0 => by rw [volume_nil]; omega⟩, hb⟩
  | some b =>
    rw [hbook] at h
    obtain ⟨⟨a, orders⟩, r₁, ha, h⟩ := RunM.bind_ok.mp h
    obtain ⟨pruned, _, hx, h⟩ := RunM.bind_ok.mp h
    obtain ⟨hp, rfl⟩ := RunM.lift_ok.mp hx
    obtain ⟨rfl, rfl⟩ := RunM.pure_ok.mp h
    obtain ⟨⟨ds, hds, hl, hv⟩, ho⟩ := (absorbs_of_run ha).deals (hb hbook p.side)
    refine ⟨⟨ds, hds, hl, fun hle => ?_⟩, hb.insert hbook ho hp⟩
    obtain ⟨hsum, h0⟩ := hv (by omega)
    omega

theorem liquidateAll_deals {positions : List LiquidablePosition}
    (h : (liquidateAll ⟨executor, terms, config.liquidationBounds⟩ positions
      books₁).run r = .ok books₂ r') (hb : OffersOnly books books₁) :
    (∃ ds, Deals config terms ds r r' ∧ Liquidations config books positions ds) ∧
      OffersOnly books books₂ := by
  induction positions generalizing books₁ r with
  | nil =>
    obtain ⟨rfl, rfl⟩ := RunM.pure_ok.mp h
    exact ⟨⟨[], .nothing rfl rfl, .nil⟩, hb⟩
  | cons p rest ih =>
    obtain ⟨books', r₁, hp, h⟩ := RunM.bind_ok.mp h
    obtain ⟨⟨ds, hds, hl⟩, hb'⟩ := liquidate_deals hp hb
    obtain ⟨⟨ds', hds', hl'⟩, hb''⟩ := ih h hb'
    exact ⟨⟨_, hds.trans hds', .cons hl hl'⟩, hb''⟩

end
end PerpExchange
