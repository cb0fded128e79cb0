import PerpExchange.Proofs.Dealings
import PerpExchange.Proofs.RunCompletion

/-! The margins after the liquidations and the matches of a run are those before it, less what the
accepted fills cost. -/
namespace PerpExchange

section
variable {σ : Type} {executor : Executor σ} {config : Configuration} {terms : MarginTerms}
variable {positions : List LiquidablePosition} {books books' : Map MarketId WorkingBook}
variable {r r₁ r' : RunState σ} {u : Unit}

/-- Every submission is a fill of an order of the books, and is covered by what the accepted ones
before it have left of the margins. No margin changes but by what accepted fills charge, so none that
starts at zero or above is ever below it, and a refusal leaves all of them as they were. -/
theorem liquidations_and_matches_conserve_margin
    (hl : (liquidateAll ⟨executor, terms, config.liquidationBounds⟩ positions
      books).run r = .ok books' r₁)
    (hc : (crossMarkets executor terms config (config.inTurn books')).run r₁ = .ok u r') :
    ∃ ds : List Dealing, r'.journal = r.journal ++ ds.map Dealing.receipt ∧
      (∀ d ∈ ds, (∃ p ∈ positions, d.Liquidates config books p) ∨ d.Matches books) ∧
      (∀ a, r'.marginOf a = r.marginOf a - charged config terms a ds) ∧
      (∀ done d rest, ds = done ++ d :: rest →
        d.CoveredBy config terms fun a => r.marginOf a - charged config terms a done) ∧
      (∀ a, 0 ≤ r.marginOf a → ∀ done, done <+: ds →
        0 ≤ r.marginOf a - charged config terms a done) ∧
      ((∀ d ∈ ds, d.receipt.accepted = false) → r'.marginOf = r.marginOf) := by
  obtain ⟨⟨closed, hclosed, hof⟩, hbooks⟩ := liquidateAll_deals hl (OffersOnly.refl books)
  obtain ⟨crossed, hcrossed, hmatched⟩ := crossMarkets_deals hc fun e he =>
    hbooks (Configuration.getElem?_of_mem_inTurn he)
  have hds := hclosed.trans hcrossed
  have hmargin := hds.settles.eq_sub_charged
  refine ⟨_, hds.journal, ?_, hmargin, fun done d rest => hds.settles.covered, ?_, ?_⟩
  · intro d hd
    rcases List.mem_append.mp hd with hd | hd
    · exact .inl (hof.exists_position d hd)
    · exact .inr (hmatched d hd)
  · intro a h0 done hdone
    exact Int.sub_nonneg_of_le (hds.settles.charged_le h0 hdone)
  · intro hrefused
    funext a
    rw [hmargin, charged_eq_zero hrefused, Int.sub_zero]

end

/-- A position of two units to be sold. -/
def twoUnits : LiquidablePosition := ⟨Bytes.ofWord 20 2, 0, .long, 2000000000000000000, 0, 0⟩

/-- Orders of one trader, none of them at rest: to buy five units and three, and to sell three
twice. -/
def takersBooks : Map MarketId WorkingBook :=
  let order (id : UInt64) (size : Amount) (raw : OrderTerms → RawOrder) : Order :=
    .place (Bytes.ofWord 32 id) (raw ⟨0, Bytes.ofWord 20 1, size, 20000000, 0, false⟩) 1
  let ioc (t : OrderTerms) : RawOrder := .ioc ⟨t, 9⟩
  let signed (t : OrderTerms) : RawOrder := .signed ⟨t, 9, false⟩
  (∅ : Map MarketId WorkingBook).insert 0 ⟨
    [order 1 5000000000000000000 ioc, order 2 3000000000000000000 ioc],
    [order 3 (.clamp (-3000000000000000000)) signed, order 4 (.clamp (-3000000000000000000)) signed]⟩

/-- The long is filled by the liquidation, its match with the first short is refused, and the second
long is matched with the second short. Both sides of the match are paid for by one trader, the short
at the highest acceptable price. -/
theorem margin_conserved_of_refused_match :
    ∃ books' r₁ r',
      (liquidateAll ⟨Desk.executor, ⟨200000, 500⟩, oneMarket.configuration.liquidationBounds⟩
        [twoUnits] takersBooks).run (.start ((∅ : Map Address Amount).insert (Bytes.ofWord 20 1)
          50000000) default { (default : Desk) with refusedOrders := [Bytes.ofWord 32 3] }) =
            .ok books' r₁ ∧
      (crossMarkets Desk.executor ⟨200000, 500⟩ oneMarket.configuration
        (oneMarket.configuration.inTurn books')).run r₁ = .ok () r' ∧
      r'.journal.map Receipt.accepted = [true, false, true] ∧
      r'.marginOf (Bytes.ofWord 20 1) = 50000000 - 8020000 - (12030000 + 24060000) ∧
      ∃ ds : List Dealing, r'.journal = ds.map Dealing.receipt ∧
        r'.marginOf (Bytes.ofWord 20 1) =
          50000000 - charged oneMarket.configuration ⟨200000, 500⟩ (Bytes.ofWord 20 1) ds := by
  have hrun : (match (liquidateAll ⟨Desk.executor, ⟨200000, 500⟩,
      oneMarket.configuration.liquidationBounds⟩ [twoUnits] takersBooks).run
        (.start ((∅ : Map Address Amount).insert (Bytes.ofWord 20 1) 50000000) default
          { (default : Desk) with refusedOrders := [Bytes.ofWord 32 3] }) with
    | .ok books' r₁ =>
      match (crossMarkets Desk.executor ⟨200000, 500⟩ oneMarket.configuration
          (oneMarket.configuration.inTurn books')).run r₁ with
      | .ok _ r' => (r'.journal.map Receipt.accepted, r'.marginOf (Bytes.ofWord 20 1))
      | .error _ _ => ([], 0)
    | .error _ _ => ([], 0)) = ([true, false, true], 5890000) := by decide +kernel
  split at hrun
  next books' r₁ hl =>
    split at hrun
    next u r' hc =>
      obtain ⟨ds, hj, -, hm, -⟩ := liquidations_and_matches_conserve_margin hl hc
      obtain ⟨haccepted, hmargin⟩ := Prod.mk.inj hrun
      exact ⟨books', r₁, r', hl, hc, haccepted, hmargin, ds, hj, hm _⟩
    next => cases hrun
  next => cases hrun

end PerpExchange
