import PerpExchange.Proofs.Positions

/-! Ingestion against logs of any contents. Every batch is taken to its end, and a log that cannot be
read, or an amount that leads out of the range, is dropped on its own. -/
namespace PerpExchange
open Checked

/-- The amount an event adds to balances or fills, and whether its negation is added instead. -/
def ContractEvent.change? (removed : Bool) : ContractEvent → Option (Bool × Amount)
  | .orderBook (.ordersMatched _ _ fill _ _) => some (removed, fill)
  | .orderBook (.liquidationMatched _ _ fill _ _) => some (removed, fill)
  | .marginAccount (.marginAdded _ _ amount _) => some (removed, amount)
  | .marginAccount (.marginRemoved _ _ amount _) => some (!removed, amount)
  | .marginAccount (.marginReserved _ amount) => some (removed, amount)
  | .marginAccount (.marginReleased _ amount) => some (!removed, amount)
  | .marginAccount (.pnlRealized _ pnl _) => some (removed, pnl)
  | _ => none

/-- A log that comes from no watched contract, that cannot be decoded, or whose amount has to be
negated and is the one that has no negation. -/
def Log.Unusable (contracts : ContractAddresses) (l : Log) : Prop :=
  match contracts.kindOf? l.address with
  | none => True
  | some kind =>
    match l.event kind with
    | .error _ => True
    | .ok e => e.change? l.removed = some (true, Amount.least)

theorem signedAmount_least : signedAmount true Amount.least = .error .amountOutOfRange := rfl

/-- Only a contract that is followed is read, and then as what its log carries. -/
theorem readLog_eq_ok {contracts : ContractAddresses} {l : Log} {follows : ContractKind → Bool}
    {e : ContractEvent} (h : readLog contracts l follows = .ok e) :
    ∃ kind, contracts.kindOf? l.address = some kind ∧ l.event kind = .ok e := by
  unfold readLog at h
  split at h
  · cases h
  next kind hkind =>
    split at h
    · split at h
      next e' he =>
        cases h
        exact ⟨kind, hkind, he⟩
      · cases h
    · cases h

/-- An unusable log that can be read carries an amount it cannot be applied with. -/
theorem Log.Unusable.change {contracts : ContractAddresses} {l : Log} (h : l.Unusable contracts)
    {follows : ContractKind → Bool} {e : ContractEvent} (hr : readLog contracts l follows = .ok e) :
    e.change? l.removed = some (true, Amount.least) := by
  obtain ⟨kind, hkind, he⟩ := readLog_eq_ok hr
  simpa only [Unusable, hkind, he] using h

namespace Store
variable {s : Store} {contracts : ContractAddresses} {l : Log}

/-- At the head of the chain an amount that cannot be negated is not applied to any order. -/
theorem applyHead_of_least (s : Store) {e : ContractEvent}
    (h : e.change? l.removed = some (true, Amount.least)) : (s.applyHead e l).1 = s := by
  have hfill : ∀ ids amount, some (l.removed, amount) = some (true, Amount.least) →
      (s.fillOrders ids amount l).1 = s := by
    intro ids amount h
    obtain ⟨hremoved, rfl⟩ := Prod.mk.inj (Option.some.inj h)
    rw [fillOrders, hremoved, signedAmount_least]
  cases e with
  | orderBook e =>
    cases e with
    | ordersMatched longId shortId fill price time => exact hfill _ _ h
    | liquidationMatched trader id fill price time => exact hfill _ _ h
    | orderPlaced trader id order time => cases h
    | orderAccepted trader id order time => cases h
    | orderCancelled trader id time => cases h
    | cancelAccepted trader id time => cases h
    | matchingError id info => cases h
  | iocOrderBook e => cases h
  | marginAccount e => rfl
  | clearingHouse e => rfl

/-- Of an accepted block, an amount that cannot be negated is not applied to any balance. -/
theorem applyAccepted_of_least (s : Store) (params : ProtocolParams) {e : ContractEvent}
    (h : e.change? l.removed = some (true, Amount.least)) :
    Yields (s.applyAccepted params e l) fun r => r.1 = s := by
  have hmargin : ∀ a c negate amount, some (negate, amount) = some (true, Amount.least) →
      (s.changeMargin a c negate amount).1 = s := by
    intro a c negate amount h
    obtain ⟨rfl, rfl⟩ := Prod.mk.inj (Option.some.inj h)
    rw [changeMargin, signedAmount_least]
  have hreserved : ∀ a negate amount, some (negate, amount) = some (true, Amount.least) →
      (s.changeReserved a negate amount).1 = s := by
    intro a negate amount h
    obtain ⟨rfl, rfl⟩ := Prod.mk.inj (Option.some.inj h)
    rw [changeReserved, signedAmount_least]
  cases e with
  | orderBook e => exact yields_ok rfl
  | iocOrderBook e => exact yields_ok rfl
  | clearingHouse e => cases h
  | marginAccount e =>
    apply yields_ok
    cases e with
    | marginAdded trader collateral amount time => exact hmargin _ _ _ _ h
    | marginRemoved trader collateral amount time => exact hmargin _ _ _ _ h
    | marginReserved trader amount => exact hreserved _ _ _ h
    | marginReleased trader amount => exact hreserved _ _ _ h
    | pnlRealized trader pnl time => exact hmargin _ _ _ _ h

/-- The deposit of a trader; one that was never made is zero. -/
def deposit (s : Store) (a : Address) (c : CollateralId) : Amount :=
  (s.trader a).margin.deposited.getD c 0

/-- The reserved margin of a trader; that of an unknown one is zero. -/
def reserved (s : Store) (a : Address) : Amount := (s.trader a).margin.reserved

/-- A store with the same balances and positions, and in all else the same. A trader or a deposit
that is missing from one may be there with zeros in the other. -/
structure SameLedgers (s s' : Store) : Prop where
  eq_apart : s' = { s with traders := s'.traders }
  deposit_eq : ∀ a c, s'.deposit a c = s.deposit a c
  reserved_eq : ∀ a, s'.reserved a = s.reserved a
  positions_eq : ∀ a, (s'.trader a).positions = (s.trader a).positions

/-- A margin that no deposit and no reserve of a trader differs by. -/
theorem sameLedgers_setTrader {a : Address} {margin : Margin}
    (hd : ∀ c, margin.deposited.getD c 0 = s.deposit a c) (hr : margin.reserved = s.reserved a) :
    s.SameLedgers (s.setTrader a { s.trader a with margin }) := by
  refine ⟨rfl, fun a' c => ?_, fun a' => ?_, fun a' => ?_⟩
  · rw [deposit, trader_setTrader]
    split
    next h => exact h ▸ hd c
    next => rfl
  · rw [reserved, trader_setTrader]
    split
    next h => exact h ▸ hr
    next => rfl
  · rw [trader_setTrader]
    split
    next h => rw [h]
    next => rfl

/-- A deposit that would leave the range stays as it is, and so does all else. -/
theorem sameLedgers_updateMargin (a : Address) (c : CollateralId) (delta : Amount)
    (h : ¬Amount.Fits ((s.deposit a c).toInt + delta.toInt)) :
    s.SameLedgers (s.updateMargin a c delta).1 := by
  have hadd : ((s.trader a).margin.deposited.getD c 0).add? delta = none :=
    Amount.ofInt?_eq_none_iff.mpr h
  unfold updateMargin
  simp only [hadd]
  apply sameLedgers_setTrader
  · intro c'
    rw [Map.getD_insert_key]
    split
    next hc => rw [← hc, deposit]
    next => rfl
  · rfl

/-- A reserved margin that would leave the range stays as it is, and so does all else. -/
theorem sameLedgers_updateReserved (a : Address) (delta : Amount)
    (h : ¬Amount.Fits ((s.reserved a).toInt + delta.toInt)) :
    s.SameLedgers (s.updateReserved a delta).1 := by
  have hadd : (s.trader a).margin.reserved.add? delta = none := Amount.ofInt?_eq_none_iff.mpr h
  unfold updateReserved
  simp only [hadd]
  exact sameLedgers_setTrader (fun _ => rfl) rfl

/-- A fill whose product with the side, or whose sum, would leave the range changes nothing. -/
theorem fill_of_not_fits {id : Hash} {o : Order} {delta : Amount} {block : BlockNumber}
    (ho : s.orders[id]? = some o)
    (h : ¬(Amount.Fits (delta.toInt * o.side.sign.toInt) ∧
      Amount.Fits (o.filled.toInt + delta.toInt * o.side.sign.toInt))) :
    (s.fill delta id block).1 = s := by
  have hfill : o.fillBy? delta block = none := by
    unfold Order.fillBy?
    by_cases hd : Amount.Fits (delta.toInt * o.side.sign.toInt)
    · obtain ⟨d, hmul, hd'⟩ := Amount.ofInt?_of_fits hd
      have hadd : o.filled.add? d = none :=
        Amount.ofInt?_eq_none_iff.mpr (hd' ▸ fun hf => h ⟨hd, hf⟩)
      rw [Amount.mul?, hmul, Option.bind_eq_bind, Option.bind_some, hadd]
      rfl
    · rw [Amount.mul?, Amount.ofInt?_eq_none_iff.mpr hd]
      rfl
  simp [Store.fill, ho, hfill]

end Store

namespace Intake
variable {contracts : ContractAddresses} {l : Log}

theorem store_headLog_of_unusable (h : l.Unusable contracts) (i : Intake) :
    (headLog contracts i l).store = i.store := by
  unfold headLog
  cases hr : readLog contracts l isOrderBook with
  | error counters => rfl
  | ok e => exact (store_publish ..).trans (i.store.applyHead_of_least (h.change hr))

theorem yields_acceptedLog_of_unusable (h : l.Unusable contracts) (i : Intake)
    (params : ProtocolParams) (replaying : Bool) :
    Yields (acceptedLog contracts params replaying i l) fun i' => i'.store = i.store := by
  unfold acceptedLog
  split
  · exact yields_ok rfl
  next e hr =>
    apply (i.store.applyAccepted_of_least params (h.change hr)).bind
    rintro ⟨s', counters⟩ rfl
    exact yields_ok (store_publish ..)

/-- Ingestion withstands every log. Any batch of an accepted block is taken to its end, from any
store and with any parameters; taking a batch at the head of the chain and accepting a block have
no step that can stop. An unusable log leaves the store as it was. A change that would take a
balance or a fill out of the range leaves that balance or that order as it was. -/
theorem ingestion_withstands_every_log (contracts : ContractAddresses) (params : ProtocolParams)
    (i : Intake) :
    (∀ logs replaying, ∃ i', i.acceptedLogs contracts params logs replaying = .ok i') ∧
    (∀ l : Log, l.Unusable contracts →
      (headLog contracts i l).store = i.store ∧
        ∀ replaying, ∃ i', acceptedLog contracts params replaying i l = .ok i' ∧
          i'.store = i.store) ∧
    (∀ a c delta, ¬Amount.Fits ((i.store.deposit a c).toInt + delta.toInt) →
      i.store.SameLedgers (i.store.updateMargin a c delta).1) ∧
    (∀ a delta, ¬Amount.Fits ((i.store.reserved a).toInt + delta.toInt) →
      i.store.SameLedgers (i.store.updateReserved a delta).1) ∧
    (∀ (id : Hash) (o : Order) (delta : Amount) (block : BlockNumber),
      i.store.orders[id]? = some o →
        ¬(Amount.Fits (delta.toInt * o.side.sign.toInt) ∧
          Amount.Fits (o.filled.toInt + delta.toInt * o.side.sign.toInt)) →
        (i.store.fill delta id block).1 = i.store) := by
  refine ⟨fun logs replaying => ?_, fun l h => ⟨store_headLog_of_unusable h i, ?_⟩, ?_, ?_, ?_⟩
  · obtain ⟨i', hi', -⟩ := i.yields_acceptedLogs contracts params replaying logs
    exact ⟨i', hi'⟩
  · exact yields_acceptedLog_of_unusable h i params
  · exact fun a c delta h => Store.sameLedgers_updateMargin a c delta h
  · exact fun a delta h => Store.sameLedgers_updateReserved a delta h
  · exact fun id o delta block ho h => Store.fill_of_not_fits ho h

/-- A withdrawal of the one amount that has no negation. -/
def boundlessWithdrawal : Log :=
  (ContractEvent.marginAccount (.marginRemoved default 0 .least 0)).toLog
    (default : ContractAddresses).marginAccount 1 0

/-- A long order that has been filled. -/
def filledLong : Order :=
  { Order.place default (.limit ⟨⟨0, default, 10, 20000000, 1, false⟩, false⟩) 1 with
    filled := 10 }

/-- The order, and a trader whose deposit and reserve are the greatest there are. -/
def brimful : Intake where
  store := (Store.empty.add filledLong).setTrader default
    ⟨∅, ⟨.greatest, (∅ : Map CollateralId Amount).insert 0 .greatest⟩⟩
  metrics := default
  traderFeed := default
  marketFeed := default

theorem unusable_boundlessWithdrawal {l : Log} (h : boundlessWithdrawal = l) :
    l.Unusable default := by
  have hkind : (default : ContractAddresses).kindOf? l.address = some .marginAccount := by
    rw [← h]
    decide
  have hevent : l.event .marginAccount = .ok (.marginAccount (.marginRemoved default 0 .least 0)) :=
    h ▸ ContractEvent.event_toLog (.marginAccount (.marginRemoved default 0 .least 0)) _ 1 0
  have hremoved : l.removed = false := by
    rw [← h]
    rfl
  rw [Log.Unusable, hkind]
  simp only [hevent]
  rw [hremoved]
  rfl

/-- A withdrawal without a negation, and one unit more of what is full, leave all as it was. -/
theorem brimful_withstands :
    boundlessWithdrawal.Unusable default ∧
    (headLog default brimful boundlessWithdrawal).store = brimful.store ∧
    (∃ i', acceptedLog default default false brimful boundlessWithdrawal = .ok i' ∧
      i'.store = brimful.store) ∧
    ¬Amount.Fits ((brimful.store.deposit default 0).toInt + (1 : Amount).toInt) ∧
    brimful.store.SameLedgers (brimful.store.updateMargin default 0 1).1 ∧
    ¬Amount.Fits ((brimful.store.reserved default).toInt + (1 : Amount).toInt) ∧
    brimful.store.SameLedgers (brimful.store.updateReserved default 1).1 ∧
    brimful.store.orders[(default : Hash)]? = some filledLong ∧
    ¬Amount.Fits (filledLong.filled.toInt +
      Amount.greatest.toInt * filledLong.side.sign.toInt) ∧
    (brimful.store.fill .greatest default 2).1 = brimful.store := by
  have hdeposit : ¬Amount.Fits ((brimful.store.deposit default 0).toInt + (1 : Amount).toInt) := by
    decide +kernel
  have hreserved : ¬Amount.Fits ((brimful.store.reserved default).toInt + (1 : Amount).toInt) := by
    decide +kernel
  have horder : brimful.store.orders[(default : Hash)]? = some filledLong := by decide +kernel
  have hfill : ¬Amount.Fits (filledLong.filled.toInt +
    Amount.greatest.toInt * filledLong.side.sign.toInt) := by decide +kernel
  -- Lean would try to read the log if it saw which one it is.
  generalize hlog : boundlessWithdrawal = l
  have hunusable : l.Unusable default := unusable_boundlessWithdrawal hlog
  obtain ⟨-, hlogs, hdeposits, hreserves, hfills⟩ :=
    ingestion_withstands_every_log default default brimful
  obtain ⟨hhead, haccepted⟩ := hlogs l hunusable
  exact ⟨hunusable, hhead, haccepted false, hdeposit, hdeposits _ _ _ hdeposit, hreserved,
    hreserves _ _ hreserved, horder, hfill,
    hfills _ _ _ _ horder fun hfits => hfill hfits.2⟩

end Intake
end PerpExchange
