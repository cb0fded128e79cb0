import PerpExchange.Proofs.HostileLogs
import PerpExchange.Proofs.Streams
import Mathlib.Algebra.BigOperators.Group.List.Basic
import Mathlib.Algebra.Order.BigOperators.Group.List
import Mathlib.Algebra.Order.Group.Int.Sum

/-! What logs of accepted blocks make of the balances of traders. Each log changes at most one
balance, by an amount of its own, so that a balance depends on neither the order nor the places of
the logs, and the same logs taken back undo all of them. -/
namespace PerpExchange
open Checked

/-- A balance of a trader: a deposit of one collateral, or the margin that is reserved. -/
inductive MarginBalance where
  | deposit (a : Address) (c : CollateralId)
  | reserved (a : Address)
  deriving DecidableEq

namespace MarginAccountEvent

/-- The balance an event is about. A realized profit is one of the quote asset. -/
def balance : MarginAccountEvent → MarginBalance
  | .marginAdded trader collateral _ _ => .deposit trader collateral
  | .marginRemoved trader collateral _ _ => .deposit trader collateral
  | .marginReserved trader _ => .reserved trader
  | .marginReleased trader _ => .reserved trader
  | .pnlRealized trader _ _ => .deposit trader 0

/-- What an event adds to its balance. -/
def signed : MarginAccountEvent → Int
  | .marginAdded _ _ amount _ => amount.toInt
  | .marginRemoved _ _ amount _ => -amount.toInt
  | .marginReserved _ amount => amount.toInt
  | .marginReleased _ amount => -amount.toInt
  | .pnlRealized _ pnl _ => pnl.toInt

/-- What an event adds to its balance, or takes from it where its log is taken back. -/
def change (e : MarginAccountEvent) (removed : Bool) : Int :=
  if removed then -e.signed else e.signed

@[simp] theorem change_not (e : MarginAccountEvent) (removed : Bool) :
    e.change (!removed) = -e.change removed := by cases removed <;> simp [change]

end MarginAccountEvent

namespace Log
variable (contracts : ContractAddresses) (k : MarginBalance) (l : Log)

/-- The margin account event of a log, if it carries one. -/
def marginEvent? : Option MarginAccountEvent :=
  match readLog contracts l fun _ => true with
  | .ok (.marginAccount e) => some e
  | _ => none

/-- By how much a log changes a balance. -/
def marginChange : Int :=
  match l.marginEvent? contracts with
  | some e => if e.balance = k then e.change l.removed else 0
  | none => 0

variable {contracts l} in
theorem marginChange_of_margin {e : MarginAccountEvent}
    (h : readLog contracts l (fun _ => true) = .ok (.marginAccount e)) :
    l.marginChange contracts k = if e.balance = k then e.change l.removed else 0 := by
  rw [marginChange, marginEvent?, h]

variable {contracts l} in
theorem marginChange_of_other
    (h : ∀ e, readLog contracts l (fun _ => true) ≠ .ok (.marginAccount e)) :
    l.marginChange contracts k = 0 := by
  have hevent : l.marginEvent? contracts = none := by
    unfold marginEvent?
    split
    next e he => exact absurd he (h e)
    next => rfl
  rw [marginChange, hevent]

/-- The same log with the removed flag the other way. -/
def flipped : Log := { l with removed := !l.removed }

/-- The same log without its place in the chain. -/
def unplaced : Log := { l with block := 0, index := 0 }

@[simp] theorem marginChange_unplaced : l.unplaced.marginChange contracts k =
    l.marginChange contracts k := rfl

@[simp] theorem marginChange_flipped : l.flipped.marginChange contracts k =
    -l.marginChange contracts k := by
  have hevent : l.flipped.marginEvent? contracts = l.marginEvent? contracts := rfl
  unfold marginChange
  rw [hevent]
  cases l.marginEvent? contracts with
  | none => rfl
  | some e =>
    have hchange : e.change l.flipped.removed = -e.change l.removed := e.change_not l.removed
    simp only [hchange]
    split
    next => rfl
    next => rfl

end Log

section
variable (contracts : ContractAddresses) (k : MarginBalance)

/-- By how much logs change a balance. -/
def marginChanges (logs : List Log) : Int := (logs.map (Log.marginChange contracts k)).sum

/-- How much logs move on a balance, one way or the other. -/
def marginMoved (logs : List Log) : Nat :=
  (logs.map fun l => (l.marginChange contracts k).natAbs).sum

variable {contracts k} {logs front back : List Log}

@[simp] theorem marginChanges_append : marginChanges contracts k (front ++ back) =
    marginChanges contracts k front + marginChanges contracts k back := by simp [marginChanges]

@[simp] theorem marginMoved_append : marginMoved contracts k (front ++ back) =
    marginMoved contracts k front + marginMoved contracts k back := by simp [marginMoved]

variable (contracts k) in
theorem natAbs_marginChanges_le (logs : List Log) :
    (marginChanges contracts k logs).natAbs ≤ marginMoved contracts k logs := by
  induction logs with
  | nil => exact Nat.le_refl 0
  | cons l logs ih =>
    simp only [marginChanges, marginMoved, List.map_cons, List.sum_cons] at ih ⊢
    omega

variable (contracts k) in
theorem natAbs_marginChange_le {l : Log} (h : l ∈ logs) :
    (l.marginChange contracts k).natAbs ≤ marginMoved contracts k logs :=
  List.single_le_sum (fun n _ => Nat.zero_le n) _ (List.mem_map.mpr ⟨l, h, rfl⟩)

theorem marginMoved_perm (h : front.Perm back) :
    marginMoved contracts k front = marginMoved contracts k back := (h.map _).sum_eq

theorem marginChanges_perm (h : front.Perm back) :
    marginChanges contracts k front = marginChanges contracts k back := (h.map _).sum_eq

end

namespace Store
variable {s s' : Store} {k : MarginBalance}

/-- The balance of a trader; one that was never moved is zero. -/
def balance (s : Store) : MarginBalance → Amount
  | .deposit a c => s.deposit a c
  | .reserved a => s.reserved a

/-- Both stores have the same margin for every trader. -/
def SameMargins (s s' : Store) : Prop := ∀ a, (s'.trader a).margin = (s.trader a).margin

theorem SameMargins.balance_eq (h : s.SameMargins s') (k : MarginBalance) :
    s'.balance k = s.balance k := by
  cases k with
  | deposit a c => exact congrArg (fun m : Margin => m.deposited.getD c 0) (h a)
  | reserved a => exact congrArg Margin.reserved (h a)

theorem SameMargins.setTrader {t : Trader} (h : s.SameMargins s') {a : Address}
    (ht : t.margin = (s.trader a).margin) : s.SameMargins (s'.setTrader a t) := by
  intro a'
  rw [trader_setTrader]
  split
  next ha => rw [ht, ha]
  next => exact h a'

theorem yields_updatePosition_sameMargins (s : Store) (params : ProtocolParams) (a : Address)
    (m : MarketId) (size openNotional : Amount) (isLiquidation : Bool) :
    Yields (s.updatePosition params a m size openNotional isLiquidation) s.SameMargins := by
  apply (yields_thresholdAfter _ _ size isLiquidation).bind
  intro threshold _
  exact yields_ok (SameMargins.setTrader (fun _ => rfl) rfl)

theorem yields_updateFunding_sameMargins (s : Store) (m : MarketId) (cumulative : Amount) :
    Yields (s.updateFunding m cumulative) s.SameMargins := by
  apply (s.yields_updateFunding_accrues m cumulative).mono
  intro s' haccrues a
  exact (haccrues a).margin_eq

theorem resetFunding_sameMargins (s : Store) (m : MarketId) (a : Address) (cumulative : Amount) :
    s.SameMargins (s.resetFunding m a cumulative) := by
  intro a'
  simp only [trader, resetFunding, Map.getD_of_getElem?, Map.getElem?_modify_key]
  split
  next => cases s.traders[a']? <;> rfl
  next => rfl

theorem yields_applyClearingHouse_sameMargins (s : Store) (params : ProtocolParams)
    (e : ClearingHouseEvent) : Yields (s.applyClearingHouse params e) s.SameMargins := by
  cases e with
  | fundingRateUpdated market premium price cumulative next time =>
    exact (s.yields_updateFunding_sameMargins market cumulative).bind fun s' hsame =>
      yields_ok fun a => hsame a
  | fundingPaid trader market payment cumulative =>
    exact yields_ok (s.resetFunding_sameMargins market trader cumulative)
  | positionModified c =>
    exact (s.setLastPrice c.market c.price).yields_updatePosition_sameMargins params ..
  | positionLiquidated c =>
    exact (s.setLastPrice c.market c.price).yields_updatePosition_sameMargins params ..
  | premiumSampled premium next => exact yields_ok fun _ => rfl
  | premiumSampleSkipped next => exact yields_ok fun _ => rfl

/-- Only events of the margin account change margins. -/
theorem yields_applyAccepted_sameMargins (s : Store) (params : ProtocolParams) {e : ContractEvent}
    (l : Log) (h : ∀ e', e ≠ .marginAccount e') :
    Yields (s.applyAccepted params e l) fun r => s.SameMargins r.1 := by
  cases e with
  | orderBook e => exact yields_ok fun _ => rfl
  | iocOrderBook e => exact yields_ok fun _ => rfl
  | marginAccount e => exact absurd rfl (h e)
  | clearingHouse e =>
    simp only [applyAccepted]
    split
    next => exact yields_ok fun _ => rfl
    next =>
      exact (s.yields_applyClearingHouse_sameMargins params e).bind fun s' hsame => yields_ok hsame

/-- A deposit that stays in the range is changed by the amount, and no other balance is. -/
theorem balance_updateMargin {a : Address} {c : CollateralId} {delta : Amount}
    (h : Amount.Fits ((s.balance (.deposit a c)).toInt + delta.toInt)) (k : MarginBalance) :
    ((s.updateMargin a c delta).1.balance k).toInt =
      (s.balance k).toInt + if .deposit a c = k then delta.toInt else 0 := by
  obtain ⟨sum, hadd, hsum⟩ := Amount.ofInt?_of_fits h
  have hadd : ((s.trader a).margin.deposited.getD c 0).add? delta = some sum := hadd
  unfold updateMargin
  simp only [hadd]
  cases k with
  | reserved a' =>
    rw [if_neg (by simp), Int.add_zero, balance, reserved, trader_setTrader]
    split
    next ha => rw [← ha]; rfl
    next => rfl
  | deposit a' c' =>
    rw [balance, deposit, trader_setTrader]
    by_cases ha : a = a'
    · subst ha
      rw [if_pos rfl, Map.getD_insert_key]
      by_cases hc : c = c'
      · subst hc
        rw [if_pos rfl, if_pos rfl]
        exact hsum
      · rw [if_neg hc, if_neg (by simp [hc]), Int.add_zero]
        rfl
    · rw [if_neg ha, if_neg (by simp [ha]), Int.add_zero]
      rfl

/-- A reserved margin that stays in the range is changed by the amount, and no other balance is. -/
theorem balance_updateReserved {a : Address} {delta : Amount}
    (h : Amount.Fits ((s.balance (.reserved a)).toInt + delta.toInt)) (k : MarginBalance) :
    ((s.updateReserved a delta).1.balance k).toInt =
      (s.balance k).toInt + if .reserved a = k then delta.toInt else 0 := by
  obtain ⟨sum, hadd, hsum⟩ := Amount.ofInt?_of_fits h
  have hadd : (s.trader a).margin.reserved.add? delta = some sum := hadd
  unfold updateReserved
  simp only [hadd]
  cases k with
  | reserved a' =>
    rw [balance, reserved, trader_setTrader]
    by_cases ha : a = a'
    · subst ha
      rw [if_pos rfl, if_pos rfl]
      exact hsum
    · rw [if_neg ha, if_neg (by simp [ha]), Int.add_zero]
      rfl
  | deposit a' c' =>
    rw [if_neg (by simp), Int.add_zero, balance, deposit, trader_setTrader]
    split
    next ha => rw [← ha]; rfl
    next => rfl

theorem signedAmount_of_fits {negate : Bool} {amount : Amount} {n : Int}
    (hn : n = if negate then -amount.toInt else amount.toInt) (h : Amount.Fits n) :
    ∃ delta, signedAmount negate amount = .ok delta ∧ delta.toInt = n := by
  unfold signedAmount
  cases negate with
  | false => exact ⟨amount, rfl, hn.symm⟩
  | true =>
    obtain ⟨delta, hneg, hdelta⟩ := Amount.ofInt?_of_fits h
    rw [if_pos rfl] at hn
    refine ⟨delta, ?_, hdelta⟩
    rw [if_pos rfl, Amount.neg?, ← hn, hneg]

theorem balance_changeMargin {a : Address} {c : CollateralId} {negate : Bool} {amount : Amount}
    {n : Int} (hn : n = if negate then -amount.toInt else amount.toInt) (hfits : Amount.Fits n)
    (hsum : Amount.Fits ((s.balance (.deposit a c)).toInt + n)) (k : MarginBalance) :
    ((s.changeMargin a c negate amount).1.balance k).toInt =
      (s.balance k).toInt + if .deposit a c = k then n else 0 := by
  obtain ⟨delta, hsigned, rfl⟩ := signedAmount_of_fits hn hfits
  rw [changeMargin, hsigned]
  exact balance_updateMargin hsum k

theorem balance_changeReserved {a : Address} {negate : Bool} {amount : Amount} {n : Int}
    (hn : n = if negate then -amount.toInt else amount.toInt) (hfits : Amount.Fits n)
    (hsum : Amount.Fits ((s.balance (.reserved a)).toInt + n)) (k : MarginBalance) :
    ((s.changeReserved a negate amount).1.balance k).toInt =
      (s.balance k).toInt + if .reserved a = k then n else 0 := by
  obtain ⟨delta, hsigned, rfl⟩ := signedAmount_of_fits hn hfits
  rw [changeReserved, hsigned]
  exact balance_updateReserved hsum k

/-- A margin event whose amount and whose sum are in the range changes its balance, and no other. -/
theorem balance_applyMarginAccount {e : MarginAccountEvent} {l : Log}
    (hchange : Amount.Fits (e.change l.removed))
    (hsum : Amount.Fits ((s.balance e.balance).toInt + e.change l.removed)) (k : MarginBalance) :
    ((s.applyMarginAccount e l).1.balance k).toInt =
      (s.balance k).toInt + if e.balance = k then e.change l.removed else 0 := by
  have hback : ∀ amount : Amount, (if l.removed then - -amount.toInt else -amount.toInt) =
      if !l.removed then -amount.toInt else amount.toInt := by
    intro amount
    cases l.removed <;> simp
  cases e with
  | marginAdded trader collateral amount time => exact balance_changeMargin rfl hchange hsum k
  | marginRemoved trader collateral amount time =>
    exact balance_changeMargin (hback amount) hchange hsum k
  | marginReserved trader amount => exact balance_changeReserved rfl hchange hsum k
  | marginReleased trader amount => exact balance_changeReserved (hback amount) hchange hsum k
  | pnlRealized trader pnl time => exact balance_changeMargin rfl hchange hsum k

variable (contracts : ContractAddresses) (params : ProtocolParams)

/-- A log is applied to its end, and changes each balance by its amount, if that and the sums are in
the range. -/
theorem yields_afterAccepted_balances {l : Log}
    (h : ∀ k, Amount.Fits (l.marginChange contracts k) ∧
      Amount.Fits ((s.balance k).toInt + l.marginChange contracts k)) :
    Yields (s.afterAccepted contracts params l) fun s' =>
      ∀ k, (s'.balance k).toInt = (s.balance k).toInt + l.marginChange contracts k := by
  by_cases hmargin : ∃ e, readLog contracts l (fun _ => true) = .ok (.marginAccount e)
  · obtain ⟨e, hread⟩ := hmargin
    have hchange := fun k => Log.marginChange_of_margin k hread
    obtain ⟨hfits, hsum⟩ := h e.balance
    rw [hchange, if_pos rfl] at hfits hsum
    refine ⟨_, by rw [afterAccepted, hread]; rfl, fun k => ?_⟩
    rw [hchange k]
    exact balance_applyMarginAccount hfits hsum k
  · have hsame : Yields (s.afterAccepted contracts params l) s.SameMargins := by
      cases hread : readLog contracts l fun _ => true with
      | error counters =>
        rw [afterAccepted, hread]
        exact yields_ok fun a => rfl
      | ok e =>
        have hother : ∀ e', e ≠ .marginAccount e' := fun e' he => hmargin ⟨e', he ▸ hread⟩
        obtain ⟨r, hr, hsame⟩ := s.yields_applyAccepted_sameMargins params l hother
        have hafter : s.afterAccepted contracts params l =
            (s.applyAccepted params e l).map Prod.fst := by rw [afterAccepted, hread]
        exact ⟨r.1, by rw [hafter, hr]; rfl, hsame⟩
    apply hsame.mono
    intro s' hsame k
    rw [hsame.balance_eq k, Log.marginChange_of_other k (not_exists.mp hmargin), Int.add_zero]

/-- Logs are applied to their end, and change each balance by the sum of their amounts, if no amount
and no sum on the way leaves the range. -/
theorem yields_foldlM_balances {logs : List Log}
    (hlogs : ∀ k, ∀ l ∈ logs, Amount.Fits (l.marginChange contracts k))
    (hsums : ∀ k front back, logs = front ++ back →
      Amount.Fits ((s.balance k).toInt + marginChanges contracts k front)) :
    Yields (logs.foldlM (afterAccepted contracts params) s) fun s' =>
      ∀ k, (s'.balance k).toInt = (s.balance k).toInt + marginChanges contracts k logs := by
  induction logs generalizing s with
  | nil => exact yields_ok fun k => (Int.add_zero _).symm
  | cons l logs ih =>
    have hstep := yields_afterAccepted_balances (s := s) (l := l) contracts params fun k =>
      ⟨hlogs k l List.mem_cons_self, by simpa [marginChanges] using hsums k [l] logs rfl⟩
    rw [List.foldlM_cons]
    apply hstep.bind
    intro s' hs'
    apply (ih (fun k l' hl' => hlogs k l' (List.mem_cons_of_mem l hl')) ?_).mono
    · intro s'' hs'' k
      rw [hs'' k, hs' k, marginChanges, marginChanges, List.map_cons, List.sum_cons, Int.add_assoc]
    · rintro k front back rfl
      have hsum := hsums k (l :: front) back rfl
      rw [marginChanges, List.map_cons, List.sum_cons, ← Int.add_assoc] at hsum
      rwa [hs' k]

end Store
end PerpExchange
