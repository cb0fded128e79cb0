import PerpExchange.Proofs.Ranges
import PerpExchange.Risk
import Mathlib.Data.List.Forall2

/-! Valuations of a trader at prices that are chosen market by market, and the valuation of the
exchange as one of them: it chooses in each market the price that is worse for the trader. -/
namespace PerpExchange
open Checked

/-- Which of its two prices a market is valued at. -/
inductive PriceBasis where
  | oracle
  | mid
  deriving DecidableEq

def RiskState.price (s : RiskState) (m : MarketId) : PriceBasis → Amount
  | .oracle => s.oraclePrice m
  | .mid => s.midPrice m

/-- The positions a trader is valued by, market by market. -/
def valuedPositions (s : RiskState) (u : RiskUser) : List (MarketId × Position) :=
  s.activeMarkets.filterMap fun m => (valuedPosition? s u m).map fun p => (m, p)

/-- Two valuations together. -/
def Valuation.add (v w : Valuation) : Checked Valuation := do
  let notional ← v.notional.add w.notional
  let pnl ← v.pnl.add w.pnl
  return ⟨notional, pnl⟩

/-- Adds up valuations of positions. -/
def totalBy (value : MarketId × Position → Checked Valuation) (ps : List (MarketId × Position)) :
    Checked Valuation :=
  ps.foldlM (fun total e => do total.add (← value e)) ⟨0, 0⟩

/-- The notional and the profit of all open positions in active markets, at chosen prices. -/
def totalAt (s : RiskState) (u : RiskUser) (basis : MarketId → PriceBasis) : Checked Valuation :=
  totalBy (fun e => e.2.valueAt (s.price e.1 (basis e.1))) (valuedPositions s u)

/-- The margin fraction of a trader who is valued at chosen prices. -/
def marginFractionAt (s : RiskState) (u : RiskUser) (basis : MarketId → PriceBasis) :
    Checked Amount := do
  let margin ← fundedMargin s u
  let total ← totalAt s u basis
  marginFractionOf margin total.pnl total.notional

/-- What is left of margin and profit for new orders: a share of the notional is set aside, and what
open orders hold. -/
def freeMargin (s : RiskState) (u : RiskUser) (margin : Amount) (total : Valuation) :
    Checked Amount := do
  let utilized ← (← total.notional.mul s.minAllowableMargin).dropMicro
  (← (← margin.add total.pnl).sub utilized).sub u.reserved

/-- The margin that is free for new orders of a trader who is valued at chosen prices. -/
def availableMarginAt (s : RiskState) (u : RiskUser) (basis : MarketId → PriceBasis) :
    Checked Amount := do
  let margin ← fundedMargin s u
  let total ← totalAt s u basis
  freeMargin s u margin total

section
variable {s : RiskState} {u : RiskUser} {margin : Amount} {mode : MarginMode} {m : MarketId}
  {p : Position}

theorem mem_valuedPositions : (m, p) ∈ valuedPositions s u ↔
    m ∈ s.activeMarkets ∧ valuedPosition? s u m = some p := by
  unfold valuedPositions
  rw [List.mem_filterMap]
  constructor
  · rintro ⟨m', hm, hp⟩
    obtain ⟨p', hp', he⟩ := Option.map_eq_some_iff.mp hp
    cases he
    exact ⟨hm, hp'⟩
  · rintro ⟨hm, hp⟩
    exact ⟨m, hm, by rw [hp]; rfl⟩

theorem valuedPosition?_eq_some_iff : valuedPosition? s u m = some p ↔
    u.positions[m]? = some p ∧ p.size ≠ 0 ∧ s.oraclePrice m ≠ 0 := by
  unfold valuedPosition?
  cases u.positions[m]? with
  | none => simp
  | some q =>
    simp only [Option.some.injEq]
    split
    next hunvalued =>
      constructor
      · intro h
        cases h
      · rintro ⟨rfl, hsize, hprice⟩
        exact absurd hunvalued (not_or.mpr ⟨hsize, hprice⟩)
    next hvalued =>
      rw [Option.some.injEq]
      exact ⟨fun he => ⟨he, he ▸ not_or.mp hvalued⟩, fun h => h.1⟩

theorem size_ne_zero_of_valued (h : valuedPosition? s u m = some p) : p.size ≠ 0 :=
  (valuedPosition?_eq_some_iff.mp h).2.1

/-- The valuation of the exchange adds up the worse valuation of each market. -/
theorem totalValuation_eq_totalBy (s : RiskState) (u : RiskUser) (margin : Amount)
    (mode : MarginMode) :
    totalValuation s u margin mode =
      totalBy (fun e => worseValuation s margin mode e.1 e.2) (valuedPositions s u) := by
  unfold totalValuation totalBy valuedPositions
  generalize s.activeMarkets = ms
  generalize (⟨0, 0⟩ : Valuation) = total
  induction ms generalizing total with
  | nil => rfl
  | cons m ms ih =>
    rw [List.foldlM_cons, List.filterMap_cons]
    cases hp : valuedPosition? s u m with
    | none => exact ih total
    | some p =>
      rw [Option.map_some, List.foldlM_cons]
      exact bind_congr ih

/-- A quantity of some valuations, added up. -/
def overAll (f : Valuation → Int) (vs : List Valuation) : Int := vs.foldr (fun v sum => f v + sum) 0

@[simp] theorem overAll_nil (f : Valuation → Int) : overAll f [] = 0 := rfl

@[simp] theorem overAll_cons (f : Valuation → Int) (v : Valuation) (vs : List Valuation) :
    overAll f (v :: vs) = f v + overAll f vs := rfl

theorem overAll_le {f : Valuation → Int} {vs ws : List Valuation}
    (h : List.Forall₂ (fun v w => f v ≤ f w) vs ws) : overAll f vs ≤ overAll f ws := by
  induction h with
  | nil => exact Int.le_refl _
  | cons hvw _ ih => exact Int.add_le_add hvw ih

theorem overAll_nonneg {f : Valuation → Int} {vs : List Valuation} (h : ∀ v ∈ vs, 0 ≤ f v) :
    0 ≤ overAll f vs := by
  induction vs with
  | nil => exact Int.le_refl _
  | cons v vs ih =>
    obtain ⟨hv, hvs⟩ := List.forall_mem_cons.mp h
    exact Int.add_nonneg hv (ih hvs)

theorem le_overAll {f : Valuation → Int} {vs : List Valuation} (h : ∀ v ∈ vs, 0 ≤ f v)
    {w : Valuation} (hw : w ∈ vs) : f w ≤ overAll f vs := by
  induction vs with
  | nil => cases hw
  | cons v vs ih =>
    obtain ⟨hv, hvs⟩ := List.forall_mem_cons.mp h
    rcases List.mem_cons.mp hw with rfl | hw
    · exact Int.le_add_of_nonneg_right (overAll_nonneg hvs)
    · exact Int.le_trans (ih hvs hw) (Int.le_add_of_nonneg_left hv)

theorem Valuation.add_eq_ok {v w sum : Valuation} (h : v.add w = .ok sum) :
    sum.notional.toInt = v.notional.toInt + w.notional.toInt ∧
      sum.pnl.toInt = v.pnl.toInt + w.pnl.toInt := by
  obtain ⟨notional, hnotional, h⟩ := bind_eq_ok.mp h
  obtain ⟨pnl, hpnl, h⟩ := bind_eq_ok.mp h
  cases h
  exact ⟨Amount.add_eq_ok_iff.mp hnotional, Amount.add_eq_ok_iff.mp hpnl⟩

variable {value value' : MarketId × Position → Checked Valuation} {ps : List (MarketId × Position)}
  {total : Valuation}

/-- The notional and the profit of several positions are those of each, added up. -/
theorem totalBy_eq_ok (h : totalBy value ps = .ok total) :
    ∃ vs, List.Forall₂ (fun e v => value e = .ok v) ps vs ∧
      total.notional.toInt = overAll (fun v => v.notional.toInt) vs ∧
      total.pnl.toInt = overAll (fun v => v.pnl.toInt) vs := by
  have hall : ∀ {ps : List (MarketId × Position)} {start : Valuation},
      ps.foldlM (fun total e => do total.add (← value e)) start = .ok total →
      ∃ vs, List.Forall₂ (fun e v => value e = .ok v) ps vs ∧
        total.notional.toInt = start.notional.toInt + overAll (fun v => v.notional.toInt) vs ∧
        total.pnl.toInt = start.pnl.toInt + overAll (fun v => v.pnl.toInt) vs := by
    intro ps
    induction ps with
    | nil =>
      intro start h
      cases h
      exact ⟨[], .nil, by simp, by simp⟩
    | cons e ps ih =>
      intro start h
      obtain ⟨next, hnext, h⟩ := bind_eq_ok.mp h
      obtain ⟨v, hv, hnext⟩ := bind_eq_ok.mp hnext
      obtain ⟨hn, hp⟩ := Valuation.add_eq_ok hnext
      obtain ⟨vs, hvs, hnotional, hpnl⟩ := ih h
      exact ⟨v :: vs, .cons hv hvs, by rw [overAll_cons]; omega, by rw [overAll_cons]; omega⟩
  obtain ⟨vs, hvs, hnotional, hpnl⟩ := hall h
  exact ⟨vs, hvs, by simpa using hnotional, by simpa using hpnl⟩

theorem totalBy_nil (h : totalBy value [] = .ok total) : total = ⟨0, 0⟩ := by
  cases h
  rfl

theorem totalBy_singleton (value : MarketId × Position → Checked Valuation)
    (e : MarketId × Position) : totalBy value [e] = value e := by
  rw [totalBy, List.foldlM_cons]
  cases hv : value e with
  | error fault => rfl
  | ok v =>
    have hadd : Valuation.add ⟨0, 0⟩ v = .ok v :=
      bind_eq_ok.mpr ⟨v.notional, Amount.add_eq_ok_iff.mpr (by simp),
        bind_eq_ok.mpr ⟨v.pnl, Amount.add_eq_ok_iff.mpr (by simp), rfl⟩⟩
    rw [ok_bind, hadd]
    rfl

/-- Valuing each position in another way that comes to the same does not change the sum. -/
theorem totalBy_congr (hvalue : ∀ e ∈ ps, ∀ v, value e = .ok v → value' e = .ok v)
    (h : totalBy value ps = .ok total) : totalBy value' ps = .ok total := by
  unfold totalBy at h ⊢
  generalize (⟨0, 0⟩ : Valuation) = start at h ⊢
  induction ps generalizing start with
  | nil => exact h
  | cons e ps ih =>
    obtain ⟨hvalue, hrest⟩ := List.forall_mem_cons.mp hvalue
    rw [List.foldlM_cons] at h ⊢
    obtain ⟨next, hnext, h⟩ := bind_eq_ok.mp h
    obtain ⟨v, hv, hnext⟩ := bind_eq_ok.mp hnext
    refine bind_eq_ok.mpr ⟨next, ?_, ih hrest next h⟩
    exact bind_eq_ok.mpr ⟨v, hvalue v hv, hnext⟩

theorem exists_value {vs : List Valuation} {e : MarketId × Position}
    (hv : List.Forall₂ (fun e v => value e = .ok v) ps vs) (he : e ∈ ps) :
    ∃ v ∈ vs, value e = .ok v := by
  induction hv with
  | nil => cases he
  | cons hev _ ih =>
    rcases List.mem_cons.mp he with rfl | he
    · exact ⟨_, List.mem_cons_self, hev⟩
    · obtain ⟨v, hmem, hv⟩ := ih he
      exact ⟨v, List.mem_cons_of_mem _ hmem, hv⟩

/-- What holds of any valuation of a position holds of those of several. -/
theorem forall_of_values {P : Valuation → Prop} {vs : List Valuation}
    (hv : List.Forall₂ (fun e v => value e = .ok v) ps vs)
    (h : ∀ e ∈ ps, ∀ v, value e = .ok v → P v) : ∀ v ∈ vs, P v := by
  induction hv with
  | nil => exact List.forall_mem_nil P
  | cons hev _ ih =>
    obtain ⟨he, hrest⟩ := List.forall_mem_cons.mp h
    exact List.forall_mem_cons.mpr ⟨he _ hev, ih hrest⟩

/-- What holds of any two valuations of a position holds of those of several, one by one. -/
theorem forall₂_of_values {R : Valuation → Valuation → Prop} {vs ws : List Valuation}
    (hv : List.Forall₂ (fun e v => value e = .ok v) ps vs)
    (hw : List.Forall₂ (fun e w => value' e = .ok w) ps ws)
    (h : ∀ e ∈ ps, ∀ v w, value e = .ok v → value' e = .ok w → R v w) :
    List.Forall₂ R vs ws := by
  induction hv generalizing ws with
  | nil =>
    cases hw
    exact .nil
  | cons hev _ ih =>
    cases hw with
    | cons hew hw =>
      obtain ⟨he, hrest⟩ := List.forall_mem_cons.mp h
      exact .cons (he _ _ hev hew) (ih hw hrest)

/-- An open position at a price: the notional has no sign, and the profit is how far it has come
from what the position was opened for, in the direction of the position. -/
theorem valueAt_eq_ok {price : Amount} {v : Valuation} (hp : p.size ≠ 0)
    (h : p.valueAt price = .ok v) :
    0 ≤ v.notional.toInt ∧
      v.pnl.toInt = p.size.toInt.sign * (v.notional.toInt - p.openNotional.toInt) := by
  unfold Position.valueAt at h
  rw [if_neg hp] at h
  obtain ⟨notional, hnotional, h⟩ := bind_eq_ok.mp h
  obtain ⟨product, -, hnotional⟩ := bind_eq_ok.mp hnotional
  have hnonneg := Amount.abs_eq_ok.mp hnotional
  rw [Ne, Amount.eq_iff, Amount.toInt_zero] at hp
  simp only [Amount.lt_iff, Amount.toInt_zero] at h
  split at h
  next hlong =>
    obtain ⟨pnl, hpnl, h⟩ := bind_eq_ok.mp h
    cases h
    rw [Int.sign_eq_one_of_pos hlong, Int.one_mul]
    exact ⟨by simp only; omega, Amount.sub_eq_ok_iff.mp hpnl⟩
  next hlong =>
    obtain ⟨pnl, hpnl, h⟩ := bind_eq_ok.mp h
    cases h
    rw [Int.sign_eq_neg_one_of_neg (by omega), Amount.sub_eq_ok_iff.mp hpnl]
    exact ⟨by simp only; omega, by simp only; omega⟩

/-- What two valuations of a position are compared by. -/
def grade (s : RiskState) (margin : Amount) (mode : MarginMode) (v : Valuation) : Checked Amount :=
  match mode with
  | .maintenance => marginFractionOf margin v.pnl v.notional
  | .minAllowable => headroom s v

theorem noBetter_eq_ok {v w : Valuation} {worse : Bool}
    (h : noBetter s margin mode v w = .ok worse) :
    ∃ x y, grade s margin mode v = .ok x ∧ grade s margin mode w = .ok y ∧
      worse = decide (x ≤ y) := by
  cases mode <;>
  · obtain ⟨x, hx, h⟩ := bind_eq_ok.mp h
    obtain ⟨y, hy, h⟩ := bind_eq_ok.mp h
    cases h
    exact ⟨x, y, hx, hy, rfl⟩

/-- The valuation that is kept is the one at the oracle price if its grade is no higher, and else
the one at the mid price. -/
theorem worseValuation_eq_ok {v : Valuation} (h : worseValuation s margin mode m p = .ok v) :
    ∃ oracle mid x y, p.valueAt (s.price m .oracle) = .ok oracle ∧
      p.valueAt (s.price m .mid) = .ok mid ∧ grade s margin mode oracle = .ok x ∧
      grade s margin mode mid = .ok y ∧ v = if x ≤ y then oracle else mid := by
  obtain ⟨oracle, horacle, h⟩ := bind_eq_ok.mp h
  obtain ⟨mid, hmid, h⟩ := bind_eq_ok.mp h
  obtain ⟨worse, hworse, h⟩ := bind_eq_ok.mp h
  obtain ⟨x, y, hx, hy, rfl⟩ := noBetter_eq_ok hworse
  cases h
  exact ⟨oracle, mid, x, y, horacle, hmid, hx, hy, by simp⟩

theorem valueAt_of_worseValuation {v : Valuation} (h : worseValuation s margin mode m p = .ok v) :
    ∃ b, p.valueAt (s.price m b) = .ok v := by
  obtain ⟨oracle, mid, x, y, horacle, hmid, -, -, rfl⟩ := worseValuation_eq_ok h
  split
  · exact ⟨.oracle, horacle⟩
  · exact ⟨.mid, hmid⟩

/-- At neither price is the grade lower than that of the valuation that is kept. Only at the mid
price can another valuation have the same. -/
theorem worseValuation_le {v w : Valuation} {b : PriceBasis}
    (hv : worseValuation s margin mode m p = .ok v) (hw : p.valueAt (s.price m b) = .ok w) :
    ∃ x y, grade s margin mode v = .ok x ∧ grade s margin mode w = .ok y ∧ x ≤ y ∧
      (v = w ∨ x < y ∨ b = .mid ∧ p.valueAt (s.price m .oracle) = .ok v) := by
  obtain ⟨oracle, mid, x, y, horacle, hmid, hx, hy, rfl⟩ := worseValuation_eq_ok hv
  cases b with
  | oracle =>
    cases horacle.symm.trans hw
    split
    next hle => exact ⟨x, x, hx, hx, Int.le_refl _, .inl rfl⟩
    next hle =>
      rw [Amount.le_iff, Int.not_le] at hle
      exact ⟨y, x, hy, hx, Int.le_of_lt hle, .inr (.inl hle)⟩
  | mid =>
    cases hmid.symm.trans hw
    split
    next hle => exact ⟨x, y, hx, hy, hle, .inr (.inr ⟨rfl, horacle⟩)⟩
    next hle => exact ⟨y, y, hy, hy, Int.le_refl _, .inl rfl⟩

/-- The price that a market is valued at: the oracle price, unless the mid price is worse. -/
def keptBasis (s : RiskState) (u : RiskUser) (margin : Amount) (mode : MarginMode) (m : MarketId) :
    PriceBasis :=
  match valuedPosition? s u m with
  | some p =>
    if worseValuation s margin mode m p = p.valueAt (s.price m .oracle) then .oracle else .mid
  | none => .oracle

theorem valueAt_keptBasis {v : Valuation} (hp : valuedPosition? s u m = some p)
    (h : worseValuation s margin mode m p = .ok v) :
    p.valueAt (s.price m (keptBasis s u margin mode m)) = .ok v := by
  obtain ⟨oracle, mid, x, y, horacle, hmid, -, -, hkept⟩ := worseValuation_eq_ok h
  simp only [keptBasis, hp, h, horacle]
  split
  next he => rw [horacle, he]
  next hne =>
    split at hkept
    · exact absurd (hkept ▸ rfl) hne
    · rw [hmid, hkept]

/-- The valuation of the exchange is one at chosen prices. -/
theorem totalAt_keptBasis {total : Valuation} (h : totalValuation s u margin mode = .ok total) :
    totalAt s u (keptBasis s u margin mode) = .ok total := by
  rw [totalValuation_eq_totalBy] at h
  apply totalBy_congr _ h
  rintro ⟨m, p⟩ hmem v hv
  exact valueAt_keptBasis (mem_valuedPositions.mp hmem).2 hv

end

/-- Two open markets, each with its oracle price and its mid price. Half of a notional is set aside
for new risk. -/
def twoMarkets (first second : Amount × Amount) : RiskState where
  collaterals := [⟨1000000, 1000000, 6⟩]
  oraclePrices := ((∅ : Map MarketId Amount).insert 0 first.1).insert 1 second.1
  midPrices := ((∅ : Map MarketId Amount).insert 0 first.2).insert 1 second.2
  activeMarkets := [0, 1]
  maintenanceMargin := 100000
  minAllowableMargin := 500000
  takerFee := 0

/-- A trader who is long one unit in each of two markets, opened for the same. -/
def longBoth (deposit openNotional : Amount) : RiskUser :=
  let long : Position := { (default : Position) with size := 1000000000000000000, openNotional }
  { positions := ((∅ : Map MarketId Position).insert 0 long).insert 1 long
    deposits := [deposit], pendingFunding := 0, reserved := 0 }

end PerpExchange
