import PerpExchange.Proofs.Map
import PerpExchange.Proofs.Valuations
import Mathlib.Tactic.Linarith
import Mathlib.Tactic.Ring

/-! The margin fraction that decides on liquidation, against that at any choice of prices. Each
market keeps the price at which its own profit, against the whole margin, makes the lower fraction.
The margin counts once in the fraction of the trader and in full in that of each market, so a market
may choose the price that makes the fraction of the trader higher. It does not if it is on the same
side of the whole (of minus the whole, for a short) as the trader: then a lower fraction of its own
is a lower one for the trader. -/
namespace PerpExchange
open Checked

/-- A quotient rounded toward zero is at most a number: the dividend is below the next multiple, or
at most the multiple itself where the number is negative. -/
theorem tdiv_le_iff {y n q : Int} (hn : 0 < n) :
    y.tdiv n ≤ q ↔ (0 ≤ q → y < (q + 1) * n) ∧ (q < 0 → y ≤ q * n) := by
  rcases lt_or_ge y 0 with hy | hy
  · have hneg : y.tdiv n = -(-y / n) := by
      rw [← Int.tdiv_eq_ediv_of_nonneg (by omega), Int.neg_tdiv, Int.neg_neg]
    have hle : -q ≤ -y / n ↔ -q * n ≤ -y := Int.le_ediv_iff_mul_le hn
    have hnonneg : 0 ≤ -y / n := Int.ediv_nonneg (by omega) (by omega)
    rw [Int.neg_mul] at hle
    rcases lt_or_ge q 0 with hq | hq
    · omega
    · have hmul : 0 ≤ (q + 1) * n := Int.mul_nonneg (by omega) (by omega)
      omega
  · have hlt : y / n < q + 1 ↔ y < (q + 1) * n := Int.ediv_lt_iff_lt_mul hn
    have hnonneg : 0 ≤ y / n := Int.ediv_nonneg hy (by omega)
    rw [Int.tdiv_eq_ediv_of_nonneg hy]
    rcases lt_or_ge q 0 with hq | hq
    · have hmul : q * n < 0 := Int.mul_neg_of_neg_of_pos hq hn
      omega
    · omega

/-- A lower quotient, rounded toward zero, is a lower fraction. -/
theorem mul_lt_mul_of_tdiv_lt {y y' n n' : Int} (hn : 0 < n) (hn' : 0 < n')
    (h : y.tdiv n < y'.tdiv n') : y * n' < y' * n := by
  by_contra hge
  have hle : (y' * n).tdiv (n' * n) ≤ (y * n').tdiv (n' * n) :=
    Int.tdiv_le_tdiv (Int.mul_pos hn' hn) (by omega)
  rw [Int.mul_tdiv_mul_of_pos_left y' n' hn, Int.mul_comm n' n,
    Int.mul_tdiv_mul_of_pos_left y n hn'] at hle
  omega

theorem marginFractionOf_eq_ok {margin pnl notional x : Amount} (hn : notional ≠ 0)
    (h : marginFractionOf margin pnl notional = .ok x) :
    x.toInt = ((margin.toInt + pnl.toInt) * 1000000).tdiv notional.toInt := by
  rw [marginFractionOf, if_neg hn] at h
  obtain ⟨equity, hequity, h⟩ := bind_eq_ok.mp h
  obtain ⟨scaled, hscaled, h⟩ := bind_eq_ok.mp h
  rw [(Amount.div_eq_ok_iff hn).mp h, Amount.mul_eq_ok_iff.mp hscaled,
    Amount.add_eq_ok_iff.mp hequity, Amount.toInt_micro]

/-- A position that makes the fraction of its trader, which is given, lower at the price that makes
its own lower. Against the whole margin its own is on the same side of one whole (for a short, of
minus one) as that of the trader; it has a notional at both prices; and its fractions there are not
tied. -/
structure SidesWith (s : RiskState) (margin fraction : Amount) (m : MarketId) (p : Position) :
    Prop where
  side : fraction.toInt < p.size.toInt.sign * 1000000 ∧
      margin.toInt ≤ p.size.toInt.sign * p.openNotional.toInt ∨
    p.size.toInt.sign * 1000000 ≤ fraction.toInt ∧
      p.size.toInt.sign * p.openNotional.toInt ≤ margin.toInt
  exposed : ∀ b v, p.valueAt (s.price m b) = .ok v → v.notional ≠ 0
  untied : ∀ v w, p.valueAt (s.price m .oracle) = .ok v → p.valueAt (s.price m .mid) = .ok w →
    marginFractionOf margin v.pnl v.notional ≠ marginFractionOf margin w.pnl w.notional

/-- Each position that is not valued as at the chosen price sides with the trader. -/
def AllSideWith (s : RiskState) (u : RiskUser) (margin fraction : Amount)
    (basis : MarketId → PriceBasis) : Prop :=
  ∀ e ∈ valuedPositions s u,
    worseValuation s margin .maintenance e.1 e.2 ≠ e.2.valueAt (s.price e.1 (basis e.1)) →
      SidesWith s margin fraction e.1 e.2

/-- How far the profit of a valuation is above a fraction of its notional. -/
def surplus (t : Int) (v : Valuation) : Int := v.pnl.toInt * 1000000 - t * v.notional.toInt

section
variable {s : RiskState} {u : RiskUser} {margin x y : Amount} {v w total : Valuation} {t q : Int}

theorem surplus_total {vs : List Valuation}
    (hnotional : total.notional.toInt = overAll (fun v => v.notional.toInt) vs)
    (hpnl : total.pnl.toInt = overAll (fun v => v.pnl.toInt) vs) :
    surplus t total = overAll (surplus t) vs := by
  rw [surplus, hnotional, hpnl]
  clear hnotional hpnl
  induction vs with
  | nil => simp
  | cons v vs ih =>
    rw [overAll_cons, overAll_cons, overAll_cons, ← ih, surplus]
    ring

/-- Whether a fraction is at most a number, by the margin and the surplus above it. -/
theorem fraction_le_iff (hv : 0 < v.notional.toInt)
    (h : marginFractionOf margin v.pnl v.notional = .ok x) :
    x.toInt ≤ q ↔ (0 ≤ q → margin.toInt * 1000000 + surplus (q + 1) v < 0) ∧
      (q < 0 → margin.toInt * 1000000 + surplus q v ≤ 0) := by
  have hne : v.notional ≠ 0 := fun he => by simp [he] at hv
  rw [marginFractionOf_eq_ok hne h, tdiv_le_iff hv, Int.add_mul, surplus, surplus]
  omega

variable {p : Position}

/-- At the price of its lower fraction a position has the smaller notional if the margin is below
what it was opened for, with the sign of the position, and the larger if it is above. -/
theorem notional_toward (hv : 0 < v.notional.toInt) (hw : 0 < w.notional.toInt)
    (hpv : v.pnl.toInt = p.size.toInt.sign * (v.notional.toInt - p.openNotional.toInt))
    (hpw : w.pnl.toInt = p.size.toInt.sign * (w.notional.toInt - p.openNotional.toInt))
    (hx : marginFractionOf margin v.pnl v.notional = .ok x)
    (hy : marginFractionOf margin w.pnl w.notional = .ok y) (hlt : x < y) :
    (margin.toInt - p.size.toInt.sign * p.openNotional.toInt) *
      (w.notional.toInt - v.notional.toInt) < 0 := by
  have hne : v.notional ≠ 0 := fun he => by simp [he] at hv
  have hne' : w.notional ≠ 0 := fun he => by simp [he] at hw
  rw [Amount.lt_iff, marginFractionOf_eq_ok hne hx, marginFractionOf_eq_ok hne' hy] at hlt
  have hcross := mul_lt_mul_of_tdiv_lt hv hw hlt
  rw [hpv, hpw] at hcross
  nlinarith only [hcross]

theorem notional_pos {price : Amount} (hp : p.size ≠ 0) (hv : p.valueAt price = .ok v)
    (hne : v.notional ≠ 0) : 0 < v.notional.toInt := by
  have hnonneg := (valueAt_eq_ok hp hv).1
  rw [Ne, Amount.eq_iff, Amount.toInt_zero] at hne
  omega

variable {fraction : Amount} {b : PriceBasis} {m : MarketId}

/-- A valuation that is kept instead of the one at the chosen price has a lower fraction. -/
theorem SidesWith.lt_of_ne (ha : SidesWith s margin fraction m p)
    (hv : worseValuation s margin .maintenance m p = .ok v)
    (hw : p.valueAt (s.price m b) = .ok w) (hne : v ≠ w) :
    ∃ x y, marginFractionOf margin v.pnl v.notional = .ok x ∧
      marginFractionOf margin w.pnl w.notional = .ok y ∧ x < y := by
  obtain ⟨x, y, hx, hy, hle, heq | hlt | ⟨rfl, horacle⟩⟩ := worseValuation_le hv hw
  · exact absurd heq hne
  · exact ⟨x, y, hx, hy, hlt⟩
  · have hxy : x ≠ y := fun he => ha.untied v w horacle hw (Eq.trans hx (he ▸ hy.symm))
    rw [Ne, Amount.eq_iff] at hxy
    rw [Amount.le_iff] at hle
    exact ⟨x, y, hx, hy, by rw [Amount.lt_iff]; omega⟩

/-- It has less surplus above the fraction of the trader, too. -/
theorem SidesWith.surplus_le (ha : SidesWith s margin fraction m p) (hp : p.size ≠ 0)
    (hlow : fraction.toInt ≤ t) (hhigh : t ≤ fraction.toInt + 1)
    (hv : worseValuation s margin .maintenance m p = .ok v)
    (hw : p.valueAt (s.price m b) = .ok w) (hne : v ≠ w) : surplus t v ≤ surplus t w := by
  obtain ⟨x, y, hx, hy, hlt⟩ := ha.lt_of_ne hv hw hne
  obtain ⟨b', hv'⟩ := valueAt_of_worseValuation hv
  have hpnl := (valueAt_eq_ok hp hv').2
  have hpnl' := (valueAt_eq_ok hp hw).2
  have htoward := notional_toward (notional_pos hp hv' (ha.exposed b' v hv'))
    (notional_pos hp hw (ha.exposed b w hw)) hpnl hpnl' hx hy hlt
  -- each unit of notional adds to the surplus what the side has above the fraction
  have hsides : 0 ≤ (p.size.toInt.sign * 1000000 - t) *
      (w.notional.toInt - v.notional.toInt) := by
    rcases ha.side with ⟨hbelow, hmargin⟩ | ⟨habove, hmargin⟩
    · have hlarger : 0 < w.notional.toInt - v.notional.toInt :=
        pos_of_mul_neg_right htoward (by omega)
      exact Int.mul_nonneg (by omega) (by omega)
    · have hsmaller : w.notional.toInt - v.notional.toInt < 0 :=
        neg_of_mul_neg_right htoward (by omega)
      exact Int.mul_nonneg_of_nonpos_of_nonpos (by omega) (by omega)
  rw [surplus, surplus, hpnl, hpnl']
  linarith only [hsides]

variable {basis : MarketId → PriceBasis} {chosen : Valuation}

theorem AllSideWith.surplus_le (ha : AllSideWith s u margin fraction basis)
    (hlow : fraction.toInt ≤ t) (hhigh : t ≤ fraction.toInt + 1)
    (ht : totalValuation s u margin .maintenance = .ok total)
    (hc : totalAt s u basis = .ok chosen) : surplus t total ≤ surplus t chosen := by
  rw [totalValuation_eq_totalBy] at ht
  obtain ⟨vs, hvs, hnotional, hpnl⟩ := totalBy_eq_ok ht
  obtain ⟨ws, hws, hnotional', hpnl'⟩ := totalBy_eq_ok hc
  rw [surplus_total hnotional hpnl, surplus_total hnotional' hpnl']
  apply overAll_le
  apply forall₂_of_values hvs hws
  intro e he v w hv hw
  by_cases hvw : v = w
  · rw [hvw]
  · have hp := size_ne_zero_of_valued (mem_valuedPositions.mp he).2
    have hside := ha e he (by rw [hv, hw]; exact fun h => hvw (Except.ok.inj h))
    exact hside.surplus_le hp hlow hhigh hv hw hvw

/-- A trader has a notional if one of the positions has. -/
theorem totalAt_pos {e : MarketId × Position} (he : e ∈ valuedPositions s u)
    (hexposed : ∀ b v, e.2.valueAt (s.price e.1 b) = .ok v → v.notional ≠ 0)
    (h : totalAt s u basis = .ok total) : 0 < total.notional.toInt := by
  have hsize : ∀ e ∈ valuedPositions s u, e.2.size ≠ 0 := fun _ he =>
    size_ne_zero_of_valued (mem_valuedPositions.mp he).2
  obtain ⟨vs, hvs, hnotional, -⟩ := totalBy_eq_ok h
  obtain ⟨v, hmem, hv⟩ := exists_value hvs he
  have hpos := notional_pos (hsize e he) hv (hexposed _ v hv)
  have hnonneg : ∀ w ∈ vs, 0 ≤ w.notional.toInt :=
    forall_of_values hvs fun e he w hw => (valueAt_eq_ok (hsize e he) hw).1
  have hle := le_overAll hnonneg hmem
  omega

theorem AllSideWith.fraction_le (ha : AllSideWith s u margin fraction basis)
    (ht : totalValuation s u margin .maintenance = .ok total)
    (hc : totalAt s u basis = .ok chosen)
    (hx : marginFractionOf margin total.pnl total.notional = .ok x)
    (hfraction : marginFractionOf margin chosen.pnl chosen.notional = .ok fraction) :
    x ≤ fraction := by
  by_cases hsame : ∀ e ∈ valuedPositions s u,
      worseValuation s margin .maintenance e.1 e.2 = e.2.valueAt (s.price e.1 (basis e.1))
  · rw [totalValuation_eq_totalBy] at ht
    have hc' : totalAt s u basis = .ok total :=
      totalBy_congr (fun e he v hv => (hsame e he).symm.trans hv) ht
    cases hc.symm.trans hc'
    cases hx.symm.trans hfraction
    exact Int.le_refl _
  · simp only [not_forall] at hsame
    obtain ⟨e, he, hother⟩ := hsame
    have hexposed := (ha e he hother).exposed
    have hpos := totalAt_pos he hexposed (totalAt_keptBasis ht)
    obtain ⟨hnonneg, hneg⟩ :=
      (fraction_le_iff (totalAt_pos he hexposed hc) hfraction).mp (Int.le_refl fraction.toInt)
    rw [Amount.le_iff, fraction_le_iff hpos hx]
    constructor
    · intro hq
      have hle := ha.surplus_le (by omega) (Int.le_refl _) ht hc
      have hbelow := hnonneg hq
      omega
    · intro hq
      have hle := ha.surplus_le (Int.le_refl _) (by omega) ht hc
      have hbelow := hneg hq
      omega

/-- With at most one market, the fraction is the lesser of those at the two prices. -/
theorem marginFraction_eq_min (hone : (valuedPositions s u).length ≤ 1)
    (h : marginFraction s u = .ok x) :
    ∃ oracle mid, marginFractionAt s u (fun _ => .oracle) = .ok oracle ∧
      marginFractionAt s u (fun _ => .mid) = .ok mid ∧ x = min oracle mid := by
  obtain ⟨margin, hmargin, h⟩ := bind_eq_ok.mp h
  obtain ⟨total, htotal, hx⟩ := bind_eq_ok.mp h
  rw [totalValuation_eq_totalBy] at htotal
  have hat : ∀ {basis v y}, totalAt s u basis = .ok v →
      marginFractionOf margin v.pnl v.notional = .ok y → marginFractionAt s u basis = .ok y :=
    fun hv hy => bind_eq_ok.mpr ⟨margin, hmargin, bind_eq_ok.mpr ⟨_, hv, hy⟩⟩
  cases hps : valuedPositions s u with
  | nil =>
    rw [hps] at htotal
    cases totalBy_nil htotal
    have hzero : ∀ basis, totalAt s u basis = .ok ⟨0, 0⟩ := by
      intro basis
      rw [totalAt, hps]
      rfl
    exact ⟨x, x, hat (hzero _) hx, hat (hzero _) hx, (if_pos (Int.le_refl _)).symm⟩
  | cons e rest =>
    obtain rfl : rest = [] := by simpa [hps] using hone
    rw [hps, totalBy_singleton] at htotal
    obtain ⟨oracle, mid, y, z, horacle, hmid, hy, hz, rfl⟩ := worseValuation_eq_ok htotal
    have hone : ∀ basis, totalAt s u basis = e.2.valueAt (s.price e.1 (basis e.1)) := by
      intro basis
      rw [totalAt, hps, totalBy_singleton]
    refine ⟨y, z, hat ((hone _).trans horacle) hy, hat ((hone _).trans hmid) hz, ?_⟩
    show x = if y ≤ z then y else z
    split at hx
    next hle =>
      rw [if_pos hle]
      exact Except.ok.inj (hx.symm.trans hy)
    next hle =>
      rw [if_neg hle]
      exact Except.ok.inj (hx.symm.trans hz)

/-- The margin fraction is conservative where the positions side with the trader. With at most one
market it always is: it is the lesser of the fractions at the oracle price and at the mid price.
With several it is at most the fraction at any choice of a price for each market, if the positions
that are valued at the other price side with the trader; and a trader who is below maintenance there
is below maintenance. -/
theorem marginFraction_conservative (h : marginFraction s u = .ok x) :
    ((valuedPositions s u).length ≤ 1 →
      ∃ oracle mid, marginFractionAt s u (fun _ => .oracle) = .ok oracle ∧
        marginFractionAt s u (fun _ => .mid) = .ok mid ∧ x = min oracle mid) ∧
    ∀ margin basis fraction, fundedMargin s u = .ok margin →
      marginFractionAt s u basis = .ok fraction → AllSideWith s u margin fraction basis →
      x ≤ fraction ∧ (fraction < s.maintenanceMargin → x < s.maintenanceMargin) := by
  refine ⟨fun hone => marginFraction_eq_min hone h, ?_⟩
  intro margin basis fraction hmargin hfraction ha
  obtain ⟨margin', hmargin', h⟩ := bind_eq_ok.mp h
  obtain ⟨total, htotal, hx⟩ := bind_eq_ok.mp h
  obtain ⟨margin'', hmargin'', hfraction⟩ := bind_eq_ok.mp hfraction
  obtain ⟨chosen, hchosen, hfraction⟩ := bind_eq_ok.mp hfraction
  cases hmargin.symm.trans hmargin'
  cases hmargin.symm.trans hmargin''
  have hle := ha.fraction_le htotal hchosen hx hfraction
  exact ⟨hle, fun hlt => Int.lt_of_le_of_lt hle hlt⟩

theorem SidesWith.of_values (hv : p.valueAt (s.price m .oracle) = .ok v)
    (hw : p.valueAt (s.price m .mid) = .ok w) (hexposed : v.notional ≠ 0 ∧ w.notional ≠ 0)
    (hdistinct :
      marginFractionOf margin v.pnl v.notional ≠ marginFractionOf margin w.pnl w.notional)
    (hside : fraction.toInt < p.size.toInt.sign * 1000000 ∧
        margin.toInt ≤ p.size.toInt.sign * p.openNotional.toInt ∨
      p.size.toInt.sign * 1000000 ≤ fraction.toInt ∧
        p.size.toInt.sign * p.openNotional.toInt ≤ margin.toInt) :
    SidesWith s margin fraction m p where
  side := hside
  exposed b v' hv' := by
    cases b with
    | oracle =>
      cases hv.symm.trans hv'
      exact hexposed.1
    | mid =>
      cases hw.symm.trans hv'
      exact hexposed.2
  untied v' w' hv' hw' := by
    cases hv.symm.trans hv'
    cases hw.symm.trans hw'
    exact hdistinct

end

/-- One market falls from seventy to sixty at the mid price and one rises from eighty to ninety. The
lower price is kept of each, and no equity is left. -/
theorem marginFraction_of_crossed :
    let s := twoMarkets (70000000, 60000000) (80000000, 90000000)
    let u := longBoth 100000000 120000000
    marginFraction s u = .ok 0 ∧ fundedMargin s u = .ok 100000000 ∧ ∀ b,
      marginFractionAt s u (fun _ => b) = .ok 66666 ∧ AllSideWith s u 100000000 66666 (fun _ => b) ∧
      (0 : Amount) ≤ 66666 ∧
      ((66666 : Amount) < s.maintenanceMargin → 0 < s.maintenanceMargin) := by
  intro s u
  have h : marginFraction s u = .ok 0 := by decide +kernel
  have hmargin : fundedMargin s u = .ok 100000000 := by decide +kernel
  refine ⟨h, hmargin, fun b => ?_⟩
  have hpure : marginFractionAt s u (fun _ => b) = .ok 66666 := by
    cases b <;> decide +kernel
  have hside : ∀ e ∈ valuedPositions s u, SidesWith s 100000000 66666 e.1 e.2 := by
    let long : Position :=
      { (default : Position) with size := 1000000000000000000, openNotional := 120000000 }
    have hvalued : valuedPositions s u = [(0, long), (1, long)] := by decide +kernel
    rw [hvalued, List.forall_mem_cons, List.forall_mem_singleton]
    constructor
    · exact SidesWith.of_values (v := ⟨70000000, .clamp (-50000000)⟩)
        (w := ⟨60000000, .clamp (-60000000)⟩)
        (by decide +kernel) (by decide +kernel) (by decide) (by decide) (.inl (by decide))
    · exact SidesWith.of_values (v := ⟨80000000, .clamp (-40000000)⟩)
        (w := ⟨90000000, .clamp (-30000000)⟩)
        (by decide +kernel) (by decide +kernel) (by decide) (by decide) (.inl (by decide))
  have hside : AllSideWith s u 100000000 66666 (fun _ => b) := fun e he _ => hside e he
  exact ⟨hpure, hside, (marginFraction_conservative h).2 _ _ _ hmargin hpure hside⟩

/-- A trader whose margin is above what each of two longs was opened for. Each long by itself has
more than its whole notional behind it and takes the higher price for the worse one, and the trader
passes the check that they fail at the oracle prices. -/
theorem marginFraction_above_oracle :
    let s := twoMarkets (54000000, 60000000) (54000000, 60000000)
    let u := longBoth 100000000 99000000
    (∀ (m : MarketId) price, s.oraclePrices[m]? = some price → 0 ≤ price) ∧
      (∀ (m : MarketId) price, s.midPrices[m]? = some price → 0 ≤ price) ∧
      marginFraction s u = .ok 183333 ∧
      marginFractionAt s u (fun _ => .oracle) = .ok 92592 ∧
      ¬((183333 : Amount) ≤ 92592) ∧
      (92592 : Amount) < s.maintenanceMargin ∧ ¬((183333 : Amount) < s.maintenanceMargin) := by
  decide +kernel

end PerpExchange
