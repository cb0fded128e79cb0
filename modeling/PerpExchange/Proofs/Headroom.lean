import PerpExchange.Proofs.Valuations
import Mathlib.Order.Bounds.Basic

/-! The margin that is free for new orders, against that at any choice of prices. Each market keeps
the price that leaves less of the profit once its own share of the notional is set aside, and each
of those shares is rounded down by itself; of the whole notional one share is set aside. Rounding
once and rounding market by market are apart by less than a unit for each market after the first. -/
namespace PerpExchange
open Checked

/-- The share of a notional that is set aside, rounded down. -/
def RiskState.setAside (s : RiskState) (notional : Int) : Int :=
  notional * s.minAllowableMargin.toInt / 1000000

section
variable {s : RiskState} {u : RiskUser} {margin : Amount} {v w total : Valuation}

theorem setAside_add_le (s : RiskState) (n k : Int) :
    s.setAside n + s.setAside k ≤ s.setAside (n + k) := by
  unfold RiskState.setAside
  rw [Int.add_mul]
  omega

theorem setAside_add_ge (s : RiskState) (n k : Int) :
    s.setAside (n + k) ≤ s.setAside n + s.setAside k + 1 := by
  unfold RiskState.setAside
  rw [Int.add_mul]
  omega

/-- The share of a sum is no less than the shares together. -/
theorem overAll_setAside_le (s : RiskState) (vs : List Valuation) :
    overAll (fun v => s.setAside v.notional.toInt) vs ≤
      s.setAside (overAll (fun v => v.notional.toInt) vs) := by
  induction vs with
  | nil => simp [RiskState.setAside]
  | cons v vs ih =>
    rw [overAll_cons, overAll_cons]
    have hadd := setAside_add_le s v.notional.toInt (overAll (fun v => v.notional.toInt) vs)
    omega

/-- The share of a sum is more than the shares together by less than a unit for each summand after
the first. -/
theorem setAside_overAll_le (s : RiskState) (vs : List Valuation) :
    s.setAside (overAll (fun v => v.notional.toInt) vs) ≤
      overAll (fun v => s.setAside v.notional.toInt) vs + (vs.length - 1 : Nat) := by
  induction vs with
  | nil => simp [RiskState.setAside]
  | cons v vs ih =>
    cases vs with
    | nil => simp
    | cons w ws =>
      rw [overAll_cons _ v, overAll_cons _ v]
      have hadd := setAside_add_ge s v.notional.toInt
        (overAll (fun v => v.notional.toInt) (w :: ws))
      simp only [List.length_cons, Nat.add_sub_cancel] at ih ⊢
      omega

/-- What a valuation leaves of the profit once its share is set aside. -/
def RiskState.room (s : RiskState) (v : Valuation) : Int :=
  v.pnl.toInt - s.setAside v.notional.toInt

theorem overAll_room (s : RiskState) (vs : List Valuation) :
    overAll s.room vs =
      overAll (fun v => v.pnl.toInt) vs - overAll (fun v => s.setAside v.notional.toInt) vs := by
  induction vs with
  | nil => rfl
  | cons v vs ih =>
    rw [overAll_cons, ih, overAll_cons, overAll_cons, RiskState.room]
    omega

/-- Setting aside one share of the whole leaves no more than the shares one by one, and less by at
most a unit for each market after the first. -/
theorem overAll_room_bounds {vs : List Valuation}
    (hnotional : total.notional.toInt = overAll (fun v => v.notional.toInt) vs)
    (hpnl : total.pnl.toInt = overAll (fun v => v.pnl.toInt) vs) :
    s.room total ≤ overAll s.room vs ∧
      overAll s.room vs ≤ s.room total + (vs.length - 1 : Nat) := by
  have hle := overAll_setAside_le s vs
  have hge := setAside_overAll_le s vs
  rw [overAll_room, RiskState.room, hnotional, hpnl]
  omega

theorem setAside_eq_ok {n product share : Amount} (hs : 0 ≤ s.minAllowableMargin) (hn : 0 ≤ n.toInt)
    (hproduct : n.mul s.minAllowableMargin = .ok product) (hshare : product.dropMicro = .ok share) :
    share.toInt = s.setAside n.toInt := by
  have hnonneg : 0 ≤ n.toInt * s.minAllowableMargin.toInt := Int.mul_nonneg hn hs
  rw [Amount.dropMicro_eq_ok_iff.mp hshare, Amount.mul_eq_ok_iff.mp hproduct,
    Int.tdiv_eq_ediv_of_nonneg hnonneg, RiskState.setAside]

theorem headroom_eq_ok {x : Amount} (hs : 0 ≤ s.minAllowableMargin) (hv : 0 ≤ v.notional.toInt)
    (h : headroom s v = .ok x) : x.toInt = s.room v := by
  obtain ⟨product, hproduct, h⟩ := bind_eq_ok.mp h
  obtain ⟨share, hshare, h⟩ := bind_eq_ok.mp h
  rw [Amount.sub_eq_ok_iff.mp h, setAside_eq_ok hs hv hproduct hshare, RiskState.room]

/-- What is free is the margin and the room of the whole, less what open orders hold. -/
theorem freeMargin_eq_ok {free : Amount} (hs : 0 ≤ s.minAllowableMargin)
    (ht : 0 ≤ total.notional.toInt) (h : freeMargin s u margin total = .ok free) :
    free.toInt = margin.toInt + s.room total - u.reserved.toInt := by
  obtain ⟨product, hproduct, h⟩ := bind_eq_ok.mp h
  obtain ⟨share, hshare, h⟩ := bind_eq_ok.mp h
  obtain ⟨equity, hequity, h⟩ := bind_eq_ok.mp h
  obtain ⟨rest, hrest, h⟩ := bind_eq_ok.mp h
  rw [Amount.sub_eq_ok_iff.mp h, Amount.sub_eq_ok_iff.mp hrest, Amount.add_eq_ok_iff.mp hequity,
    setAside_eq_ok hs ht hproduct hshare, RiskState.room]
  omega

variable {m : MarketId} {p : Position} {b : PriceBasis}

/-- The valuation that is kept of a market leaves no more room than the one at either price. -/
theorem room_worseValuation_le (hs : 0 ≤ s.minAllowableMargin) (hp : p.size ≠ 0)
    (hv : worseValuation s margin .minAllowable m p = .ok v)
    (hw : p.valueAt (s.price m b) = .ok w) : s.room v ≤ s.room w := by
  obtain ⟨b', hv'⟩ := valueAt_of_worseValuation hv
  obtain ⟨x, y, hx, hy, hle, -⟩ := worseValuation_le hv hw
  rwa [Amount.le_iff, headroom_eq_ok hs (valueAt_eq_ok hp hv').1 hx,
    headroom_eq_ok hs (valueAt_eq_ok hp hw).1 hy] at hle

variable {basis : MarketId → PriceBasis} {kept other available free : Amount}

/-- The valuation of the exchange leaves no more room than one at chosen prices, but for a unit for
each market after the first. -/
theorem room_totalValuation_le {chosen : Valuation} (hs : 0 ≤ s.minAllowableMargin)
    (ht : totalValuation s u margin .minAllowable = .ok total)
    (hc : totalAt s u basis = .ok chosen) :
    s.room total ≤ s.room chosen + ((valuedPositions s u).length - 1 : Nat) := by
  rw [totalValuation_eq_totalBy] at ht
  obtain ⟨vs, hvs, hnotional, hpnl⟩ := totalBy_eq_ok ht
  obtain ⟨ws, hws, hnotional', hpnl'⟩ := totalBy_eq_ok hc
  have hle : overAll s.room vs ≤ overAll s.room ws := by
    apply overAll_le
    apply forall₂_of_values hvs hws
    rintro ⟨m, p⟩ hmem v w hv hw
    have hp := (mem_valuedPositions.mp hmem).2
    exact room_worseValuation_le hs (size_ne_zero_of_valued hp) hv hw
  have hlow := (overAll_room_bounds (s := s) hnotional hpnl).1
  have hhigh := (overAll_room_bounds (s := s) hnotional' hpnl').2
  rw [← hws.length_eq] at hhigh
  omega

theorem totalAt_nonneg (h : totalAt s u basis = .ok total) : 0 ≤ total.notional.toInt := by
  obtain ⟨vs, hvs, hnotional, -⟩ := totalBy_eq_ok h
  rw [hnotional]
  apply overAll_nonneg
  refine forall_of_values hvs ?_
  rintro ⟨m, p⟩ hmem v hv
  exact (valueAt_eq_ok (size_ne_zero_of_valued (mem_valuedPositions.mp hmem).2) hv).1

theorem availableMargin_eq_ok (h : availableMargin s u = .ok available) :
    ∃ margin total, fundedMargin s u = .ok margin ∧
      totalValuation s u margin .minAllowable = .ok total ∧
      freeMargin s u margin total = .ok available := by
  obtain ⟨margin, hmargin, h⟩ := bind_eq_ok.mp h
  obtain ⟨total, htotal, h⟩ := bind_eq_ok.mp h
  exact ⟨margin, total, hmargin, htotal, h⟩

/-- The margin that is free is that at the prices that are kept. -/
theorem availableMarginAt_kept (hmargin : fundedMargin s u = .ok margin)
    (htotal : totalValuation s u margin .minAllowable = .ok total)
    (hfree : freeMargin s u margin total = .ok available) :
    availableMarginAt s u (keptBasis s u margin .minAllowable) = .ok available :=
  bind_eq_ok.mpr ⟨margin, hmargin, bind_eq_ok.mpr ⟨total, totalAt_keptBasis htotal, hfree⟩⟩

/-- Free margin is conservative. At no choice of a price for each market does the trader have less
margin free, but for a unit of rounding for each market after the first. With at most one market the
free margin is the least over the choices. -/
theorem availableMargin_conservative (hs : 0 ≤ s.minAllowableMargin)
    (h : availableMargin s u = .ok available) :
    (∀ basis other, availableMarginAt s u basis = .ok other →
      available.toInt ≤ other.toInt + ((valuedPositions s u).length - 1 : Nat)) ∧
    ((valuedPositions s u).length ≤ 1 →
      IsLeast {other | ∃ basis, availableMarginAt s u basis = .ok other} available) := by
  obtain ⟨margin, total, hmargin, htotal, hfree⟩ := availableMargin_eq_ok h
  have hkept := totalAt_keptBasis htotal
  have hbound : ∀ basis other, availableMarginAt s u basis = .ok other →
      available.toInt ≤ other.toInt + ((valuedPositions s u).length - 1 : Nat) := by
    intro basis other hother
    obtain ⟨margin', hmargin', hother⟩ := bind_eq_ok.mp hother
    obtain ⟨chosen, hchosen, hother⟩ := bind_eq_ok.mp hother
    cases hmargin.symm.trans hmargin'
    have hle := room_totalValuation_le hs htotal hchosen
    rw [freeMargin_eq_ok hs (totalAt_nonneg hkept) hfree,
      freeMargin_eq_ok hs (totalAt_nonneg hchosen) hother]
    omega
  refine ⟨hbound, fun hone => ⟨⟨_, availableMarginAt_kept hmargin htotal hfree⟩, ?_⟩⟩
  rintro other ⟨basis, hother⟩
  have hle := hbound basis other hother
  rw [Amount.le_iff]
  omega

end

/-- The unit for the second market is needed: nothing is set aside of a notional of one, and a unit
of two of them together. -/
theorem availableMargin_of_tie :
    let s := twoMarkets (2, 1) (2, 1)
    let u := longBoth 10 0
    0 ≤ s.minAllowableMargin ∧ availableMargin s u = .ok 12 ∧
      availableMarginAt s u (fun _ => .mid) = .ok 11 ∧
      (∀ basis other, availableMarginAt s u basis = .ok other → 12 ≤ other.toInt + 1) := by
  intro s u
  have hs : 0 ≤ s.minAllowableMargin := by decide
  have h : availableMargin s u = .ok 12 := by decide +kernel
  have hlen : (valuedPositions s u).length = 2 := by decide +kernel
  have hbound := (availableMargin_conservative hs h).1
  rw [hlen] at hbound
  exact ⟨hs, h, by decide +kernel, hbound⟩

end PerpExchange
