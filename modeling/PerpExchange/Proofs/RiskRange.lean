import PerpExchange.Proofs.Ranges
import PerpExchange.Risk

/-! When valuations of a trader stay in the range: prices are at most a whole unit for each unit of
size, so the notional of a position is at most its size, and sums over the open markets are at most
the sums of sizes and open notionals. -/
namespace PerpExchange
open Checked Amount

namespace Amount
variable {a b : Amount} {i : Int}

/-- Clamping makes no magnitude larger. -/
theorem natAbs_clamp_le (i : Int) : (clamp i).toInt.natAbs ≤ i.natAbs := by
  rw [toInt_clamp]
  omega

theorem natAbs_le (a : Amount) : a.toInt.natAbs ≤ 170141183460469231731687303715884105728 := by
  have hlow := a.lower
  have hhigh := a.upper
  omega

/-- Adding six decimals to an amount that leaves room for them. -/
theorem yields_scaleMicro (h : a.toInt.natAbs ≤ 170141183460469231731687303715884) :
    Yields a.scaleMicro fun _ => True := by
  have hfits : Fits (a.toInt * micro.toInt) := by
    rw [toInt_micro]
    constructor <;> omega
  exact (yields_mul hfits).mono fun _ _ => trivial

/-- A share of a notional, with six decimals, of which the whole fits. -/
theorem yields_share {n : Nat} (ha : 0 ≤ a.toInt) (hn : a.toInt ≤ n) (hb : 0 ≤ b.toInt)
    (h : n * b.toInt < 170141183460469231731687303715884105728) :
    Yields (a.mul b >>= dropMicro) fun c =>
      0 ≤ c.toInt ∧ c.toInt ≤ 170141183460469231731687303715884 := by
  have h0 : 0 ≤ a.toInt * b.toInt := Int.mul_nonneg ha hb
  have hle : a.toInt * b.toInt ≤ n * b.toInt := Int.mul_le_mul_of_nonneg_right hn hb
  apply (yields_mul ⟨by omega, by omega⟩).bind
  intro whole hwhole
  apply (yields_dropMicro whole).mono
  rintro c ⟨hc, hnonneg, -⟩
  omega

end Amount

/-- The magnitude of size times price in quote units. It always fits, and many times over: a product
with a ratio of at most one whole does so too. -/
theorem yields_notionalPosition (price size : Amount) :
    Yields (notionalPosition price size) fun n => 0 ≤ n.toInt ∧
      n.toInt ≤ 170141183460469231731 ∧
        n.toInt.natAbs * 1000000000000000000 ≤ size.toInt.natAbs * price.toInt.natAbs := by
  have hproduct : (size.satMul price).toInt.natAbs ≤ size.toInt.natAbs * price.toInt.natAbs := by
    rw [← Int.natAbs_mul]
    exact natAbs_clamp_le _
  have hrange := (size.satMul price).natAbs_le
  apply (yields_dropAtto _).bind
  intro q hq
  have hq := hq.natAbs_eq
  have hne : q ≠ least := by
    rintro rfl
    have hleast : least.toInt.natAbs = 170141183460469231731687303715884105728 := rfl
    omega
  apply (yields_abs hne).mono
  intro n hn
  refine ⟨by omega, by omega, ?_⟩
  rw [hn, Int.natAbs_natCast, hq]
  exact Nat.le_trans (Nat.div_mul_le_self _ _) hproduct

/-- At a price between zero and a whole, the notional is at most the size. -/
theorem yields_notional_le_size {price size : Amount} (h0 : 0 ≤ price.toInt)
    (h1 : price.toInt ≤ 1000000000000000000) :
    Yields (notionalPosition price size) fun n => 0 ≤ n.toInt ∧
      n.toInt ≤ size.toInt.natAbs := by
  apply (yields_notionalPosition price size).mono
  rintro n ⟨hn, -, hle⟩
  have hprice : price.toInt.natAbs ≤ 1000000000000000000 := by omega
  have hle := Nat.le_of_mul_le_mul_right
    (Nat.le_trans hle (Nat.mul_le_mul_left _ hprice)) (by decide)
  exact ⟨hn, by omega⟩

/-- A valuation between zero and a notional, with a profit within the notional and a debt. -/
structure Valuation.Within (v : Valuation) (notional debt : Nat) : Prop where
  nonneg : 0 ≤ v.notional.toInt
  notional_le : v.notional.toInt ≤ notional
  pnl_le : v.pnl.toInt.natAbs ≤ notional + debt

theorem Valuation.within_zero : Valuation.Within ⟨0, 0⟩ 0 0 := ⟨by simp, by simp, by simp⟩

namespace RiskState

/-- Prices between zero and a whole, a least margin that is not negative, and collaterals whose
decimals have a power of ten. -/
structure Bounded (s : RiskState) : Prop where
  oracle : ∀ m, 0 ≤ (s.oraclePrice m).toInt ∧ (s.oraclePrice m).toInt ≤ 1000000000000000000
  mid : ∀ m, 0 ≤ (s.midPrice m).toInt ∧ (s.midPrice m).toInt ≤ 1000000000000000000
  minAllowable_nonneg : 0 ≤ s.minAllowableMargin.toInt
  decimals : ∀ c ∈ s.collaterals, c.decimals ≤ 18

end RiskState

namespace RiskUser

/-- The size and the open notional of the position in a market, by magnitude. -/
def exposure (u : RiskUser) (m : MarketId) : Nat × Nat :=
  match u.positions[m]? with
  | some p => (p.size.toInt.natAbs, p.openNotional.toInt.natAbs)
  | none => (0, 0)

/-- What a trader holds and owes in some markets together. -/
def totalSize (u : RiskUser) (ms : List MarketId) : Nat :=
  ms.foldr (fun m total => (u.exposure m).1 + total) 0

def totalDebt (u : RiskUser) (ms : List MarketId) : Nat :=
  ms.foldr (fun m total => (u.exposure m).2 + total) 0

end RiskUser

theorem yields_tenPow {decimals : UInt32} (h : decimals ≤ 18) :
    Yields (tenPow decimals) fun a => 0 < a := by
  have hle : decimals.toNat ≤ 18 := UInt32.le_iff_toNat_le.mp h
  have hpow : 10 ^ decimals.toNat ≤ 10 ^ 18 := Nat.pow_le_pow_right (by decide) hle
  have hpos : 0 < 10 ^ decimals.toNat := Nat.pow_pos (by decide)
  have hcast : ((Nat.pow 10 decimals.toNat : Nat) : Int) = (10 ^ decimals.toNat : Nat) := rfl
  unfold tenPow
  rw [if_pos (UInt32.le_trans h (by decide))]
  apply (yields_fit ⟨by omega, by omega⟩).mono
  intro a ha
  rw [lt_iff, ha, toInt_zero]
  omega

theorem yields_normalizedMargin {collaterals : List Collateral}
    (h : ∀ c ∈ collaterals, c.decimals ≤ 18) (deposits : List Amount) :
    Yields (normalizedMargin collaterals deposits) fun _ => True := by
  apply yields_foldlM
  · rintro sum ⟨c, deposit⟩ hc -
    have hvalue : Yields (collateralValue c deposit) fun _ => True := by
      apply (yields_tenPow (h c (List.of_mem_zip hc).1)).bind
      intro scale hscale
      apply (yields_div hscale).bind
      intro value _
      exact (yields_dropMicro _).mono fun _ _ => trivial
    exact hvalue.bind fun _ _ => yields_ok trivial
  · trivial

section
variable {s : RiskState} {u : RiskUser} {margin : Amount}

theorem yields_fundedMargin (hs : s.Bounded) (u : RiskUser) :
    Yields (fundedMargin s u) fun _ => True :=
  (yields_normalizedMargin hs.decimals _).bind fun _ _ => yields_ok trivial

theorem yields_valueAt {p : Position} {price : Amount} (h0 : 0 ≤ price.toInt)
    (h1 : price.toInt ≤ 1000000000000000000)
    (hfit : p.size.toInt.natAbs + p.openNotional.toInt.natAbs <
      170141183460469231731687303715884105728) :
    Yields (p.valueAt price) fun v =>
      v.Within p.size.toInt.natAbs p.openNotional.toInt.natAbs := by
  unfold Position.valueAt
  split
  · exact yields_ok ⟨by simp, by simp, by simp⟩
  · apply (yields_notional_le_size h0 h1).bind
    rintro n ⟨hn, hle⟩
    simp only
    split
    · apply (yields_sub ⟨by omega, by omega⟩).bind
      intro pnl hpnl
      exact yields_ok ⟨hn, hle, by simp only; omega⟩
    · apply (yields_sub ⟨by omega, by omega⟩).bind
      intro pnl hpnl
      exact yields_ok ⟨hn, hle, by simp only; omega⟩

/-- The sum of margin and profit is raised by six decimals before it is divided. -/
theorem yields_marginFractionOf {pnl notional : Amount} (hn : 0 ≤ notional.toInt)
    (h : margin.toInt.natAbs + pnl.toInt.natAbs ≤ 170141183460469231731687303715884) :
    Yields (marginFractionOf margin pnl notional) fun _ => True := by
  unfold marginFractionOf
  split
  · exact yields_ok trivial
  next hne =>
    rw [eq_iff, toInt_zero] at hne
    apply (yields_add ⟨by omega, by omega⟩).bind
    intro sum hsum
    have hfits : sum.toInt.natAbs ≤ 170141183460469231731687303715884 := by omega
    apply (yields_scaleMicro hfits).bind
    intro scaled _
    apply (yields_div ?_).mono fun _ _ => trivial
    rw [lt_iff, toInt_zero]
    omega

variable {notional debt : Nat}

theorem yields_headroom {v : Valuation} (hs : s.Bounded) (hv : v.Within notional debt)
    (hfit : notional + debt ≤ 170141183460469231731687303715884)
    (hcharge : notional * s.minAllowableMargin.toInt <
      170141183460469231731687303715884105728) :
    Yields (headroom s v) fun _ => True := by
  have hpnl := hv.pnl_le
  unfold headroom
  rw [← bind_assoc]
  apply (yields_share hv.nonneg hv.notional_le hs.minAllowable_nonneg hcharge).bind
  rintro share ⟨h0, hle⟩
  exact (yields_sub ⟨by omega, by omega⟩).mono fun _ _ => trivial

theorem yields_noBetter {v w : Valuation} (hs : s.Bounded) (mode : MarginMode)
    (hv : v.Within notional debt) (hw : w.Within notional debt)
    (hfit : margin.toInt.natAbs + notional + debt ≤ 170141183460469231731687303715884)
    (hcharge : notional * s.minAllowableMargin.toInt <
      170141183460469231731687303715884105728) :
    Yields (noBetter s margin mode v w) fun _ => True := by
  have hv' := hv.pnl_le
  have hw' := hw.pnl_le
  cases mode with
  | maintenance =>
    apply (yields_marginFractionOf hv.nonneg (by omega)).bind
    intro x _
    apply (yields_marginFractionOf hw.nonneg (by omega)).bind
    intro y _
    exact yields_ok trivial
  | minAllowable =>
    apply (yields_headroom hs hv (by omega) hcharge).bind
    intro x _
    apply (yields_headroom hs hw (by omega) hcharge).bind
    intro y _
    exact yields_ok trivial

/-- Both valuations of a position stay within its size and its debt, and so does the worse. -/
theorem yields_worseValuation {p : Position} (hs : s.Bounded) (mode : MarginMode) (m : MarketId)
    (hfit : margin.toInt.natAbs + p.size.toInt.natAbs + p.openNotional.toInt.natAbs ≤
      170141183460469231731687303715884)
    (hcharge : p.size.toInt.natAbs * s.minAllowableMargin.toInt <
      170141183460469231731687303715884105728) :
    Yields (worseValuation s margin mode m p) fun v =>
      v.Within p.size.toInt.natAbs p.openNotional.toInt.natAbs := by
  unfold worseValuation
  apply (yields_valueAt (hs.oracle m).1 (hs.oracle m).2 (by omega)).bind
  intro oracle horacle
  apply (yields_valueAt (hs.mid m).1 (hs.mid m).2 (by omega)).bind
  intro mid hmid
  apply (yields_noBetter hs mode horacle hmid hfit hcharge).bind
  intro worse _
  apply yields_ok
  split
  · exact horacle
  · exact hmid

/-- A position that is valued is the one its trader is exposed to. -/
theorem exposure_eq {m : MarketId} {p : Position} (h : valuedPosition? s u m = some p) :
    u.exposure m = (p.size.toInt.natAbs, p.openNotional.toInt.natAbs) := by
  unfold valuedPosition? at h
  cases hq : u.positions[m]? with
  | none => simp [hq] at h
  | some q =>
    simp only [hq] at h
    split at h
    · cases h
    · cases h
      simp only [RiskUser.exposure, hq]

/-- A sum of valuations over markets stays within the sums of sizes and debts. -/
theorem yields_totalValuation_from (hs : s.Bounded) (mode : MarginMode) {ms : List MarketId}
    {total : Valuation} (ht : total.Within notional debt)
    (hfit : margin.toInt.natAbs + (notional + u.totalSize ms) + (debt + u.totalDebt ms) ≤
      170141183460469231731687303715884)
    (hcharge : (notional + u.totalSize ms : Nat) * s.minAllowableMargin.toInt <
      170141183460469231731687303715884105728) :
    Yields (ms.foldlM (fun total m =>
      match valuedPosition? s u m with
      | none => return total
      | some p => do
        let v ← worseValuation s margin mode m p
        let notional ← total.notional.add v.notional
        let pnl ← total.pnl.add v.pnl
        return ⟨notional, pnl⟩) total) fun v =>
      v.Within (notional + u.totalSize ms) (debt + u.totalDebt ms) := by
  induction ms generalizing total notional debt with
  | nil => exact yields_ok ht
  | cons m ms ih =>
    have hsize : u.totalSize (m :: ms) = (u.exposure m).1 + u.totalSize ms := rfl
    have hdebt : u.totalDebt (m :: ms) = (u.exposure m).2 + u.totalDebt ms := rfl
    rw [hsize, hdebt, ← Nat.add_assoc] at hfit
    rw [hsize, ← Nat.add_assoc] at hcharge
    rw [hsize, hdebt, ← Nat.add_assoc, ← Nat.add_assoc, List.foldlM_cons]
    refine Yields.bind (P := fun v => v.Within (notional + (u.exposure m).1)
      (debt + (u.exposure m).2)) ?_ fun v hv => ih hv (by omega) hcharge
    split
    next =>
      exact yields_ok ⟨ht.nonneg, by have := ht.notional_le; omega, by have := ht.pnl_le; omega⟩
    next p hp =>
      simp only [exposure_eq hp] at hfit hcharge ⊢
      have hcharge' : p.size.toInt.natAbs * s.minAllowableMargin.toInt <
          170141183460469231731687303715884105728 := by
        refine Int.lt_of_le_of_lt (Int.mul_le_mul_of_nonneg_right ?_ hs.minAllowable_nonneg) hcharge
        omega
      apply (yields_worseValuation hs mode m (by omega) hcharge').bind
      rintro v ⟨hv0, hvn, hvp⟩
      rcases ht with ⟨ht0, htn, htp⟩
      apply (yields_add ⟨by omega, by omega⟩).bind
      intro n hn
      apply (yields_add ⟨by omega, by omega⟩).bind
      intro pnl hpnl
      exact yields_ok ⟨by simp only; omega, by simp only; omega, by simp only; omega⟩

/-- The sizes and debts of a trader in the open markets, together with a margin, leave room for six
more decimals, and the whole margin charge on the sizes fits. -/
structure RiskUser.Affords (s : RiskState) (u : RiskUser) (margin : Amount) : Prop where
  worth : margin.toInt.natAbs + u.totalSize s.activeMarkets + u.totalDebt s.activeMarkets ≤
    170141183460469231731687303715884
  charge : u.totalSize s.activeMarkets * s.minAllowableMargin.toInt <
    170141183460469231731687303715884105728

instance {margin : Amount} : Decidable (RiskUser.Affords s u margin) :=
  decidable_of_iff (_ ∧ _) ⟨fun h => ⟨h.1, h.2⟩, fun h => ⟨h.1, h.2⟩⟩

theorem yields_totalValuation (hs : s.Bounded) (mode : MarginMode) (hu : u.Affords s margin) :
    Yields (totalValuation s u margin mode) fun v =>
      v.Within (u.totalSize s.activeMarkets) (u.totalDebt s.activeMarkets) := by
  have hworth := hu.worth
  have hcharge := hu.charge
  have htotal : Yields (totalValuation s u margin mode) fun v =>
      v.Within (0 + u.totalSize s.activeMarkets) (0 + u.totalDebt s.activeMarkets) :=
    yields_totalValuation_from hs mode Valuation.within_zero (by omega) (by rwa [Nat.zero_add])
  rwa [Nat.zero_add, Nat.zero_add] at htotal

theorem yields_marginFraction (hs : s.Bounded)
    (hu : ∀ margin, fundedMargin s u = .ok margin → u.Affords s margin) :
    Yields (marginFraction s u) fun _ => True := by
  obtain ⟨margin, hmargin, -⟩ := yields_fundedMargin hs u
  have hworth := (hu margin hmargin).worth
  unfold marginFraction
  rw [hmargin, ok_bind]
  apply (yields_totalValuation hs .maintenance (hu margin hmargin)).bind
  rintro total ⟨h0, -, hpnl⟩
  exact yields_marginFractionOf h0 (by omega)

theorem yields_availableMargin (hs : s.Bounded)
    (hu : ∀ margin, fundedMargin s u = .ok margin → u.Affords s margin)
    (hr : u.reserved.toInt.natAbs ≤ 100000000000000000000000000000000000000) :
    Yields (availableMargin s u) fun _ => True := by
  obtain ⟨margin, hmargin, -⟩ := yields_fundedMargin hs u
  have hworth := (hu margin hmargin).worth
  unfold availableMargin
  rw [hmargin, ok_bind]
  apply (yields_totalValuation hs .minAllowable (hu margin hmargin)).bind
  rintro total ⟨h0, hle, hpnl⟩
  rw [← bind_assoc]
  apply (yields_share h0 hle hs.minAllowable_nonneg (hu margin hmargin).charge).bind
  rintro utilized ⟨hu0, hule⟩
  apply (yields_add ⟨by omega, by omega⟩).bind
  intro worth hworth'
  apply (yields_sub ⟨by omega, by omega⟩).bind
  intro free hfree
  exact (yields_sub ⟨by omega, by omega⟩).mono fun _ _ => trivial

end
end PerpExchange
