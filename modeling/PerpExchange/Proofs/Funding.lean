import PerpExchange.Proofs.Map
import PerpExchange.Proofs.Ranges
import PerpExchange.Store.Accounts

/-! The funding of a position as an integer, and the positions of a store after funding is accrued:
each owes its own, and two that are opposite owe opposite amounts. -/
namespace PerpExchange
open Checked

/-- An integer, or the end of the range of amounts that it lies beyond. -/
def limited (i : Int) : Int :=
  max (-170141183460469231731687303715884105728) (min i 170141183460469231731687303715884105727)

theorem Amount.toInt_clamp_eq_limited (i : Int) : (clamp i).toInt = limited i := toInt_clamp i

/-- Raised by a unit less one, a negative integer is rounded toward zero by rounding down. -/
theorem raised_ediv_eq_tdiv {i : Int} (h : i < 0) :
    (i + 1000000000000000000 - 1) / 1000000000000000000 = i.tdiv 1000000000000000000 := by
  rw [Int.tdiv_eq_ediv]
  split
  next hdvd => omega
  next hdvd =>
    have hsign : (1000000000000000000 : Int).sign = 1 := rfl
    omega

/-- The funding of a position always fits: what is added before it is rounded is taken from a
negative amount. -/
theorem yields_pendingFunding (cumulative last size : Amount) :
    Yields (pendingFunding cumulative last size) fun funding =>
      funding.toInt = (limited (limited (cumulative.toInt - last.toInt) * size.toInt)).tdiv
        1000000000000000000 := by
  have hpayment : ((cumulative.satSub last).satMul size).toInt =
      limited (limited (cumulative.toInt - last.toInt) * size.toInt) := by
    rw [Amount.satMul, Amount.toInt_clamp_eq_limited, Amount.satSub,
      Amount.toInt_clamp_eq_limited]
  rw [← hpayment]
  unfold pendingFunding
  simp only
  generalize (cumulative.satSub last).satMul size = payment
  have hlow := payment.lower
  have hatto := Amount.toInt_atto
  split
  next hneg =>
    rw [Amount.lt_iff, Amount.toInt_zero] at hneg
    have hone : (1 : Amount).toInt = 1 := rfl
    apply (Amount.yields_add ⟨by omega, by omega⟩).bind
    intro raised hraised
    apply (Amount.yields_sub ⟨by omega, by omega⟩).bind
    intro floored hfloored
    unfold Amount.divEuclid
    rw [if_neg (by decide), hatto, ← raised_ediv_eq_tdiv hneg]
    apply (Amount.yields_fit ⟨by omega, by omega⟩).mono
    intro funding hfunding
    rw [hfunding, hfloored, hraised, hatto, hone]
  next =>
    obtain ⟨funding, hok, -⟩ := Amount.yields_dropAtto payment
    exact ⟨funding, hok, hatto ▸ (Amount.div_eq_ok_iff (by decide)).mp hok⟩

/-- The ends of the range differ by one in magnitude, and not in whole units of funding. -/
theorem limited_neg_tdiv (i : Int) :
    (limited (-i)).tdiv 1000000000000000000 = -(limited i).tdiv 1000000000000000000 := by
  have hcases : limited (-i) = -limited i ∨
      limited i = -170141183460469231731687303715884105728 ∧
        limited (-i) = 170141183460469231731687303715884105727 ∨
      limited i = 170141183460469231731687303715884105727 ∧
        limited (-i) = -170141183460469231731687303715884105728 := by
    unfold limited
    omega
  rcases hcases with hwithin | ⟨hlow, hhigh⟩ | ⟨hhigh, hlow⟩
  · rw [hwithin, Int.neg_tdiv]
  · rw [hlow, hhigh]
    rfl
  · rw [hlow, hhigh]
    rfl

/-- An equal and opposite size is owed the opposite funding. -/
theorem pendingFunding_opposite {cumulative last size size' funding funding' : Amount}
    (hsize : size'.toInt = -size.toInt) (h : pendingFunding cumulative last size = .ok funding)
    (h' : pendingFunding cumulative last size' = .ok funding') :
    funding'.toInt = -funding.toInt := by
  obtain ⟨f, hf, hvalue⟩ := yields_pendingFunding cumulative last size
  obtain ⟨f', hf', hvalue'⟩ := yields_pendingFunding cumulative last size'
  obtain rfl : f = funding := Except.ok.inj (hf.symm.trans h)
  obtain rfl : f' = funding' := Except.ok.inj (hf'.symm.trans h')
  rw [hvalue', hvalue, hsize, Int.mul_neg, limited_neg_tdiv]

namespace Map
variable {κ ν : Type} [Ord κ] [Std.TransOrd κ] [Std.LawfulEqOrd κ] [DecidableEq κ]
variable {f : ν → Checked ν} {P : ν → ν → Prop}

/-- Entries under keys of their own, written one after another as a computation answers for them. -/
theorem yields_foldlM_insert_list (hf : ∀ v, Yields (f v) (P v)) {es : List (κ × ν)}
    (hkeys : es.Pairwise fun e e' => e.1 ≠ e'.1) (acc : Map κ ν) :
    Yields (es.foldlM (fun (acc : Map κ ν) e => do return acc.insert e.1 (← f e.2)) acc)
      fun m => (∀ e ∈ es, ∃ v, P e.2 v ∧ m[e.1]? = some v) ∧
        ∀ k, (∀ e ∈ es, e.1 ≠ k) → m[k]? = acc[k]? := by
  induction es generalizing acc with
  | nil => exact yields_ok ⟨fun e he => absurd he List.not_mem_nil, fun _ _ => rfl⟩
  | cons e es ih =>
    obtain ⟨hfresh, hkeys⟩ := List.pairwise_cons.mp hkeys
    rw [List.foldlM_cons]
    obtain ⟨v, hv, hP⟩ := hf e.2
    rw [hv, ok_bind, pure_eq, ok_bind]
    apply (ih hkeys (acc.insert e.1 v)).mono
    rintro m ⟨hdone, hrest⟩
    constructor
    · -- No later entry has the key of the first, so what was written for it stays.
      have hfirst : m[e.1]? = some v := by
        rw [hrest e.1 fun e' he' => (hfresh e' he').symm, getElem?_insert_key, if_pos rfl]
      exact List.forall_mem_cons.mpr ⟨⟨v, hP, hfirst⟩, hdone⟩
    · intro k hk
      obtain ⟨hne, hk⟩ := List.forall_mem_cons.mp hk
      rw [hrest k hk, getElem?_insert_key, if_neg hne]

/-- Every entry of a map is replaced by what a computation answers for it. -/
theorem yields_foldlM_insert (hf : ∀ v, Yields (f v) (P v)) (m : Map κ ν) :
    Yields (m.toList.foldlM (fun (acc : Map κ ν) e => do return acc.insert e.1 (← f e.2)) m)
      fun m' => ∀ k : κ, Option.Rel P m[k]? m'[k]? := by
  apply (yields_foldlM_insert_list hf m.distinct_keys m).mono
  rintro m' ⟨hdone, hrest⟩ k
  cases hk : m[k]? with
  | some v =>
    obtain ⟨v', hP, hv'⟩ := hdone (k, v) (Std.ExtTreeMap.mem_toList_iff_getElem?_eq_some.mpr hk)
    rw [hv']
    exact .some hP
  | none =>
    have hother : ∀ e ∈ m.toList, e.1 ≠ k := by
      rintro ⟨k', v⟩ he rfl
      rw [Std.ExtTreeMap.mem_toList_iff_getElem?_eq_some.mp he] at hk
      cases hk
    rw [hrest k hother, hk]
    exact .none

end Map

/-- What accruing funding in a market makes of a trader. -/
inductive Trader.Accrues (m : MarketId) (cumulative : Amount) (t : Trader) : Trader → Prop
  | idle (h : t.positions[m]? = none) : Accrues m cumulative t t
  | owing {p : Position} {funding : Amount} (hp : t.positions[m]? = some p)
    (h : pendingFunding cumulative p.lastPremium p.size = .ok funding) :
    Accrues m cumulative t
      { t with positions := t.positions.insert m { p with unrealisedFunding := funding } }

namespace Trader.Accrues
variable {m : MarketId} {cumulative : Amount} {t t' : Trader} {p : Position}

theorem margin_eq (h : t.Accrues m cumulative t') : t'.margin = t.margin := by
  cases h <;> rfl

/-- A position in the market owes its own funding afterwards. -/
theorem exists_funding (h : t.Accrues m cumulative t') (hp : t.positions[m]? = some p) :
    ∃ funding, pendingFunding cumulative p.lastPremium p.size = .ok funding ∧
      t'.positions[m]? = some { p with unrealisedFunding := funding } := by
  cases h with
  | idle hnone =>
    rw [hp] at hnone
    cases hnone
  | owing hp' h =>
    rw [hp] at hp'
    cases hp'
    exact ⟨_, h, Map.getElem?_insert_key.trans (if_pos rfl)⟩

end Trader.Accrues

namespace Store

theorem yields_accrueFunding (m : MarketId) (cumulative : Amount) (t : Trader) :
    Yields (accrueFunding m cumulative t) (t.Accrues m cumulative) := by
  unfold accrueFunding
  split
  next hp => exact yields_ok (.idle hp)
  next p hp =>
    obtain ⟨funding, h, -⟩ := yields_pendingFunding cumulative p.lastPremium p.size
    exact ⟨_, Checked.bind_eq_ok.mpr ⟨funding, h, rfl⟩, .owing hp h⟩

/-- Accruing funding in a market does so for every trader. -/
theorem yields_updateFunding_accrues (s : Store) (m : MarketId) (cumulative : Amount) :
    Yields (s.updateFunding m cumulative) fun s' =>
      ∀ a, (s.trader a).Accrues m cumulative (s'.trader a) := by
  apply (Map.yields_foldlM_insert (yields_accrueFunding m cumulative) s.traders).bind
  intro traders htraders
  refine yields_ok fun a => ?_
  have ha := htraders a
  simp only [trader, Map.getD_of_getElem?]
  generalize s.traders[a]? = t, traders[a]? = t' at ha ⊢
  cases ha with
  | none => exact .idle Std.ExtTreeMap.getElem?_empty
  | some h => exact h

end Store

/-- The funding of a position always fits. It is the premium since the last fraction, limited to the
range, times the size, limited again, in whole units and rounded toward zero. The opposite size is
owed the opposite funding, also where a limit is reached, so that two opposite positions of a market
with the same last fraction accrue opposite amounts. -/
theorem funding_truncates_and_mirrors (cumulative last size : Amount) :
    (∃ funding, pendingFunding cumulative last size = .ok funding ∧
      funding.toInt = (limited (limited (cumulative.toInt - last.toInt) * size.toInt)).tdiv
        1000000000000000000) ∧
    (size ≠ Amount.least → ∃ size' funding funding', size.neg = .ok size' ∧
      pendingFunding cumulative last size = .ok funding ∧
      pendingFunding cumulative last size' = .ok funding' ∧ funding.neg = .ok funding') ∧
    ∀ (s : Store) (m : MarketId), ∃ s', s.updateFunding m cumulative = .ok s' ∧
      ∀ (a a' : Address) (p p' : Position), (s.trader a).positions[m]? = some p →
        (s.trader a').positions[m]? = some p' → p'.lastPremium = p.lastPremium →
        p.size.neg = .ok p'.size → ∃ funding funding',
          pendingFunding cumulative p.lastPremium p.size = .ok funding ∧
          (s'.trader a).positions[m]? = some { p with unrealisedFunding := funding } ∧
          (s'.trader a').positions[m]? = some { p' with unrealisedFunding := funding' } ∧
          funding.neg = .ok funding' := by
  refine ⟨yields_pendingFunding cumulative last size, fun hsize => ?_, fun s m => ?_⟩
  · have hlow := Amount.ne_least_iff.mp hsize
    have hhigh := size.upper
    obtain ⟨size', hneg, hsize'⟩ : Yields size.neg fun size' => size'.toInt = -size.toInt :=
      Amount.yields_fit ⟨by omega, by omega⟩
    obtain ⟨funding, h, -⟩ := yields_pendingFunding cumulative last size
    obtain ⟨funding', h', -⟩ := yields_pendingFunding cumulative last size'
    exact ⟨size', funding, funding', hneg, h, h',
      Amount.neg_eq_ok_iff.mpr (pendingFunding_opposite hsize' h h')⟩
  · obtain ⟨s', hs', haccrues⟩ := s.yields_updateFunding_accrues m cumulative
    refine ⟨s', hs', fun a a' p p' hp hp' hlast hneg => ?_⟩
    obtain ⟨funding, h, hposition⟩ := (haccrues a).exists_funding hp
    obtain ⟨funding', h', hposition'⟩ := (haccrues a').exists_funding hp'
    rw [hlast] at h'
    exact ⟨funding, funding', h, hposition, hposition', Amount.neg_eq_ok_iff.mpr
      (pendingFunding_opposite (Amount.neg_eq_ok_iff.mp hneg) h h')⟩

/-- The greatest long there can be, with the least of all last fractions. -/
def greatestLong : Position := { (default : Position) with size := .greatest, lastPremium := .least }

/-- The short that is opposite to it. -/
def oppositeShort : Position :=
  { greatestLong with size := .clamp (-170141183460469231731687303715884105727) }

/-- Two traders face each other in the first market. -/
def Store.facing : Store :=
  (empty.setTrader default ⟨(∅ : Map MarketId Position).insert 0 greatestLong, default⟩).setTrader
    (Bytes.ofWord 20 1) ⟨(∅ : Map MarketId Position).insert 0 oppositeShort, default⟩

theorem funding_of_facing_mirrors :
    (∃ size' funding funding', Amount.greatest.neg = .ok size' ∧
      pendingFunding .greatest .least .greatest = .ok funding ∧
      funding.toInt = 170141183460469231731 ∧
      pendingFunding .greatest .least size' = .ok funding' ∧ funding.neg = .ok funding') ∧
    ∃ s' p p', Store.facing.updateFunding 0 .greatest = .ok s' ∧
      (s'.trader default).positions[(0 : MarketId)]? = some p ∧
      (s'.trader (Bytes.ofWord 20 1)).positions[(0 : MarketId)]? = some p' ∧
      p.unrealisedFunding.toInt = 170141183460469231731 ∧
      p.unrealisedFunding.neg = .ok p'.unrealisedFunding := by
  obtain ⟨⟨funding, hfunding, hvalue⟩, hmirrors, haccrues⟩ :=
    funding_truncates_and_mirrors .greatest .least .greatest
  constructor
  · obtain ⟨size', funding₁, funding', hneg, h, h', hopposite⟩ := hmirrors (by decide)
    obtain rfl : funding = funding₁ := Except.ok.inj (hfunding.symm.trans h)
    exact ⟨size', funding, funding', hneg, h, hvalue, h', hopposite⟩
  · have hlong : (Store.facing.trader default).positions[(0 : MarketId)]? = some greatestLong := by
      decide +kernel
    have hshort : (Store.facing.trader (Bytes.ofWord 20 1)).positions[(0 : MarketId)]? =
        some oppositeShort := by decide +kernel
    obtain ⟨s', hs', hall⟩ := haccrues Store.facing 0
    obtain ⟨funding₁, funding', h, hp, hp', hopposite⟩ := hall default (Bytes.ofWord 20 1)
      greatestLong oppositeShort hlong hshort rfl (Amount.neg_eq_ok_iff.mpr rfl)
    obtain rfl : funding = funding₁ := Except.ok.inj (hfunding.symm.trans h)
    exact ⟨s', _, _, hs', hp, hp', hvalue, hopposite⟩

end PerpExchange
