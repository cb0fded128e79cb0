import PerpExchange.Proofs.Ranges
import PerpExchange.Store.Sweep
import Mathlib.Data.List.Forall2

/-! Which of their orders traders are to give up for a deficit: those farthest from the oracle price,
and no more of them than it takes. -/
namespace PerpExchange
open Amount

theorem Checked.mapM_eq_ok {α β : Type} {f : α → Checked β} {xs : List α} {ys : List β}
    (h : xs.mapM f = .ok ys) : List.Forall₂ (fun x y => f x = .ok y) xs ys := by
  induction xs generalizing ys with
  | nil =>
    cases h
    exact .nil
  | cons x xs ih =>
    rw [List.mapM_cons] at h
    obtain ⟨y, hy, h⟩ := Checked.bind_eq_ok.mp h
    obtain ⟨ys', hys, h⟩ := Checked.bind_eq_ok.mp h
    cases h
    exact .cons hy (ih hys)

/-- What corresponds to an item is there. -/
theorem exists_of_forall₂ {α β : Type} {R : α → β → Prop} {as : List α} {bs : List β} {b : β}
    (h : List.Forall₂ R as bs) (hb : b ∈ bs) : ∃ a ∈ as, R a b := by
  induction h with
  | nil => cases hb
  | @cons x y _ _ hr _ ih =>
    rcases List.mem_cons.mp hb with rfl | hb
    · exact ⟨x, List.mem_cons_self, hr⟩
    · obtain ⟨a, ha, hab⟩ := ih hb
      exact ⟨a, List.mem_cons_of_mem _ ha, hab⟩

theorem pairwise_of_length_le_one {α : Type} {R : α → α → Prop} :
    {l : List α} → l.length ≤ 1 → l.Pairwise R
  | [], _ => .nil
  | [_], _ => List.pairwise_singleton _ _

namespace Store
variable {r : RiskState} {o p q : Order} {orders sorted selected : List Order}

/-- How far the price of an order is from the oracle price, counted without a bound. -/
def oracleGap (r : RiskState) (o : Order) : Nat :=
  (o.price.toInt - (r.oraclePrice o.market).toInt).natAbs

/-- An order is farther from the oracle price than another, or as far with an id that is not
greater. -/
def GoesFirst (r : RiskState) (o p : Order) : Prop :=
  oracleGap r p < oracleGap r o ∨ oracleGap r p = oracleGap r o ∧ (compare o.id p.id).isLE

theorem oracleDistance_eq_ok {d : Amount} (h : oracleDistance r o = .ok d) :
    d.toInt = oracleGap r o := by
  obtain ⟨difference, hsub, habs⟩ := Checked.bind_eq_ok.mp h
  rw [abs_eq_ok.mp habs, sub_eq_ok_iff.mp hsub, oracleGap]

/-- The distance that orders are sorted by; that of one that is not measured counts as none. -/
def sortedDistance (r : RiskState) (o : Order) : Int := ((oracleDistance r o).toOption.getD 0).toInt

theorem not_isFarther_iff : (!isFarther r p o) = true ↔
    sortedDistance r p < sortedDistance r o ∨
      sortedDistance r p = sortedDistance r o ∧ (compare o.id p.id).isLE := by
  have hswap : compare p.id o.id = (compare o.id p.id).swap := Std.OrientedCmp.eq_swap
  have hdistances : compare ((oracleDistance r o).toOption.getD 0)
      ((oracleDistance r p).toOption.getD 0) =
        compare (sortedDistance r o) (sortedDistance r p) := rfl
  unfold isFarther
  simp only [hdistances, hswap]
  rcases Int.lt_trichotomy (sortedDistance r o) (sortedDistance r p) with h | h | h
  · have hc : compare (sortedDistance r o) (sortedDistance r p) = .lt := Int.compare_eq_lt.mpr h
    rw [hc]
    simp
    omega
  · have hc : compare (sortedDistance r o) (sortedDistance r p) = .eq := Int.compare_eq_eq.mpr h
    rw [hc]
    cases compare o.id p.id <;> simp [h]
  · have hc : compare (sortedDistance r o) (sortedDistance r p) = .gt := Int.compare_eq_gt.mpr h
    rw [hc]
    simp [h]

theorem sorted_mergeSort (r : RiskState) (orders : List Order) :
    (orders.mergeSort fun o p => !isFarther r p o).Pairwise fun o p => !isFarther r p o := by
  apply List.pairwise_mergeSort
  · intro o p q hop hpq
    rw [not_isFarther_iff] at hop hpq ⊢
    rcases hop with hop | ⟨hop, hid⟩
    · exact .inl (by omega)
    · rcases hpq with hpq | ⟨hpq, hid'⟩
      · exact .inl (by omega)
      · exact .inr ⟨hpq.trans hop, Std.TransCmp.isLE_trans hid hid'⟩
  · intro o p
    have hswap : compare p.id o.id = (compare o.id p.id).swap := Std.OrientedCmp.eq_swap
    rw [Bool.or_eq_true, not_isFarther_iff, not_isFarther_iff, hswap]
    rcases Int.lt_trichotomy (sortedDistance r o) (sortedDistance r p) with h | h | h
    · exact .inr (.inl h)
    · cases compare o.id p.id <;> simp [h]
    · exact .inl (.inl h)

/-- Sorting by the distance keeps the orders, and puts those that go first in front. -/
theorem farthestFirst_eq_ok (h : farthestFirst r orders = .ok sorted) :
    sorted.Perm orders ∧ sorted.Pairwise (GoesFirst r) := by
  obtain ⟨measured, hmeasured, h⟩ := Checked.bind_eq_ok.mp h
  cases h
  have hperm := List.mergeSort_perm orders fun o p => !isFarther r p o
  refine ⟨hperm, ?_⟩
  by_cases hlength : 2 ≤ orders.length
  · -- Of two orders or more each is measured, so each is sorted by its distance.
    have hdistance : ∀ o ∈ orders, sortedDistance r o = oracleGap r o := by
      intro o ho
      obtain ⟨d, -, hd⟩ := exists_of_forall₂ (Checked.mapM_eq_ok hmeasured).flip
        (Sorting.mem_inspected hlength ho)
      rw [sortedDistance, hd]
      exact oracleDistance_eq_ok hd
    refine (sorted_mergeSort r orders).imp_of_mem fun {o p} ho hp hop => ?_
    rw [not_isFarther_iff, hdistance o (hperm.mem_iff.mp ho), hdistance p (hperm.mem_iff.mp hp)]
      at hop
    rcases hop with hop | ⟨hop, hid⟩
    · exact .inl (by omega)
    · exact .inr ⟨by omega, hid⟩
  · apply pairwise_of_length_le_one
    rw [hperm.length_eq]
    omega

/-- What cancelling some orders sets free. -/
inductive Frees (r : RiskState) : List Order → Int → Prop
  | nil : Frees r [] 0
  | cons {o : Order} {rest : List Order} {unfilled freed : Amount} {total : Int}
    (hunfilled : o.unfilled = .ok unfilled)
    (hfreed : orderMargin o.price unfilled r.minAllowableMargin = .ok freed)
    (hrest : Frees r rest total) : Frees r (o :: rest) (freed.toInt + total)

/-- Orders from the front of a list that cover a deficit, as far as the list can, none of them
without need. -/
structure Covers (r : RiskState) (available : Int) (sorted selected : List Order) : Prop where
  front : selected <+: sorted
  covered : ∃ total, Frees r selected total ∧ (0 ≤ available + total ∨ selected = sorted)
  needed : ∀ part, part <+: selected → part ≠ selected →
    ∃ total, Frees r part total ∧ available + total < 0

theorem coverDeficit_eq_ok {available : Amount}
    (h : coverDeficit r available sorted = .ok selected) :
    Covers r available.toInt sorted selected := by
  induction sorted generalizing available selected with
  | nil =>
    cases h
    exact ⟨List.nil_prefix, ⟨0, .nil, .inr rfl⟩, fun part hpart hne =>
      absurd (List.prefix_nil.mp hpart) hne⟩
  | cons o rest ih =>
    unfold coverDeficit at h
    split at h
    next hcovered =>
      cases h
      rw [le_iff, toInt_zero] at hcovered
      exact ⟨List.nil_prefix, ⟨0, .nil, .inl (by omega)⟩, fun part hpart hne =>
        absurd (List.prefix_nil.mp hpart) hne⟩
    next hdeficit =>
      rw [le_iff, toInt_zero] at hdeficit
      obtain ⟨unfilled, hunfilled, h⟩ := Checked.bind_eq_ok.mp h
      obtain ⟨freed, hfreed, h⟩ := Checked.bind_eq_ok.mp h
      obtain ⟨left, hleft, h⟩ := Checked.bind_eq_ok.mp h
      obtain ⟨others, hothers, h⟩ := Checked.bind_eq_ok.mp h
      cases h
      rw [add_eq_ok_iff] at hleft
      obtain ⟨hfront, ⟨total, hfrees, hcovered⟩, hneeded⟩ := ih hothers
      refine ⟨List.prefix_cons_inj o |>.mpr hfront, ⟨_, .cons hunfilled hfreed hfrees, ?_⟩, ?_⟩
      · rcases hcovered with hcovered | rfl
        · exact .inl (by omega)
        · exact .inr rfl
      · intro part hpart hne
        cases part with
        | nil => exact ⟨0, .nil, by omega⟩
        | cons q part =>
          obtain ⟨rfl, hrest⟩ := List.cons_prefix_cons.mp hpart
          obtain ⟨total', hfrees', hlt⟩ := hneeded part hrest fun he => hne (by rw [he])
          exact ⟨_, .cons hunfilled hfreed hfrees', by omega⟩

/-- What a trader is to give up: orders that cover the deficit, of all those they may give up with
the farthest first. -/
theorem selectCancellations_eq_ok {s : Store} {a : Address} {available : Amount}
    (h : s.selectCancellations r a available = .ok selected) :
    ∃ sorted, sorted.Perm (s.cancellable a) ∧ sorted.Pairwise (GoesFirst r) ∧
      Covers r available.toInt sorted selected := by
  obtain ⟨sorted, hsorted, h⟩ := Checked.bind_eq_ok.mp h
  obtain ⟨hperm, hfirst⟩ := farthestFirst_eq_ok hsorted
  exact ⟨sorted, hperm, hfirst, coverDeficit_eq_ok h⟩

end Store
end PerpExchange
