import PerpExchange.Proofs.Arithmetic

/-! Computations that are sure to answer: what they answer with, and when arithmetic on amounts is
one of them. -/
namespace PerpExchange

namespace Checked
variable {α β : Type} {x : Checked α} {f : α → Checked β} {P P' : α → Prop} {Q : β → Prop}

/-- A computation answers, and with something that has a property. -/
def Yields (x : Checked α) (P : α → Prop) : Prop := ∃ a, x = .ok a ∧ P a

theorem Yields.mono (h : Yields x P) (hP : ∀ a, P a → P' a) : Yields x P' := by
  rcases h with ⟨a, hx, ha⟩
  exact ⟨a, hx, hP a ha⟩

theorem yields_ok {a : α} (h : P a) : Yields (.ok a) P := ⟨a, rfl, h⟩

theorem Yields.bind (h : Yields x P) (hf : ∀ a, P a → Yields (f a) Q) : Yields (x >>= f) Q := by
  rcases h with ⟨a, rfl, ha⟩
  exact hf a ha

/-- A fold keeps what each of its steps keeps. -/
theorem yields_foldlM {step : β → α → Checked β} {xs : List α} {b : β}
    (hstep : ∀ b, ∀ a ∈ xs, Q b → Yields (step b a) Q) (hb : Q b) :
    Yields (xs.foldlM step b) Q := by
  induction xs generalizing b with
  | nil => exact yields_ok hb
  | cons a xs ih =>
    rw [List.foldlM_cons]
    apply (hstep b a List.mem_cons_self hb).bind
    intro b' hb'
    exact ih (fun b a ha => hstep b a (List.mem_cons_of_mem _ ha)) hb'

/-- What holds of the answer of each item holds of all answers. -/
theorem yields_mapM {xs : List α} {f : α → Checked β} (h : ∀ a ∈ xs, Yields (f a) Q) :
    Yields (xs.mapM f) fun ys => ∀ y ∈ ys, Q y := by
  induction xs with
  | nil => exact yields_ok fun y hy => absurd hy List.not_mem_nil
  | cons a xs ih =>
    obtain ⟨ha, hxs⟩ := List.forall_mem_cons.mp h
    rw [List.mapM_cons]
    apply ha.bind
    intro y hy
    apply (ih hxs).bind
    intro ys hys
    exact yields_ok (List.forall_mem_cons.mpr ⟨hy, hys⟩)

theorem yields_filterMapM {xs : List α} {f : α → Checked (Option β)}
    (h : ∀ a ∈ xs, Yields (f a) fun y => ∀ b, y = some b → Q b) :
    Yields (xs.filterMapM f) fun ys => ∀ y ∈ ys, Q y := by
  induction xs with
  | nil => exact yields_ok fun y hy => absurd hy List.not_mem_nil
  | cons a xs ih =>
    obtain ⟨ha, hxs⟩ := List.forall_mem_cons.mp h
    rw [List.filterMapM_cons]
    apply ha.bind
    intro y hy
    cases y with
    | none => exact ih hxs
    | some b =>
      apply (ih hxs).bind
      intro ys hys
      exact yields_ok (List.forall_mem_cons.mpr ⟨hy b rfl, hys⟩)

/-- A filter whose test answers on every item keeps some of the items. -/
theorem yields_filterM {xs : List α} {f : α → Checked Bool}
    (h : ∀ a ∈ xs, Yields (f a) fun _ => True) :
    Yields (xs.filterM f) fun ys => ∀ y ∈ ys, y ∈ xs := by
  have haux : ∀ acc, Yields (xs.filterAuxM f acc) fun _ => True := by
    induction xs with
    | nil => exact fun acc => yields_ok trivial
    | cons a xs ih =>
      obtain ⟨ha, hxs⟩ := List.forall_mem_cons.mp h
      exact fun acc => ha.bind fun b _ => ih hxs _
  obtain ⟨ys, hys, -⟩ := (haux []).bind fun ys _ => yields_ok (P := fun _ => True)
    (a := ys.reverse) trivial
  refine ⟨ys, hys, fun y hy => ?_⟩
  rw [filterM_eq_ok hys] at hy
  exact (List.mem_filter.mp hy).1

end Checked

namespace Amount
open Checked
variable {a b : Amount} {i : Int} {fault : Fault}

/-- Whether an integer is the value of an amount. -/
def Fits (i : Int) : Prop :=
  -170141183460469231731687303715884105728 ≤ i ∧ i < 170141183460469231731687303715884105728

instance : Decidable (Fits i) := inferInstanceAs (Decidable (_ ∧ _))

theorem ofInt?_of_fits (h : Fits i) : ∃ a, ofInt? i = some a ∧ a.toInt = i :=
  ⟨⟨i, h.1, h.2⟩, ofInt?_eq_some_iff.mpr rfl, rfl⟩

theorem ofInt?_eq_none_iff : ofInt? i = none ↔ ¬Fits i := dite_eq_right_iff.trans (by simp [Fits])

theorem yields_fit (h : Fits i) : Yields (fit fault i) fun a => a.toInt = i :=
  ⟨⟨i, h.1, h.2⟩, fit_eq_ok_iff.mpr rfl, rfl⟩

theorem yields_add (h : Fits (a.toInt + b.toInt)) :
    Yields (a.add b) fun c => c.toInt = a.toInt + b.toInt := yields_fit h

theorem yields_sub (h : Fits (a.toInt - b.toInt)) :
    Yields (a.sub b) fun c => c.toInt = a.toInt - b.toInt := yields_fit h

theorem yields_mul (h : Fits (a.toInt * b.toInt)) :
    Yields (a.mul b) fun c => c.toInt = a.toInt * b.toInt := yields_fit h

theorem toInt_micro : micro.toInt = 1000000 := rfl

theorem toInt_atto : atto.toInt = 1000000000000000000 := rfl

/-- A quotient rounded toward zero: a share of the magnitude, with the sign or zero. -/
structure Truncates (a : Int) (n : Nat) (q : Int) : Prop where
  natAbs_eq : q.natAbs = a.natAbs / n
  nonneg : 0 ≤ a → 0 ≤ q
  nonpos : a ≤ 0 → q ≤ 0

theorem truncates_tdiv {n : Int} (hn : 0 < n) : Truncates i n.natAbs (i.tdiv n) where
  natAbs_eq := Int.natAbs_tdiv i n
  nonneg h := Int.tdiv_nonneg h (Int.le_of_lt hn)
  nonpos h := by
    have hneg := Int.tdiv_nonneg (Int.neg_nonneg_of_nonpos h) (Int.le_of_lt hn)
    rw [Int.neg_tdiv] at hneg
    omega

/-- The quotient by a positive amount stays in the range. -/
theorem yields_div (h : 0 < b) :
    Yields (a.div b) fun c => Truncates a.toInt b.toInt.natAbs c.toInt := by
  rw [lt_iff, toInt_zero] at h
  have hne : b ≠ 0 := fun he => by simp [he] at h
  have ht : Truncates a.toInt b.toInt.natAbs (a.toInt.tdiv b.toInt) := truncates_tdiv h
  have hle : (a.toInt.tdiv b.toInt).natAbs ≤ a.toInt.natAbs :=
    ht.natAbs_eq ▸ Nat.div_le_self _ _
  have hnonpos := ht.nonpos
  have hlow := a.lower
  have hhigh := a.upper
  unfold div
  rw [if_neg hne]
  apply (yields_fit ⟨by omega, by omega⟩).mono
  rintro c hc
  rwa [hc]

theorem div_eq_ok_iff (h : b ≠ 0) : a.div b = .ok c ↔ c.toInt = a.toInt.tdiv b.toInt := by
  rw [div, if_neg h]
  exact fit_eq_ok_iff

theorem dropMicro_eq_ok_iff : a.dropMicro = .ok b ↔ b.toInt = a.toInt.tdiv 1000000 :=
  div_eq_ok_iff (by decide)

theorem yields_dropMicro (a : Amount) :
    Yields a.dropMicro fun b => Truncates a.toInt 1000000 b.toInt := yields_div (by decide)

theorem yields_dropAtto (a : Amount) :
    Yields a.dropAtto fun b => Truncates a.toInt 1000000000000000000 b.toInt :=
  yields_div (by decide)

theorem toInt_min (a b : Amount) : (min a b).toInt = min a.toInt b.toInt := by
  show (if a ≤ b then a else b).toInt = _
  split
  next h => rw [Int.min_eq_left h]
  next h => rw [Int.min_eq_right (by rw [le_iff] at h; omega)]

theorem toInt_max (a b : Amount) : (max a b).toInt = max a.toInt b.toInt := by
  show (if a ≤ b then b else a).toInt = _
  split
  next h => rw [Int.max_eq_right h]
  next h => rw [Int.max_eq_left (by rw [le_iff] at h; omega)]

theorem ne_least_iff : a ≠ least ↔ -170141183460469231731687303715884105728 < a.toInt := by
  have hlow := a.lower
  have hleast : least.toInt = -170141183460469231731687303715884105728 := rfl
  rw [Ne, eq_iff, hleast]
  omega

theorem toInt_satAbs (a : Amount) :
    a.satAbs.toInt = min (a.toInt.natAbs : Int) 170141183460469231731687303715884105727 := by
  rw [satAbs, toInt_clamp]
  omega

theorem yields_abs (h : a ≠ least) : Yields a.abs fun b => b.toInt = a.toInt.natAbs := by
  have hlow := ne_least_iff.mp h
  have hhigh := a.upper
  exact ⟨⟨a.toInt.natAbs, by omega, by omega⟩, abs_eq_ok.mpr rfl, rfl⟩

theorem yields_minAbs (ha : a ≠ least) (hb : b ≠ least) :
    Yields (a.minAbs b) fun c => c.toInt = min (a.toInt.natAbs : Int) b.toInt.natAbs := by
  have hok : Yields (a.minAbs b) fun _ => True :=
    (yields_abs ha).bind fun _ _ => (yields_abs hb).bind fun _ _ => yields_ok trivial
  rcases hok with ⟨c, hc, -⟩
  exact ⟨c, hc, minAbs_eq_ok hc⟩

end Amount
end PerpExchange
