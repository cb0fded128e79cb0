import PerpExchange.Order.Raw

/-! When a computation that may stop at a fault answers, and the answers of arithmetic on amounts as
integers. -/
namespace PerpExchange

namespace Checked
variable {α β : Type}

@[simp] theorem pure_eq (a : α) : (pure a : Checked α) = .ok a := rfl

@[simp] theorem ok_bind (a : α) (f : α → Checked β) : ((.ok a : Checked α) >>= f) = f a := rfl

@[simp] theorem error_bind (e : Fault) (f : α → Checked β) :
    ((.error e : Checked α) >>= f) = .error e := rfl

/-- A computation in two steps answers exactly if both do. -/
theorem bind_eq_ok {x : Checked α} {f : α → Checked β} {b : β} :
    x >>= f = .ok b ↔ ∃ a, x = .ok a ∧ f a = .ok b := by
  cases x <;> simp

theorem filterAuxM_eq_ok {f : α → Checked Bool} {xs acc kept : List α}
    (h : xs.filterAuxM f acc = .ok kept) :
    kept = (xs.filter fun x => (f x).toOption.getD false).reverse ++ acc := by
  induction xs generalizing acc with
  | nil =>
    cases h
    rfl
  | cons x xs ih =>
    obtain ⟨b, hb, h⟩ := bind_eq_ok.mp h
    rw [ih h, List.filter_cons, hb]
    cases b <;> simp [Except.toOption]

theorem filterM_eq_ok {f : α → Checked Bool} {xs kept : List α} (h : xs.filterM f = .ok kept) :
    kept = xs.filter fun x => (f x).toOption.getD false := by
  obtain ⟨ys, hy, h⟩ := bind_eq_ok.mp h
  cases h
  rw [filterAuxM_eq_ok hy, List.append_nil, List.reverse_reverse]

theorem filterMapM_eq_ok {f : α → Checked (Option β)} {xs : List α} {ys : List β}
    (h : xs.filterMapM f = .ok ys) : ys = xs.filterMap fun x => (f x).toOption.join := by
  induction xs generalizing ys with
  | nil =>
    cases h
    rfl
  | cons x xs ih =>
    rw [List.filterMapM_cons] at h
    obtain ⟨y, hy, h⟩ := bind_eq_ok.mp h
    cases y with
    | none => simp [ih h, hy, Except.toOption]
    | some y =>
      obtain ⟨ys', hys, h⟩ := bind_eq_ok.mp h
      cases h
      simp [ih hys, hy, Except.toOption]

end Checked

namespace Amount
variable {a b c : Amount}

@[simp] theorem toInt_zero : (0 : Amount).toInt = 0 := rfl

theorem le_iff : a ≤ b ↔ a.toInt ≤ b.toInt := Iff.rfl

theorem lt_iff : a < b ↔ a.toInt < b.toInt := Iff.rfl

theorem eq_iff : a = b ↔ a.toInt = b.toInt := ⟨fun h => h ▸ rfl, ext_toInt⟩

theorem toInt_signum : a.signum.toInt = a.toInt.sign := by
  rw [signum, toInt_clamp]
  rcases Int.sign_trichotomy a.toInt with h | h | h <;> rw [h] <;> rfl

theorem signum_eq_iff :
    a.signum = b.signum ↔ (0 < a.toInt ↔ 0 < b.toInt) ∧ (a.toInt < 0 ↔ b.toInt < 0) := by
  rw [eq_iff, toInt_signum, toInt_signum]
  rcases Int.lt_trichotomy a.toInt 0 with ha | ha | ha <;>
    rcases Int.lt_trichotomy b.toInt 0 with hb | hb | hb <;>
    simp [ha, hb, Int.sign_eq_neg_one_of_neg, Int.sign_eq_one_of_pos] <;> omega

/-- Only the least amount has no magnitude. -/
theorem abs_eq_ok : a.abs = .ok b ↔ b.toInt = a.toInt.natAbs := by
  unfold abs
  split
  next h =>
    rw [lt_iff, toInt_zero] at h
    rw [neg_eq_ok_iff]
    omega
  next h =>
    rw [lt_iff, toInt_zero] at h
    rw [Except.ok.injEq, eq_iff]
    omega

theorem minAbs_eq_ok (h : a.minAbs b = .ok c) :
    c.toInt = min (a.toInt.natAbs : Int) b.toInt.natAbs := by
  unfold minAbs at h
  obtain ⟨x, hx, h⟩ := Checked.bind_eq_ok.mp h
  obtain ⟨y, hy, h⟩ := Checked.bind_eq_ok.mp h
  rw [abs_eq_ok] at hx hy
  rw [Checked.pure_eq, Except.ok.injEq] at h
  rw [← h, ← hx, ← hy]
  show (if x ≤ y then x else y).toInt = _
  split
  next hxy => rw [Int.min_eq_left hxy]
  next hxy => rw [Int.min_eq_right (by rw [le_iff] at hxy; omega)]

end Amount

namespace Side

@[simp] theorem toInt_sign_long : Side.long.sign.toInt = 1 := rfl

@[simp] theorem toInt_sign_short : Side.short.sign.toInt = -1 := rfl

end Side
end PerpExchange
