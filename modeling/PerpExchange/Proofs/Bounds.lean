import PerpExchange.Proofs.Ranges
import PerpExchange.Proofs.Reachable

/-! Fills that have the sign of the size and lie within it, and how fills of an order add up. -/
namespace PerpExchange

namespace Order

/-- What is left to fill, counted in the direction of the order. -/
def remaining (o : Order) : Int := (o.size.toInt - o.filled.toInt) * o.side.sign.toInt

/-- A fill that has the sign of the size and lies within it. -/
structure InBounds (o : Order) : Prop where
  side_eq : o.side = Side.of o.size
  fill_nonneg : 0 ≤ o.filled.toInt * o.side.sign.toInt
  fill_le : o.filled.toInt * o.side.sign.toInt ≤ o.size.toInt.natAbs

theorem side_eq_of_size {o : Order} : o.side = Side.of o.size ↔
    (o.side = .long ∧ 0 ≤ o.size.toInt) ∨ (o.side = .short ∧ o.size.toInt < 0) := by
  unfold Side.of
  by_cases hlt : o.size < 0
  · have hlt' : o.size.toInt < 0 := hlt
    cases o.side <;> simp [hlt, hlt']
  · have hlt' : ¬ o.size.toInt < 0 := hlt
    cases o.side <;> simp [hlt, hlt', Int.not_lt.mp hlt']

theorem inBounds_iff {o : Order} : o.InBounds ↔
    (o.side = .long ∧ 0 ≤ o.filled.toInt ∧ o.filled.toInt ≤ o.size.toInt) ∨
      (o.side = .short ∧ o.size.toInt < 0 ∧ o.filled.toInt ≤ 0 ∧
        o.size.toInt ≤ o.filled.toInt) := by
  constructor
  · rintro ⟨hs, h0, hle⟩
    rcases side_eq_of_size.mp hs with ⟨hl, hz⟩ | ⟨hl, hz⟩ <;>
      simp only [hl, Side.toInt_sign_long, Side.toInt_sign_short] at h0 hle
    · exact .inl ⟨hl, by omega, by omega⟩
    · exact .inr ⟨hl, hz, by omega, by omega⟩
  · rintro (⟨hl, h0, hle⟩ | ⟨hl, hz, h0, hle⟩)
    · refine ⟨side_eq_of_size.mpr (.inl ⟨hl, by omega⟩), ?_, ?_⟩ <;>
        simp only [hl, Side.toInt_sign_long] <;> omega
    · refine ⟨side_eq_of_size.mpr (.inr ⟨hl, hz⟩), ?_, ?_⟩ <;>
        simp only [hl, Side.toInt_sign_short] <;> omega

theorem InBounds.remaining_nonneg {o : Order} (h : o.InBounds) : 0 ≤ o.remaining := by
  unfold remaining
  rcases inBounds_iff.mp h with ⟨hl, h0, hle⟩ | ⟨hl, hz, h0, hle⟩ <;>
    simp only [hl, Side.toInt_sign_long, Side.toInt_sign_short] <;> omega

theorem InBounds.yields_unfilled {o : Order} (h : o.InBounds) :
    Checked.Yields o.unfilled fun a => a.toInt = o.size.toInt - o.filled.toInt := by
  have hlow := o.size.lower
  have hhigh := o.size.upper
  rcases inBounds_iff.mp h with ⟨-, h0, hle⟩ | ⟨-, hz, h0, hle⟩
  · exact Amount.yields_sub ⟨by omega, by omega⟩
  · exact Amount.yields_sub ⟨by omega, by omega⟩

/-- In bounds, a fill is none or has the sign of the size. -/
theorem InBounds.filled_eq_zero_or {o : Order} (h : o.InBounds) :
    o.filled = 0 ∨ o.filled.signum = o.size.signum := by
  rw [Amount.eq_iff, Amount.signum_eq_iff, Amount.toInt_zero]
  rcases inBounds_iff.mp h with ⟨-, h0, hle⟩ | ⟨-, hz, h0, hle⟩ <;> omega

/-- In bounds, a fill is as far from none as it is counted in the direction of the order. -/
theorem InBounds.natAbs_filled {o : Order} (h : o.InBounds) :
    (o.filled.toInt.natAbs : Int) = o.filled.toInt * o.side.sign.toInt := by
  have hnonneg := h.fill_nonneg
  cases hl : o.side <;>
    simp only [hl, Side.toInt_sign_long, Side.toInt_sign_short] at hnonneg ⊢ <;> omega

theorem InBounds.natAbs_filled_le {o : Order} (h : o.InBounds) :
    o.filled.toInt.natAbs ≤ o.size.toInt.natAbs := by
  have hle := h.fill_le
  rw [← h.natAbs_filled] at hle
  omega

theorem InBounds.filled_eq_size_iff {o : Order} (h : o.InBounds) :
    o.filled = o.size ↔ o.filled.toInt.natAbs = o.size.toInt.natAbs := by
  rw [Amount.eq_iff]
  rcases inBounds_iff.mp h with ⟨-, h0, hle⟩ | ⟨-, hz, h0, hle⟩ <;> omega

theorem natAbs_unfilled {o : Order} (h : 0 ≤ o.remaining) :
    ((o.size.toInt - o.filled.toInt).natAbs : Int) = o.remaining := by
  unfold remaining at h ⊢
  cases hs : o.side <;> simp only [hs, Side.toInt_sign_long, Side.toInt_sign_short] at h ⊢ <;> omega

theorem natAbs_of_unfilled {o : Order} {a : Amount} (h : 0 ≤ o.remaining)
    (ha : o.unfilled = .ok a) : (a.toInt.natAbs : Int) = o.remaining := by
  rw [Amount.sub_eq_ok_iff.mp ha, natAbs_unfilled h]

theorem remaining_fill {o : Order} {filled : Amount} {fill : Int}
    (h : filled.toInt = o.filled.toInt + fill * o.side.sign.toInt) :
    ({ o with filled } : Order).remaining = o.remaining - fill := by
  show (o.size.toInt - filled.toInt) * o.side.sign.toInt = o.remaining - fill
  rw [h, remaining]
  cases o.side <;> simp only [Side.toInt_sign_long, Side.toInt_sign_short] <;> omega

/-- A fill that is kept within the size is in bounds. -/
theorem inBounds_clampFill {o : Order} {fill : Amount} {lifecycle : List Lifecycle}
    (hs : o.side = Side.of o.size) :
    ({ o with filled := (o.clampFill fill).1, lifecycle } : Order).InBounds := by
  rw [inBounds_iff]
  simp only
  have hfill : 0 ≤ (o.clampFill fill).1.toInt ∧ (o.clampFill fill).1.toInt ≤ o.size.toInt ∨
      (o.clampFill fill).1.toInt ≤ 0 ∧ o.size.toInt ≤ (o.clampFill fill).1.toInt := by
    unfold clampFill
    split
    next hlarge => dsimp only; omega
    next hlarge =>
      split
      next hsign => dsimp only; rw [Amount.toInt_zero]; omega
      next hsign =>
        rw [not_and_or, not_not, not_not, Amount.eq_iff, Amount.signum_eq_iff,
          Amount.toInt_zero] at hsign
        dsimp only
        omega
  rcases side_eq_of_size.mp hs with ⟨hl, hz⟩ | ⟨hl, hz⟩
  · exact .inl ⟨hl, by omega, by omega⟩
  · exact .inr ⟨hl, hz, by omega, by omega⟩

/-- A change of the fill that keeps it between nothing and the size is made as it is. -/
theorem fillBy?_eq_some {o : Order} {delta : Amount} (block : BlockNumber) (h : o.InBounds)
    (hlow : -(o.filled.toInt * o.side.sign.toInt) ≤ delta.toInt) (hhigh : delta.toInt ≤ o.remaining)
    (hmin : delta ≠ Amount.least) :
    ∃ f : Amount, f.toInt = o.filled.toInt + delta.toInt * o.side.sign.toInt ∧
      o.fillBy? delta block =
        some ({ o with filled := f, lifecycle := o.lifecycleAfterFill delta f block }, false) := by
  have hmin' : delta.toInt ≠ -170141183460469231731687303715884105728 := fun h =>
    hmin (Amount.ext_toInt h)
  have hd := delta.lower
  have hd' := delta.upper
  have hs := o.size.lower
  have hs' := o.size.upper
  obtain ⟨d, hd₁, hd₂⟩ : ∃ d, delta.mul? o.side.sign = some d ∧
      d.toInt = delta.toInt * o.side.sign.toInt := by
    have hfits : -170141183460469231731687303715884105728 ≤ delta.toInt * o.side.sign.toInt ∧
        delta.toInt * o.side.sign.toInt < 170141183460469231731687303715884105728 := by
      cases o.side <;> simp only [Side.toInt_sign_long, Side.toInt_sign_short] <;> omega
    exact ⟨⟨_, hfits.1, hfits.2⟩, dif_pos hfits, rfl⟩
  unfold remaining at hhigh
  have hbetween : 0 ≤ o.filled.toInt + d.toInt ∧ o.filled.toInt + d.toInt ≤ o.size.toInt ∨
      o.filled.toInt + d.toInt ≤ 0 ∧ o.size.toInt ≤ o.filled.toInt + d.toInt := by
    rcases inBounds_iff.mp h with ⟨hl, h0, hle⟩ | ⟨hl, hz, h0, hle⟩ <;>
      simp only [hl, Side.toInt_sign_long, Side.toInt_sign_short] at hlow hhigh hd₂ <;> omega
  obtain ⟨f, hf₁, hf₂⟩ : ∃ f, o.filled.add? d = some f ∧ f.toInt = o.filled.toInt + d.toInt := by
    have hfits : -170141183460469231731687303715884105728 ≤ o.filled.toInt + d.toInt ∧
        o.filled.toInt + d.toInt < 170141183460469231731687303715884105728 := by omega
    exact ⟨⟨_, hfits.1, hfits.2⟩, dif_pos hfits, rfl⟩
  have hclamp : o.clampFill f = (f, false) := by
    unfold clampFill
    rw [if_neg (by omega), if_neg]
    rw [not_and_or, not_not, not_not, Amount.eq_iff, Amount.signum_eq_iff, Amount.toInt_zero]
    omega
  refine ⟨f, by rw [hf₂, hd₂], ?_⟩
  simp only [fillBy?, hd₁, hf₁, hclamp, Option.bind_eq_bind, Option.bind_some, Option.pure_def]

theorem inBounds_place (id : Hash) (raw : RawOrder) (block : BlockNumber) :
    (Order.place id raw block).InBounds :=
  ⟨rfl, by simp [Order.place], by simp [Order.place]⟩

end Order

namespace Store

/-- Every stored order has a fill that has the sign of its size and lies within it. -/
def InBounds (s : Store) : Prop := ∀ {id : Hash} {o : Order}, s.orders[id]? = some o → o.InBounds

theorem inBounds_empty : empty.InBounds := fun h => by simp [empty] at h

theorem InBounds.add {s : Store} {o : Order} (h : s.InBounds) (ho : o.InBounds) :
    (s.add o).InBounds := by
  intro id p hp
  have hp : (s.orders.insert o.id o)[id]? = some p := hp
  rw [Map.getElem?_insert_key] at hp
  split at hp
  next => cases hp; exact ho
  next => exact h hp

end Store
end PerpExchange
