import PerpExchange.Proofs.Bounds
import PerpExchange.Proofs.Ranges

/-! What a change of the fill makes of an order. Counted in the direction of the order, the new fill
is the old one and the change, brought back to the range from nothing to the whole size, unless so
much is taken back that the sum lies further below nothing than the size: then the order is full. -/
namespace PerpExchange

namespace Order
variable {o : Order} {fill delta : Amount} {block : BlockNumber}

/-- A fill that is no further on the wrong side than the size is brought back to the range from none
to the size. -/
theorem clampFill_of_le (hs : o.side = Side.of o.size)
    (hlow : -(o.size.toInt.natAbs : Int) ≤ fill.toInt * o.side.sign.toInt) :
    (o.clampFill fill).1.toInt * o.side.sign.toInt =
      min (o.size.toInt.natAbs : Int) (max 0 (fill.toInt * o.side.sign.toInt)) := by
  unfold clampFill
  rcases side_eq_of_size.mp hs with ⟨hl, hz⟩ | ⟨hl, hz⟩ <;>
    simp only [hl, Side.toInt_sign_long, Side.toInt_sign_short] at hlow ⊢
  all_goals
    split
    next hlarge => dsimp only; omega
    next hlarge =>
      simp only [ne_eq, Amount.signum_eq_iff]
      simp only [Amount.eq_iff, Amount.toInt_zero]
      split <;> simp only [Amount.toInt_zero] <;> omega

/-- A fill further on the wrong side than the size is taken for one that is too large. -/
theorem clampFill_of_lt
    (hlow : fill.toInt * o.side.sign.toInt < -(o.size.toInt.natAbs : Int)) :
    (o.clampFill fill).1 = o.size := by
  have hlarge : o.size.toInt.natAbs < fill.toInt.natAbs := by
    cases hl : o.side <;>
      simp only [hl, Side.toInt_sign_long, Side.toInt_sign_short] at hlow <;> omega
  unfold clampFill
  rw [if_pos hlarge]

/-- A change whose product with the side, and whose sum with the fill, stay in the range is made. -/
theorem fillBy?_of_fits (block : BlockNumber)
    (hmul : Amount.Fits (delta.toInt * o.side.sign.toInt))
    (hadd : Amount.Fits (o.filled.toInt + delta.toInt * o.side.sign.toInt)) :
    ∃ f : Amount, f.toInt = o.filled.toInt + delta.toInt * o.side.sign.toInt ∧
      o.fillBy? delta block = some ({ o with
        filled := (o.clampFill f).1
        lifecycle := o.lifecycleAfterFill delta (o.clampFill f).1 block }, (o.clampFill f).2) := by
  obtain ⟨d, hd, hd'⟩ := Amount.ofInt?_of_fits hmul
  obtain ⟨f, hf, hf'⟩ := Amount.ofInt?_of_fits (hd' ▸ hadd)
  refine ⟨f, by rw [hf', hd'], ?_⟩
  simp only [fillBy?, Amount.mul?, hd, Amount.add?, hf, Option.bind_eq_bind, Option.bind_some,
    Option.pure_def]

/-- What a change of the fill does to the lifecycle, by the magnitude of the new fill. -/
theorem lifecycleAfterFill_eq (h : ({ o with filled := fill } : Order).InBounds) :
    o.lifecycleAfterFill delta fill block =
      if 0 < delta ∧ fill.toInt.natAbs = o.size.toInt.natAbs ∧ o.hasStatus .filled = false then
        o.lifecycle ++ [⟨block, .filled, ""⟩]
      else if delta < 0 ∧ o.hasStatus .filled = true then o.lifecycle.dropLast
      else o.lifecycle := by
  have hfull : fill = o.size ↔ fill.toInt.natAbs = o.size.toInt.natAbs := h.filled_eq_size_iff
  unfold lifecycleAfterFill
  simp only [hfull, Amount.lt_iff, Amount.toInt_zero]
  by_cases hneg : delta.toInt < 0
  · have hpos : ¬0 < delta.toInt := by omega
    simp [hneg, hpos]
  · cases o.hasStatus .filled <;> simp [hneg]

end Order

namespace Store
variable {s : Store} {id : Hash} {o : Order} {delta : Amount}

/-- A change of a fill that stays in the range touches the fill and the lifecycle of one order. The
new fill is the sum brought back to the range from none to the size exactly if the sum lies no
further below none than the size, and else it is the whole size. Completing an order begins the
status of a filled one, and taking back from a filled order ends its current status. -/
theorem fill_change (block : BlockNumber) (ho : s.orders[id]? = some o) (hb : o.InBounds)
    (hmul : Amount.Fits (delta.toInt * o.side.sign.toInt))
    (hadd : Amount.Fits (o.filled.toInt + delta.toInt * o.side.sign.toInt)) :
    ∃ p : Order, (s.fill delta id block).1 = { s with orders := s.orders.insert id p } ∧
      p = { o with filled := p.filled, lifecycle := p.lifecycle } ∧
      0 ≤ p.filled.toInt * o.side.sign.toInt ∧
      ((p.filled.toInt.natAbs : Int) =
          min (o.size.toInt.natAbs : Int) (max 0 (o.filled.toInt.natAbs + delta.toInt)) ↔
        o.size = 0 ∨ -(o.size.toInt.natAbs : Int) ≤ o.filled.toInt.natAbs + delta.toInt) ∧
      (o.filled.toInt.natAbs + delta.toInt < -(o.size.toInt.natAbs : Int) → p.filled = o.size) ∧
      (0 ≤ delta → o.filled.toInt.natAbs ≤ p.filled.toInt.natAbs) ∧
      (delta ≤ 0 → -(o.size.toInt.natAbs : Int) ≤ o.filled.toInt.natAbs + delta.toInt →
        p.filled.toInt.natAbs ≤ o.filled.toInt.natAbs) ∧
      p.lifecycle =
        if 0 < delta ∧ p.filled.toInt.natAbs = o.size.toInt.natAbs ∧
            o.hasStatus .filled = false then
          o.lifecycle ++ [⟨block, .filled, ""⟩]
        else if delta < 0 ∧ o.hasStatus .filled = true then o.lifecycle.dropLast
        else o.lifecycle := by
  obtain ⟨f, hf, hfill⟩ := Order.fillBy?_of_fits block hmul hadd
  let p : Order := { o with
    filled := (o.clampFill f).1
    lifecycle := o.lifecycleAfterFill delta (o.clampFill f).1 block }
  have hp : p.InBounds := Order.inBounds_clampFill hb.side_eq
  have hm := hb.natAbs_filled
  have hm' : (p.filled.toInt.natAbs : Int) = p.filled.toInt * o.side.sign.toInt := hp.natAbs_filled
  -- the fill that is asked for, counted in the direction of the order
  have hasked : f.toInt * o.side.sign.toInt = o.filled.toInt.natAbs + delta.toInt := by
    rw [hf, hm]
    cases o.side <;> simp only [Side.toInt_sign_long, Side.toInt_sign_short] <;> omega
  have hlow : -(o.size.toInt.natAbs : Int) ≤ o.filled.toInt.natAbs + delta.toInt →
      (p.filled.toInt.natAbs : Int) =
        min (o.size.toInt.natAbs : Int) (max 0 (o.filled.toInt.natAbs + delta.toInt)) := by
    intro h
    rw [hm', ← hasked]
    exact Order.clampFill_of_le hb.side_eq (hasked ▸ h)
  have hfar : o.filled.toInt.natAbs + delta.toInt < -(o.size.toInt.natAbs : Int) →
      p.filled = o.size := fun h => Order.clampFill_of_lt (hasked ▸ h)
  have hsize := hb.natAbs_filled_le
  refine ⟨p, ?_, rfl, hp.fill_nonneg, ?_, hfar, ?_, ?_, Order.lifecycleAfterFill_eq ?_⟩
  · simp only [Store.fill, ho, hfill]
    rfl
  · rw [Amount.eq_iff, Amount.toInt_zero]
    by_cases h : -(o.size.toInt.natAbs : Int) ≤ o.filled.toInt.natAbs + delta.toInt
    · exact iff_of_true (hlow h) (.inr h)
    · rw [hfar (by omega)]
      omega
  · intro h
    rw [Amount.le_iff, Amount.toInt_zero] at h
    have hlow := hlow (by omega)
    omega
  · intro h hle
    rw [Amount.le_iff, Amount.toInt_zero] at h
    have hlow := hlow hle
    omega
  · exact @Order.inBounds_clampFill o f o.lifecycle hb.side_eq

/-- An order placed at block one, part of it filled. -/
def restingOrder (size filled : Amount) : Order :=
  { Order.place default (.limit ⟨⟨0, Bytes.ofWord 20 1, size, 20000000, 1, false⟩, false⟩) 1 with
    filled }

/-- An offer of ten units, three of them filled, is filled by twenty more. -/
theorem fill_change_of_overfilled :
    let offer := restingOrder (.clamp (-10)) (.clamp (-3))
    ∃ p : Order, ((empty.add offer).fill 20 default 4).1 =
        { empty.add offer with orders := (empty.add offer).orders.insert default p } ∧
      p = { offer with
        filled := .clamp (-10)
        lifecycle := [⟨1, .placed, ""⟩, ⟨4, .filled, ""⟩] } := by
  intro offer
  have ho : (empty.add offer).orders[(default : Hash)]? = some offer := by decide +kernel
  have hb : offer.InBounds := Order.inBounds_iff.mpr (.inr (by decide))
  have hmul : Amount.Fits ((20 : Amount).toInt * offer.side.sign.toInt) := by decide
  obtain ⟨p, hs, hp, hnonneg, hmagnitude, -, -, -, hlifecycle⟩ :=
    fill_change 4 ho hb hmul (by decide)
  refine ⟨p, hs, ?_⟩
  have hten : p.filled.toInt.natAbs = 10 := Int.ofNat.inj (hmagnitude.mpr (.inr (by decide)))
  have hfilled : p.filled = .clamp (-10) := by
    rw [Amount.eq_iff]
    have hnonneg : 0 ≤ p.filled.toInt * -1 := hnonneg
    show p.filled.toInt = -10
    omega
  rw [if_pos ⟨by decide, hten, by decide⟩] at hlifecycle
  rw [hp, hfilled, hlifecycle]
  rfl

/-- So much may be taken back from an order that it counts as full. Five of ten units are filled,
and twenty are taken back. -/
theorem fill_raised_by_taking_back :
    let bid := restingOrder 10 5
    (empty.add bid).orders[(default : Hash)]? = some bid ∧ bid.InBounds ∧
      Amount.Fits (-20 * bid.side.sign.toInt) ∧
      Amount.Fits (bid.filled.toInt + -20 * bid.side.sign.toInt) ∧
      min (bid.size.toInt.natAbs : Int) (max 0 (bid.filled.toInt.natAbs + -20)) = 0 ∧
      (((empty.add bid).fill (.clamp (-20)) default 3).1.orders[(default : Hash)]?).map
        (fun p => p.filled) = some 10 :=
  ⟨by decide +kernel, Order.inBounds_iff.mpr (.inl (by decide)), by decide, by decide, by decide,
    by decide +kernel⟩

end Store
end PerpExchange
