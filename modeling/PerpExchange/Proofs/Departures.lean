import PerpExchange.Matching.Crossing
import PerpExchange.Proofs.Survivors

/-! What the orders that leave when a block is accepted could still have traded with. One that
trades at once has nothing left to trade with; a signed order leaves all the same while newer orders
may take from it. -/
namespace PerpExchange

namespace Order
variable {o p : Order}

/-- Whether the times of an order and one on the other side let them trade. -/
def timely (o p : Order) : Bool :=
  match o.side with
  | .long => canCrossInTime o p
  | .short => canCrossInTime p o

/-- From an older order a newer one may take, unless the older trades only when it arrives or the
newer only rests. -/
theorem timely_of_older (h : o.block < p.block) : o.timely p = (!o.isIoc && !p.isPostOnly) := by
  have hnot : ¬ p.block < o.block := fun h' => absurd (UInt64.lt_trans h h') (UInt64.lt_irrefl _)
  unfold timely canCrossInTime
  cases o.side with
  | long => simp only [if_pos h]
  | short => simp only [if_pos h, if_neg hnot]

end Order

namespace Store
variable {s : Store} {accepted : BlockNumber} {time : Timestamp} {id id' : Hash} {o p : Order}

/-- An order that leaves without having ended or expired has to be matched, and every order that
stays and crosses it is newer. -/
theorem Indexed.of_departed (h : s.Indexed) (ho : s.orders[id]? = some o)
    (hgone : (s.accept accepted time).1.orders[id]? = none)
    (hstays : o.acceptDecision accepted time ≠ .remove) :
    (o.kind = .ioc ∨ o.kind = .signed) ∧ o.block ≤ accepted ∧
      ∀ (id' : Hash) (p : Order), (s.accept accepted time).1.orders[id']? = some p →
        p.market = o.market → p.side ≠ o.side → Book.crosses o p.price = true →
          o.block < p.block := by
  have hnot : ¬ Survives s.orders accepted time id := by
    intro hs
    have ho' := (h.accept_orders accepted time).mpr ⟨ho, hs⟩
    rw [hgone] at ho'
    cases ho'
  have hkeep : ¬ (o.kind = .limit ∨ accepted < o.block) := fun hk =>
    hnot (survives_of_keep ho (Order.acceptDecision_eq_keep.mpr ⟨hstays, hk⟩))
  rw [not_or, UInt64.not_lt] at hkeep
  refine ⟨Order.kind_ne_limit.mp hkeep.1, hkeep.2, ?_⟩
  intro id' p hp hm hs hcross
  obtain ⟨hp, hsurvives⟩ := (h.accept_orders accepted time).mp hp
  by_contra hblock
  exact hnot (hsurvives.of_backs hp ⟨hm, hs, hcross, UInt64.not_lt.mp hblock⟩ ho hstays)

/-- An order that leaves at acceptance, though it has neither ended by the block nor expired, is one
that has to be matched and was placed by then. Every order that stays, on the other side of its
market, and crosses its price, is newer. So none of them may trade with it if it trades at once;
with a signed order just those may that are not post-only. -/
theorem departed_trades_iff_signed (h : s.Reachable) (ho : s.orders[id]? = some o)
    (hgone : (s.accept accepted time).1.orders[id]? = none)
    (hstanding : ∀ l ∈ o.lifecycle, l.block ≤ accepted → l.status ≠ .filled ∧ l.status ≠ .cancelled)
    (hexpiry : o.isExpired time = false) :
    (o.kind = .ioc ∨ o.kind = .signed) ∧ o.block ≤ accepted ∧
      ∀ (id' : Hash) (p : Order), (s.accept accepted time).1.orders[id']? = some p →
        p.market = o.market → p.side ≠ o.side → Book.crosses o p.price = true →
          o.block < p.block ∧ (o.timely p = true ↔ o.kind = .signed ∧ p.isPostOnly = false) := by
  have hstays := Order.acceptDecision_ne_remove.mpr ⟨hstanding, fun _ => hexpiry⟩
  obtain ⟨hk, hblock, hnewer⟩ := h.indexed.of_departed ho hgone hstays
  refine ⟨hk, hblock, fun id' p hp hm hs hcross => ?_⟩
  have hlt := hnewer id' p hp hm hs hcross
  refine ⟨hlt, ?_⟩
  rw [Order.timely_of_older hlt]
  rcases hk with hk | hk <;> simp [Order.isIoc, hk]

/-- A limit order at the second block that is short of one unit. -/
def newerShort : Order :=
  .place (Bytes.ofWord 32 1) (.limit { (default : LimitOrder) with size := Side.short.sign }) 2

/-- An order at the first block, and that one. -/
def outrun (raw : RawOrder) : Store := (empty.add (.place default raw 1)).add newerShort

section
variable (raw : RawOrder)

theorem reachable_outrun : (outrun raw).Reachable := (Reachable.empty.add _).add _

theorem getElem?_outrun (id : Hash) : (outrun raw).orders[id]? =
    if newerShort.id = id then some newerShort
    else if default = id then some (.place default raw 1) else none := by
  have hempty : (empty.orders : Map Hash Order)[id]? = none := Std.ExtTreeMap.getElem?_empty
  simp only [outrun, Store.add]
  rw [Map.getElem?_insert_key, Map.getElem?_insert_key, hempty]
  rfl

theorem older_outrun : (outrun raw).orders[(default : Hash)]? = some (.place default raw 1) := by
  have hne : newerShort.id ≠ default := by decide
  rw [getElem?_outrun, if_neg hne, if_pos rfl]

/-- If the older order has to be matched it leaves, and the newer stays. -/
theorem accept_outrun (accepted : BlockNumber) (time : Timestamp)
    (hkeep : (Order.place default raw 1).acceptDecision accepted time = .keepIfMatcheable) :
    ((outrun raw).accept accepted time).1.orders[(default : Hash)]? = none ∧
      ((outrun raw).accept accepted time).1.orders[newerShort.id]? = some newerShort := by
  have hi := (reachable_outrun raw).indexed
  constructor
  · rw [Option.eq_none_iff_forall_ne_some]
    rintro o hstays
    obtain ⟨ho, K, hK, hid⟩ := (hi.accept_orders accepted time).mp hstays
    obtain ⟨o', ho', -, hbacked⟩ := hK _ hid
    cases ((older_outrun raw).symm.trans ho')
    obtain ⟨id', p, -, hp, -, hs, -, hblock⟩ := hbacked hkeep
    rw [getElem?_outrun] at hp
    -- The only other order is newer, and an order does not back itself.
    split at hp
    next =>
      cases hp
      exact absurd (show (2 : BlockNumber) ≤ 1 from hblock) (by decide)
    next =>
      split at hp
      next => cases hp; exact hs rfl
      next => cases hp
  · have hp : (outrun raw).orders[newerShort.id]? = some newerShort := by
      rw [getElem?_outrun, if_pos rfl]
    have hstanding : ∀ l ∈ newerShort.lifecycle, l.block ≤ accepted →
        l.status ≠ .filled ∧ l.status ≠ .cancelled := by
      intro l hl _
      cases List.mem_singleton.mp hl
      decide
    have hstays : newerShort.acceptDecision accepted time ≠ .remove :=
      Order.acceptDecision_ne_remove.mpr ⟨hstanding, fun _ => rfl⟩
    exact (hi.accept_orders accepted time).mpr
      ⟨hp, survives_of_keep hp (Order.acceptDecision_eq_keep.mpr ⟨hstays, .inl rfl⟩)⟩

end

/-- An order that trades at once leaves when only a newer order crosses it, which it may not trade
with. -/
theorem outrun_ioc_departs :
    let raw := RawOrder.ioc { (default : IocOrder) with size := Side.long.sign }
    ((outrun raw).accept 5 7).1.orders[(default : Hash)]? = none ∧
      (Order.place default raw 1).timely newerShort = false := by
  intro raw
  obtain ⟨hgone, hnewer⟩ := accept_outrun raw 5 7 (by decide)
  have htrades := (departed_trades_iff_signed (reachable_outrun raw) (older_outrun raw) hgone
    (by decide) (by decide)).2.2 _ _ hnewer (by decide) (by decide) (by decide)
  exact ⟨hgone, Bool.eq_false_iff.mpr fun ht => absurd (htrades.2.mp ht).1 (by decide)⟩

/-- A signed order in its place leaves too, and the newer order could have taken from it. -/
theorem outrun_signed_departs_tradeable :
    let raw := RawOrder.signed { (default : SignedOrder) with size := Side.long.sign }
    let s := outrun raw
    let o := Order.place default raw 1
    s.Reachable ∧ s.orders[(default : Hash)]? = some o ∧
      (s.accept 5 7).1.orders[(default : Hash)]? = none ∧
      (∀ l ∈ o.lifecycle, l.block ≤ 5 → l.status ≠ .filled ∧ l.status ≠ .cancelled) ∧
      o.isExpired 7 = false ∧ (s.accept 5 7).1.orders[newerShort.id]? = some newerShort ∧
      newerShort.market = o.market ∧ newerShort.side ≠ o.side ∧
      Book.crosses o newerShort.price = true ∧ o.timely newerShort = true := by
  intro raw s o
  obtain ⟨hgone, hnewer⟩ := accept_outrun raw 5 7 (by decide)
  exact ⟨reachable_outrun raw, older_outrun raw, hgone, by decide, by decide, hnewer, by decide,
    by decide, by decide, by decide⟩

end Store
end PerpExchange
