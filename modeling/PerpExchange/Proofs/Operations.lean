import PerpExchange.Proofs.Histories

/-! What every order of a store is like after operations on its orders, in any sequence and under
any ids. -/
namespace PerpExchange

/-- An operation on the orders of a store. Only placed orders are added, also under an id that is
taken. -/
inductive OrderOperation where
  | place (id : Hash) (raw : RawOrder) (block : BlockNumber)
  | delete (id : Hash)
  | fill (delta : Amount) (id : Hash) (block : BlockNumber)
  | setStatus (id : Hash) (l : Lifecycle)
  | revertStatus (id : Hash)
  | accept (block : BlockNumber) (time : Timestamp)

namespace Order
variable {o p : Order}

/-- What the fields of an order say of its terms. -/
def terms (o : Order) : OrderTerms where
  market := o.market
  trader := o.trader
  size := o.size
  price := o.price
  salt := o.salt
  reduceOnly := o.reduceOnly

/-- What an operation can make of an order that stays. -/
inductive Touched (o : Order) : Order → Prop
  | kept : Touched o o
  | pushed (l : Lifecycle) : Touched o (o.pushStatus l)
  | popped : Touched o o.popStatus
  | filled (delta : Amount) (block : BlockNumber) : Touched o (o.fillBy delta block)

theorem fillBy_keeps (o : Order) (delta : Amount) (block : BlockNumber) :
    o.fillBy delta block =
      { o with
        filled := (o.fillBy delta block).filled
        lifecycle := (o.fillBy delta block).lifecycle } := by
  unfold fillBy
  cases h : o.fillBy? delta block with
  | none => rfl
  | some r => exact eq_of_fillBy? h

theorem Touched.eq (h : o.Touched p) :
    p = { o with filled := p.filled, lifecycle := p.lifecycle } := by
  cases h with
  | kept => rfl
  | pushed l => rfl
  | popped => rw [popStatus_eq]
  | filled delta block => exact o.fillBy_keeps delta block

theorem Touched.wellFormed (h : o.Touched p) (ho : o.WellFormed) : p.WellFormed := by
  cases h with
  | kept => exact ho
  | pushed l => exact ho.pushStatus l
  | popped => exact ho.popStatus
  | filled delta block => exact ho.fillBy delta block

/-- A well-formed order with the terms of its raw order. -/
structure Genuine (o : Order) : Prop extends WellFormed o where
  terms_eq : o.terms = o.raw.terms

theorem genuine_place (id : Hash) (raw : RawOrder) (block : BlockNumber) :
    (place id raw block).Genuine where
  toWellFormed := wellFormed_place id raw block
  terms_eq := rfl

theorem Touched.genuine (h : o.Touched p) (ho : o.Genuine) : p.Genuine where
  toWellFormed := h.wellFormed ho.toWellFormed
  terms_eq := by
    rw [h.eq]
    exact ho.terms_eq

end Order

namespace Store
variable {s : Store} {id : Hash} {o p : Order}

/-- The store after an operation. One on the status of an unknown order does nothing. -/
def operate (s : Store) : OrderOperation → Store
  | .place id raw block => s.add (.place id raw block)
  | .delete id => (s.delete id).1
  | .fill delta id block => (s.fill delta id block).1
  | .setStatus id l => (s.setStatus? id l).getD s
  | .revertStatus id => (s.revertStatus? id).getD s
  | .accept block time => (s.accept block time).1

theorem orders_map_getD (s : Store) (id : Hash) (f : Order → Order) :
    (((s.orders[id]?).map fun o => { s with orders := s.orders.insert id (f o) }).getD s).orders =
      s.orders.alter id fun o => o.map f := by
  cases ho : s.orders[id]? with
  | none =>
    rw [Map.alter_eq_self (by rw [ho]; rfl)]
    rfl
  | some o =>
    rw [Map.alter_eq_insert (v := f o) (by rw [ho]; rfl)]
    rfl

theorem of_alter {orders : Map Hash Order} {key : Hash} {f : Order → Order}
    (hf : ∀ o : Order, o.Touched (f o)) (h : (orders.alter key fun o => o.map f)[id]? = some p) :
    ∃ o, orders[id]? = some o ∧ o.Touched p := by
  rw [Map.getElem?_alter_key] at h
  split at h
  next hkey =>
    obtain ⟨o, ho, rfl⟩ := Option.map_eq_some_iff.mp h
    exact ⟨o, hkey ▸ ho, hf o⟩
  next => exact ⟨p, h, .kept⟩

/-- Where an order of the store after an operation comes from. -/
theorem of_operate {a : OrderOperation} (h : (s.operate a).orders[id]? = some p) :
    (∃ raw block, p = .place id raw block) ∨ ∃ o, s.orders[id]? = some o ∧ o.Touched p := by
  cases a with
  | place key raw block =>
    have h : (s.orders.insert key (.place key raw block))[id]? = some p := h
    rw [Map.getElem?_insert_key] at h
    split at h
    next hkey =>
      cases h
      exact .inl ⟨raw, block, by rw [hkey]⟩
    next => exact .inr ⟨p, h, .kept⟩
  | delete key =>
    rw [operate, (delete_reorders s key).orders_eq, Map.getElem?_erase_key] at h
    split at h
    · cases h
    · exact .inr ⟨p, h, .kept⟩
  | fill delta key block =>
    rw [operate, (fill_reorders s delta key block).orders_eq] at h
    exact .inr (of_alter (fun o => .filled delta block) h)
  | setStatus key l =>
    rw [operate, setStatus?, orders_map_getD] at h
    exact .inr (of_alter (fun o => .pushed l) h)
  | revertStatus key =>
    rw [operate, revertStatus?, orders_map_getD] at h
    exact .inr (of_alter (fun o => .popped) h)
  | accept block time =>
    rw [operate] at h
    unfold Store.accept at h
    simp only at h
    rw [(deleteAll_reorders _ _).orders_eq, Map.getElem?_foldl_erase] at h
    split at h
    · cases h
    · exact .inr ⟨p, h, .kept⟩

/-- Every stored order is genuine. -/
def AllGenuine (s : Store) : Prop := ∀ (id : Hash) (o : Order), s.orders[id]? = some o → o.Genuine

theorem allGenuine_empty : empty.AllGenuine := fun id o h => by simp [empty] at h

theorem AllGenuine.operate (h : s.AllGenuine) (a : OrderOperation) : (s.operate a).AllGenuine := by
  intro id p hp
  rcases of_operate hp with ⟨raw, block, rfl⟩ | ⟨o, ho, ht⟩
  · exact Order.genuine_place id raw block
  · exact ht.genuine (h id o ho)

theorem AllGenuine.operations (h : s.AllGenuine) (ops : List OrderOperation) :
    (ops.foldl Store.operate s).AllGenuine := by
  induction ops generalizing s with
  | nil => exact h
  | cons a ops ih => exact ih (h.operate a)

/-- Whatever is done to the orders of a store that began empty, in any sequence and under any ids,
each order is on the side of its size, its fill is none or goes the way of the size and no
further, its terms are those of its raw order, and its lifecycle begins with its placement. -/
theorem genuine_of_operations (ops : List OrderOperation)
    (h : (ops.foldl Store.operate empty).orders[id]? = some o) :
    o.side = Side.of o.size ∧ (o.filled = 0 ∨ o.filled.signum = o.size.signum) ∧
      o.filled.toInt.natAbs ≤ o.size.toInt.natAbs ∧
      (o.market = o.raw.terms.market ∧ o.trader = o.raw.terms.trader ∧
        o.size = o.raw.terms.size ∧ o.price = o.raw.terms.price ∧ o.salt = o.raw.terms.salt ∧
        o.reduceOnly = o.raw.terms.reduceOnly) ∧
      ∃ rest, o.lifecycle = ⟨o.block, .placed, ""⟩ :: rest := by
  have ho := allGenuine_empty.operations ops id o h
  refine ⟨ho.inBounds.side_eq, ho.inBounds.filled_eq_zero_or, ho.inBounds.natAbs_filled_le, ?_,
    ho.opened⟩
  rw [← ho.terms_eq]
  exact ⟨rfl, rfl, rfl, rfl, rfl, rfl⟩

/-- An offer of ten units takes the id of an earlier order. It is filled beyond its size and taken
back in part, and its statuses are reverted once too often. -/
def busyOffer : List OrderOperation :=
  let offer : RawOrder := .limit ⟨⟨2, Bytes.zero 20, .clamp (-10), 30, 7, true⟩, false⟩
  [.place default default 3, .place default offer 5, .fill 25 default 6,
    .fill (.clamp (-4)) default 7, .setStatus default ⟨8, .cancelled, "moved"⟩,
    .revertStatus default, .revertStatus default, .fill (.clamp 1) default 9,
    .delete (Bytes.ofWord 32 1), .accept 9 12]

theorem genuine_after_busyOffer : ∃ o : Order,
    (busyOffer.foldl Store.operate empty).orders[(default : Hash)]? = some o ∧
      (o.filled.toInt, o.lifecycle) = (-7, [⟨5, .placed, ""⟩]) ∧
      o.side = Side.of o.size ∧ o.filled.signum = o.size.signum ∧
      o.filled.toInt.natAbs ≤ o.size.toInt.natAbs ∧ o.market = o.raw.terms.market ∧
      ∃ rest, o.lifecycle = ⟨o.block, .placed, ""⟩ :: rest := by
  have hrun : ((busyOffer.foldl Store.operate empty).orders[(default : Hash)]?).map
      (fun o => (o.filled.toInt, o.lifecycle)) = some (-7, [⟨5, .placed, ""⟩]) := by
    decide +kernel
  obtain ⟨o, ho, hfields⟩ := Option.map_eq_some_iff.mp hrun
  obtain ⟨hside, hsign, hle, ⟨hmarket, -⟩, hopened⟩ := genuine_of_operations busyOffer ho
  refine ⟨o, ho, hfields, hside, hsign.resolve_left fun h0 => ?_, hle, hmarket, hopened⟩
  rw [h0] at hfields
  cases (Prod.mk.inj hfields).1

end Store
end PerpExchange
