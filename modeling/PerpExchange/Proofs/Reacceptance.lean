import PerpExchange.Proofs.Survivors

/-! Accepting one block after another. The later acceptance alone would have led to the same store,
and to the same number of orders that left. -/
namespace PerpExchange.Store
variable {s s' : Store} {accepted accepted' : BlockNumber} {time time' : Timestamp}

/-- The books of a store are determined by its orders and by which markets have one. -/
theorem Indexed.ext (h : s.Indexed) (h' : s'.Indexed) (hdata : s.toStoreData = s'.toStoreData)
    (hmarkets : ∀ m : MarketId, (s.books[m]?).isSome = (s'.books[m]?).isSome) : s = s' := by
  have hbooks : s.books = s'.books := by
    apply Std.ExtTreeMap.ext_getElem?
    intro m
    have hbook := h.book_eq h' (congrArg StoreData.orders hdata) m
    have hmarket := hmarkets m
    rw [Store.book, Store.book, Map.getD_of_getElem?, Map.getD_of_getElem?] at hbook
    cases hb : s.books[m]? <;> cases hb' : s'.books[m]? <;> simp_all
  rcases s with ⟨data, books⟩
  rcases s' with ⟨data', books'⟩
  cases hdata
  cases hbooks
  rfl

theorem isSome_books_delete (s : Store) (id : Hash) (m : MarketId) :
    ((s.delete id).1.books[m]?).isSome = (s.books[m]?).isSome := by
  unfold Store.delete
  cases s.orders[id]? with
  | none => rfl
  | some o =>
    simp only [unlistOrder, Map.getElem?_modify_key]
    split
    · exact Option.isSome_map
    · rfl

/-- A market keeps its book when orders leave, even the last of them. -/
theorem isSome_books_accept (s : Store) (accepted : BlockNumber) (time : Timestamp) (m : MarketId) :
    ((s.accept accepted time).1.books[m]?).isSome = (s.books[m]?).isSome := by
  have hall : ∀ (ids : List Hash) (s : Store),
      ((s.deleteAll ids).books[m]?).isSome = (s.books[m]?).isSome := by
    intro ids
    induction ids with
    | nil => exact fun s => rfl
    | cons id ids ih => exact fun s => (ih (s.delete id).1).trans (s.isSome_books_delete id m)
  exact hall _ s

theorem accept_toStoreData (s : Store) (accepted : BlockNumber) (time : Timestamp) :
    (s.accept accepted time).1.toStoreData = { s.toStoreData with
      orders := (s.accept accepted time).1.orders
      lastAcceptedBlock := max s.lastAcceptedBlock accepted } := by
  show { (s.deleteAll (s.leaving accepted time)).toStoreData with
    lastAcceptedBlock := max s.lastAcceptedBlock accepted } = _
  rw [s.orders_accept, (s.deleteAll_reorders _).1]

/-- Of two accepted blocks the later one counts. -/
theorem lastAccepted_absorbs (last : BlockNumber) (h : accepted ≤ accepted') :
    max (max last accepted) accepted' = max last accepted' := by
  have hmax : ∀ a b : BlockNumber, max a b = if a ≤ b then b else a := fun _ _ => rfl
  rw [hmax, hmax, hmax]
  grind

/-- An order stays at both blocks if it stays at the later one. -/
theorem Indexed.orders_accept_accept (h : s.Indexed) (ha : accepted ≤ accepted')
    (ht : time ≤ time') :
    ((s.accept accepted time).1.accept accepted' time').1.orders =
      (s.accept accepted' time').1.orders := by
  apply Std.ExtTreeMap.ext_getElem?
  intro id
  apply Option.ext
  intro o
  have hthinned := h.thinned_accept (.refl s.orders) (UInt64.le_refl accepted) (UInt64.le_refl time)
  rw [(h.accept accepted time).accept_thinned hthinned ha ht, h.accept_orders]

theorem Indexed.accept_accept (h : s.Indexed) (ha : accepted ≤ accepted') (ht : time ≤ time') :
    ((s.accept accepted time).1.accept accepted' time').1 = (s.accept accepted' time').1 := by
  apply Indexed.ext ((h.accept _ _).accept _ _) (h.accept _ _)
  · have hblock : ((s.accept accepted time).1.accept accepted' time').1.lastAcceptedBlock =
        (s.accept accepted' time').1.lastAcceptedBlock :=
      lastAccepted_absorbs s.lastAcceptedBlock ha
    rw [accept_toStoreData, accept_toStoreData s accepted time]
    conv_rhs => rw [accept_toStoreData]
    rw [h.orders_accept_accept ha ht]
    exact congrArg (fun block => { s.toStoreData with
      orders := (s.accept accepted' time').1.orders, lastAcceptedBlock := block }) hblock
  · intro m
    rw [isSome_books_accept, isSome_books_accept, isSome_books_accept]

/-- A later acceptance absorbs an earlier one: in any store whose books index its orders, as those
of every store do that operations, snapshots or the chain lead to. What the two leave is exactly
what the later one leaves on its own, and they remove as many orders together. So a second
acceptance of the same block at the same time removes nothing and changes nothing. -/
theorem later_acceptance_absorbs (h : s.Indexed) (ha : accepted ≤ accepted') (ht : time ≤ time') :
    ((s.accept accepted time).1.accept accepted' time').1 = (s.accept accepted' time').1 ∧
      (s.accept accepted time).2 + ((s.accept accepted time).1.accept accepted' time').2 =
        (s.accept accepted' time').2 ∧
      (s.accept accepted time).1.accept accepted time = ((s.accept accepted time).1, 0) := by
  have hcount : ∀ {accepted' : BlockNumber} {time' : Timestamp}, accepted ≤ accepted' →
      time ≤ time' →
      (s.accept accepted time).2 + ((s.accept accepted time).1.accept accepted' time').2 =
        (s.accept accepted' time').2 := by
    intro accepted' time' ha ht
    have hfirst := h.accept_count accepted time
    have hsecond := (h.accept accepted time).accept_count accepted' time'
    have hsingle := h.accept_count accepted' time'
    rw [h.orders_accept_accept ha ht] at hsecond
    omega
  have hagain := hcount (UInt64.le_refl accepted) (UInt64.le_refl time)
  refine ⟨h.accept_accept ha ht, hcount ha ht, Prod.ext ?_ ?_⟩
  · exact h.accept_accept (UInt64.le_refl _) (UInt64.le_refl _)
  · show ((s.accept accepted time).1.accept accepted time).2 = 0
    omega

/-- A sale at a limit that is cancelled in the second block, and two purchases that stay while it
does, one of which expires at the first. -/
def fadingSale : Store :=
  let buy (id : Hash) (expiry : Timestamp) : Order :=
    .place id (.ioc { (default : IocOrder) with size := 1, expireAt := expiry }) 1
  let sell : Order :=
    .place default (.limit { (default : LimitOrder) with size := Side.short.sign }) 1
  (((empty.add (sell.pushStatus ⟨2, .cancelled, ""⟩)).add (buy (Bytes.ofWord 32 1) 3)).add
    (buy (Bytes.ofWord 32 2) 9))

/-- The second purchase outlives the first acceptance, and leaves with the sale at the next. -/
theorem fadingSale_absorbed :
    fadingSale.Indexed ∧ (1 : BlockNumber) ≤ 2 ∧ (4 : Timestamp) ≤ 6 ∧
      (fadingSale.accept 1 4).2 = 1 ∧ ((fadingSale.accept 1 4).1.accept 2 6).2 = 2 ∧
      (fadingSale.accept 2 6).2 = 3 ∧
      ((fadingSale.accept 1 4).1.accept 2 6).1 = (fadingSale.accept 2 6).1 := by
  have hi : fadingSale.Indexed := (((Reachable.empty.add _).add _).add _).indexed
  have hfirst : (fadingSale.accept 1 4).2 = 1 := by decide +kernel
  have hboth : (fadingSale.accept 2 6).2 = 3 := by decide +kernel
  obtain ⟨hstore, hcount, -⟩ := later_acceptance_absorbs hi
    (show (1 : BlockNumber) ≤ 2 by decide) (show (4 : Timestamp) ≤ 6 by decide)
  exact ⟨hi, by decide, by decide, hfirst, by omega, hboth, hstore⟩

end PerpExchange.Store
