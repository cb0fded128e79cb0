import PerpExchange.Proofs.Bounds
import PerpExchange.Proofs.LedgerEffect

/-! The stores that the chain leads to, and what every order in them is like. -/
namespace PerpExchange

namespace Order
variable {o : Order}

/-- An order with a fill in bounds whose lifecycle begins with its placement. -/
structure WellFormed (o : Order) : Prop where
  inBounds : o.InBounds
  opened : ∃ rest, o.lifecycle = ⟨o.block, .placed, ""⟩ :: rest

theorem wellFormed_place (id : Hash) (raw : RawOrder) (block : BlockNumber) :
    (place id raw block).WellFormed :=
  ⟨inBounds_place id raw block, [], rfl⟩

theorem WellFormed.pushStatus (h : o.WellFormed) (l : Lifecycle) : (o.pushStatus l).WellFormed := by
  obtain ⟨rest, hr⟩ := h.opened
  refine ⟨⟨h.inBounds.side_eq, h.inBounds.fill_nonneg, h.inBounds.fill_le⟩, rest ++ [l], ?_⟩
  show o.lifecycle ++ [l] = _
  rw [hr]
  rfl

theorem WellFormed.popStatus (h : o.WellFormed) : o.popStatus.WellFormed := by
  unfold Order.popStatus
  split
  next hlen =>
    obtain ⟨rest, hr⟩ := h.opened
    refine ⟨⟨h.inBounds.side_eq, h.inBounds.fill_nonneg, h.inBounds.fill_le⟩, rest.dropLast, ?_⟩
    show o.lifecycle.dropLast = _
    rw [hr] at hlen ⊢
    exact List.dropLast_cons_of_ne_nil (by rintro rfl; simp at hlen)
  next => exact h

/-- A change of the fill keeps the placement in the lifecycle: only an entry that says filled is
dropped for it. -/
theorem lifecycleAfterFill_opened (delta fill : Amount) (block : BlockNumber)
    (h : ∃ rest, o.lifecycle = ⟨o.block, .placed, ""⟩ :: rest) :
    ∃ rest, o.lifecycleAfterFill delta fill block = ⟨o.block, .placed, ""⟩ :: rest := by
  rcases h with ⟨rest, hr⟩
  unfold lifecycleAfterFill
  simp only
  split
  · split
    next hf =>
      have hne : rest ≠ [] := by
        rintro rfl
        simp [hasStatus, status?, hr] at hf
      exact ⟨rest.dropLast, by rw [hr, List.dropLast_cons_of_ne_nil hne]⟩
    next => exact ⟨rest, hr⟩
  · split
    · exact ⟨rest ++ [⟨block, .filled, ""⟩], by rw [hr]; rfl⟩
    · exact ⟨rest, hr⟩

theorem WellFormed.fillBy (h : o.WellFormed) (delta : Amount) (block : BlockNumber) :
    (o.fillBy delta block).WellFormed := by
  unfold Order.fillBy
  cases hf : o.fillBy? delta block with
  | none => exact h
  | some r =>
    simp only [fillBy?, Option.bind_eq_bind, Option.bind_eq_some_iff] at hf
    rcases hf with ⟨d, -, f, -, hf⟩
    cases hf
    exact ⟨inBounds_clampFill h.inBounds.side_eq, lifecycleAfterFill_opened _ _ _ h.opened⟩

end Order

def AllWellFormed (orders : Map Hash Order) : Prop :=
  ∀ (id : Hash) (o : Order), orders[id]? = some o → o.WellFormed

theorem OrderAction.wellFormed_effect (a : OrderAction) (id : Hash) (l : Log) {o : Option Order}
    (h : ∀ p, o = some p → p.WellFormed) : ∀ p, a.effect id l o = some p → p.WellFormed := by
  intro p hp
  cases a with
  | place raw =>
    simp only [effect] at hp
    split at hp
    · cases hp
    · cases hp
      exact Order.wellFormed_place id raw l.block
  | setStatus status info =>
    simp only [effect] at hp
    split at hp
    · obtain ⟨q, hq, rfl⟩ := Option.map_eq_some_iff.mp hp
      exact (h q hq).popStatus
    · obtain ⟨q, hq, rfl⟩ := Option.map_eq_some_iff.mp hp
      exact (h q hq).pushStatus _
  | fill amount =>
    simp only [effect] at hp
    cases hs : signedAmount l.removed amount with
    | ok delta =>
      rw [hs] at hp
      obtain ⟨q, hq, rfl⟩ := Option.map_eq_some_iff.mp hp
      exact (h q hq).fillBy delta l.block
    | error c =>
      rw [hs] at hp
      exact h p hp

theorem AllWellFormed.act {orders : Map Hash Order} (h : AllWellFormed orders) (l : Log)
    (actions : List (Hash × OrderAction)) : AllWellFormed (l.act orders actions) := by
  induction actions generalizing orders with
  | nil => exact h
  | cons a actions ih =>
    apply ih
    intro id o ho
    rw [Map.getElem?_alter_key] at ho
    split at ho
    · exact a.2.wellFormed_effect a.1 l (h id) o ho
    · exact h id o ho

theorem AllWellFormed.foldl_actHead {orders : Map Hash Order} (h : AllWellFormed orders)
    (contracts : ContractAddresses) (logs : List Log) :
    AllWellFormed (logs.foldl (Log.actHead contracts) orders) := by
  induction logs generalizing orders with
  | nil => exact h
  | cons l logs ih => exact ih (h.act l _)

namespace Store
variable {s s' : Store}

/-- The stores that logs of the chain make of an empty one, at its head and as blocks are
accepted. -/
inductive Ingested : Store → Prop
  | empty : Ingested empty
  | head {i : Intake} (h : Ingested i.store) (contracts : ContractAddresses) (logs : List Log) :
    Ingested (i.headLogs contracts logs).store
  | accepted {i i' : Intake} {contracts : ContractAddresses} {params : ProtocolParams}
    {logs : List Log} {replaying : Bool} (h : Ingested i.store)
    (hi : i.acceptedLogs contracts params logs replaying = .ok i') : Ingested i'.store
  | accept {s : Store} (h : Ingested s) (block : BlockNumber) (time : Timestamp) :
    Ingested (s.accept block time).1

/-- Logs of accepted blocks change the ledgers only. -/
theorem acceptedLogs_eq_withLedgersOf {i i' : Intake} {contracts : ContractAddresses}
    {params : ProtocolParams} {logs : List Log} {replaying : Bool}
    (h : i.acceptedLogs contracts params logs replaying = .ok i') :
    i'.store = i.store.withLedgersOf i'.store := by
  have hs := i.store_acceptedLogs contracts params logs replaying
  have hframe := i.store.foldlM_afterAccepted_withLedgersOf i.store contracts params
    (logs.mergeSort Log.before)
  rw [h] at hs
  rw [withLedgersOf_self, ← hs] at hframe
  exact Except.ok.inj hframe

/-- An event of the order book that comes to the head of the chain on its own. -/
theorem Ingested.applyHead (h : s.Ingested) (c : ContractAddresses) (e : OrderBookEvent)
    (block : BlockNumber) (index : UInt64) :
    (s.applyHead (.orderBook e) (c.orderBookLog e block index)).1.Ingested := by
  have hhead := Ingested.head (i := ⟨s, default, default, default⟩) h c
    [c.orderBookLog e block index]
  rwa [Intake.headLogs, Intake.headOrder_singleton, List.foldl_cons, List.foldl_nil,
    Intake.headLog, c.readLog_orderBookLog e block index rfl, Intake.store_publish,
    Intake.store_count] at hhead

/-- An event of an accepted block that comes on its own. -/
theorem Ingested.applyAccepted {counters : List Counter} (h : s.Ingested) (c : ContractAddresses)
    (params : ProtocolParams) (e : ContractEvent) (address : Address) (block : BlockNumber)
    (index : UInt64) (hkind : c.kindOf? address = some e.kind)
    (hs : s.applyAccepted params e (e.toLog address block index) = .ok (s', counters)) :
    s'.Ingested := by
  have hstore := Intake.store_acceptedLogs c params ⟨s, default, default, default⟩
    [e.toLog address block index] true
  rw [List.mergeSort_singleton, List.foldlM_cons, afterAccepted,
    readLog_toLog hkind block index rfl] at hstore
  simp only [hs] at hstore
  cases hi : Intake.acceptedLogs ⟨s, default, default, default⟩ c params
    [e.toLog address block index] true with
  | error f => rw [hi] at hstore; cases hstore
  | ok i' =>
    rw [hi] at hstore
    cases hstore
    exact Ingested.accepted (i := ⟨s, default, default, default⟩) h hi

/-- What the chain leads to: books that list the orders, and well-formed orders. -/
theorem Ingested.invariant (h : s.Ingested) : s.Indexed ∧ AllWellFormed s.orders := by
  induction h with
  | empty => exact ⟨indexed_empty, fun id o ho => by simp [Store.empty] at ho⟩
  | @head i h contracts logs ih =>
    have hr := i.headLogs_reorders contracts logs
    constructor
    · exact hr.2 ih.1
    · rw [hr.orders_eq]
      exact ih.2.foldl_actHead contracts _
  | accepted h hi ih =>
    rw [acceptedLogs_eq_withLedgersOf hi]
    exact ih
  | accept h block time ih =>
    constructor
    · exact ih.1.accept block time
    · intro id o ho
      apply ih.2 id o
      unfold Store.accept at ho
      simp only at ho
      rw [(deleteAll_reorders _ _).orders_eq, Map.getElem?_foldl_erase] at ho
      split at ho
      · cases ho
      · exact ho

end Store
end PerpExchange
