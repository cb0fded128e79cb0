import PerpExchange.Ingest
import PerpExchange.Proofs.Json.Records
import PerpExchange.Proofs.Reachable

/-! What logs at the head of the chain do to the orders of a store, order by order. All else a store
holds follows or stays: the books list the new orders, and the ledgers are not touched. -/
namespace PerpExchange

/-- What an event does to one order. -/
inductive OrderAction where
  | place (raw : RawOrder)
  | setStatus (status : OrderStatus) (info : String)
  | fill (amount : Amount)

namespace Order

/-- A fill that leaves the order alone where it leaves the range. -/
def fillBy (o : Order) (delta : Amount) (block : BlockNumber) : Order :=
  ((o.fillBy? delta block).map Prod.fst).getD o

end Order

/-- What an action of a log makes of the order under an id, or of its absence. -/
def OrderAction.effect (a : OrderAction) (id : Hash) (l : Log) (o : Option Order) : Option Order :=
  match a with
  | .place raw => if l.removed then none else some (.place id raw l.block)
  | .setStatus status info =>
    if l.removed then o.map Order.popStatus
    else o.map fun o => o.pushStatus ⟨l.block, status, info⟩
  | .fill amount =>
    match signedAmount l.removed amount with
    | .ok delta => o.map fun o => o.fillBy delta l.block
    | .error _ => o

/-- What an event does to orders, in turn. -/
def ContractEvent.actions : ContractEvent → List (Hash × OrderAction)
  | .orderBook (.orderPlaced _ id order _) => [(id, .place (.limit order))]
  | .orderBook (.orderAccepted _ id order _) => [(id, .place (.signed order))]
  | .orderBook (.orderCancelled _ id _) => [(id, .setStatus .cancelled "")]
  | .orderBook (.cancelAccepted _ id _) => [(id, .setStatus .cancelled "")]
  | .orderBook (.ordersMatched long short amount _ _) =>
    [(long, .fill amount), (short, .fill amount)]
  | .orderBook (.liquidationMatched _ id amount _ _) => [(id, .fill amount)]
  | .orderBook (.matchingError id info) => [(id, .setStatus .executionFailed info)]
  | .iocOrderBook (.orderPlaced _ id order _) => [(id, .place (.ioc order))]
  | .marginAccount _ | .clearingHouse _ => []

/-- What a log does to orders, in turn; nothing, if it carries no event of an order book. -/
def Log.actions (contracts : ContractAddresses) (l : Log) : List (Hash × OrderAction) :=
  match readLog contracts l Intake.isOrderBook with
  | .ok e => e.actions
  | .error _ => []

/-- A log of a contract is read as the event it was written for. -/
theorem readLog_toLog {contracts : ContractAddresses} {e : ContractEvent} {address : Address}
    (h : contracts.kindOf? address = some e.kind) (block : BlockNumber) (index : UInt64)
    {follows : ContractKind → Bool} (hf : follows e.kind = true) :
    readLog contracts (e.toLog address block index) follows = .ok e := by
  have haddress : (e.toLog address block index).address = address := rfl
  simp only [readLog, haddress, h, hf, if_true, e.event_toLog]

namespace ContractAddresses
variable (c : ContractAddresses) (e : OrderBookEvent) (block : BlockNumber) (index : UInt64)

/-- The log by which the order book announces an event. -/
def orderBookLog : Log := (ContractEvent.orderBook e).toLog c.orderBook block index

@[simp] theorem block_orderBookLog : (c.orderBookLog e block index).block = block := rfl

@[simp] theorem index_orderBookLog : (c.orderBookLog e block index).index = index := rfl

@[simp] theorem removed_orderBookLog : (c.orderBookLog e block index).removed = false := rfl

theorem readLog_orderBookLog {follows : ContractKind → Bool} (hf : follows .orderBook = true) :
    readLog c (c.orderBookLog e block index) follows = .ok (.orderBook e) := by
  have hkind : c.kindOf? c.orderBook = some .orderBook := if_pos rfl
  exact readLog_toLog hkind block index hf

theorem actions_orderBookLog :
    (c.orderBookLog e block index).actions c = (ContractEvent.orderBook e).actions := by
  rw [Log.actions, c.readLog_orderBookLog e block index rfl]

end ContractAddresses

def Log.act (l : Log) (orders : Map Hash Order) (actions : List (Hash × OrderAction)) :
    Map Hash Order :=
  actions.foldl (fun orders a => orders.alter a.1 (a.2.effect a.1 l)) orders

/-- Orders after a log at the head of the chain. -/
def Log.actHead (contracts : ContractAddresses) (orders : Map Hash Order) (l : Log) :
    Map Hash Order :=
  l.act orders (l.actions contracts)

namespace Store
variable {s s' : Store} {o : Order} {id : Hash} {l : Log} {orders : Map Hash Order}

/-- A store that differs by its orders, and by the books that list them. -/
def Reorders (s : Store) (orders : Map Hash Order) (s' : Store) : Prop :=
  s'.toStoreData = { s.toStoreData with orders } ∧ (s.Indexed → s'.Indexed)

theorem Reorders.refl (s : Store) : s.Reorders s.orders s := ⟨rfl, id⟩

theorem Reorders.orders_eq (h : s.Reorders orders s') : s'.orders = orders :=
  congrArg StoreData.orders h.1

theorem Reorders.traders_eq (h : s.Reorders orders s') : s'.traders = s.traders := by
  rw [h.1]

theorem Reorders.trans {s'' : Store} {orders' : Map Hash Order} (h : s.Reorders orders s')
    (h' : s'.Reorders orders' s'') : s.Reorders orders' s'' := by
  constructor
  · rw [h'.1, h.1]
  · intro hi
    exact h'.2 (h.2 hi)

theorem delete_reorders (s : Store) (id : Hash) :
    s.Reorders (s.orders.erase id) (s.delete id).1 := by
  constructor
  · unfold delete
    cases ho : s.orders[id]? with
    | some o => rfl
    | none => rw [Map.erase_eq_self ho]
  · intro hi
    exact hi.delete id

theorem deleteAll_reorders (s : Store) (ids : List Hash) :
    s.Reorders (ids.foldl (fun orders id => orders.erase id) s.orders) (s.deleteAll ids) := by
  induction ids generalizing s with
  | nil => exact .refl s
  | cons id ids ih =>
    have hrest := ih (s.delete id).1
    rw [(s.delete_reorders id).orders_eq] at hrest
    exact (s.delete_reorders id).trans hrest

theorem placeOrDelete_reorders (s : Store) (id : Hash) (raw : RawOrder) (l : Log) :
    s.Reorders (s.orders.alter id ((OrderAction.place raw).effect id l))
      (s.placeOrDelete id raw l).1 := by
  unfold placeOrDelete
  split
  next hr =>
    rw [Map.alter_eq_erase (by simp [OrderAction.effect, hr])]
    exact s.delete_reorders id
  next hr =>
    rw [Map.alter_eq_insert (v := .place id raw l.block) (by simp [OrderAction.effect, hr])]
    exact ⟨rfl, fun hi => hi.add _⟩

theorem setOrRevertStatus_reorders (s : Store) (id : Hash) (status : OrderStatus) (info : String)
    (l : Log) :
    s.Reorders (s.orders.alter id ((OrderAction.setStatus status info).effect id l))
      (s.setOrRevertStatus id status info l) := by
  unfold setOrRevertStatus
  cases ho : s.orders[id]? with
  | none =>
    rw [Map.alter_eq_self (by simp [OrderAction.effect, ho])]
    split <;> simp only [revertStatus?, setStatus?, ho, Option.map_none, Option.getD_none] <;>
      exact .refl s
  | some o =>
    split
    next hr =>
      rw [Map.alter_eq_insert (v := o.popStatus) (by simp [OrderAction.effect, ho, hr])]
      have hs : s.revertStatus? id = some { s with orders := s.orders.insert id o.popStatus } := by
        rw [revertStatus?, ho, Option.map_some]
      rw [hs]
      exact ⟨rfl, fun hi => hi.revertStatus hs⟩
    next hr =>
      rw [Map.alter_eq_insert (v := o.pushStatus ⟨l.block, status, info⟩)
        (by simp [OrderAction.effect, ho, hr])]
      have hs : s.setStatus? id ⟨l.block, status, info⟩ =
          some { s with orders := s.orders.insert id (o.pushStatus ⟨l.block, status, info⟩) } := by
        rw [setStatus?, ho, Option.map_some]
      rw [hs]
      exact ⟨rfl, fun hi => hi.setStatus hs⟩

theorem fill_reorders (s : Store) (delta : Amount) (id : Hash) (block : BlockNumber) :
    s.Reorders (s.orders.alter id fun o => o.map fun o => o.fillBy delta block)
      (s.fill delta id block).1 := by
  constructor
  · unfold fill
    cases ho : s.orders[id]? with
    | none => rw [Map.alter_eq_self (by rw [ho]; rfl)]
    | some o =>
      simp only
      cases hf : o.fillBy? delta block with
      | none =>
        rw [Map.alter_eq_self (by rw [ho, Option.map_some, Order.fillBy, hf]; rfl)]
      | some r =>
        rw [Map.alter_eq_insert (v := r.1) (by rw [ho, Option.map_some, Order.fillBy, hf]; rfl)]
  · intro hi
    exact hi.fill delta id block

theorem fillOrders_reorders (s : Store) (ids : List Hash) (amount : Amount) (l : Log) :
    s.Reorders (l.act s.orders (ids.map fun id => (id, .fill amount)))
      (s.fillOrders ids amount l).1 := by
  unfold fillOrders
  cases hsa : signedAmount l.removed amount with
  | error c =>
    have hself : ∀ orders : Map Hash Order,
        l.act orders (ids.map fun id => (id, .fill amount)) = orders := by
      intro orders
      induction ids with
      | nil => rfl
      | cons id ids ih =>
        rw [Log.act, List.map_cons, List.foldl_cons,
          Map.alter_eq_self (by simp [OrderAction.effect, hsa])]
        exact ih
    rw [hself]
    exact .refl s
  | ok delta =>
    simp only
    generalize ([] : List Counter) = counters
    induction ids generalizing s counters with
    | nil => exact .refl s
    | cons id ids ih =>
      rw [List.foldl_cons]
      apply (s.fill_reorders delta id l.block).trans
      have hrest := ih (s.fill delta id l.block).1 (counters ++ (s.fill delta id l.block).2)
      have heffect : (OrderAction.fill amount).effect id l =
          fun o => o.map fun o => o.fillBy delta l.block := by
        funext o
        simp only [OrderAction.effect, hsa]
      rw [(s.fill_reorders delta id l.block).orders_eq, ← heffect] at hrest
      exact hrest

theorem applyHead_reorders (s : Store) (e : ContractEvent) (l : Log) :
    s.Reorders (l.act s.orders e.actions) (s.applyHead e l).1 := by
  cases e with
  | orderBook e =>
    cases e with
    | orderPlaced trader id order time => exact s.placeOrDelete_reorders id (.limit order) l
    | orderAccepted trader id order time => exact s.placeOrDelete_reorders id (.signed order) l
    | orderCancelled trader id time => exact s.setOrRevertStatus_reorders id .cancelled "" l
    | cancelAccepted trader id time => exact s.setOrRevertStatus_reorders id .cancelled "" l
    | ordersMatched long short amount price time =>
      exact s.fillOrders_reorders [long, short] amount l
    | liquidationMatched trader id amount price time => exact s.fillOrders_reorders [id] amount l
    | matchingError id info => exact s.setOrRevertStatus_reorders id .executionFailed info l
  | iocOrderBook e =>
    cases e with
    | orderPlaced trader id order time => exact s.placeOrDelete_reorders id (.ioc order) l
  | marginAccount e => exact .refl s
  | clearingHouse e => exact .refl s

end Store

namespace Intake
variable (contracts : ContractAddresses) (i : Intake) (l : Log)

@[simp] theorem store_count (counters : List Counter) : (i.count counters).store = i.store := rfl

/-- Telling the feeds leaves the store alone. -/
@[simp] theorem store_publish (e : ContractEvent) (level : Confirmation) :
    (i.publish e l level).store = i.store := by
  have htraders : ∀ (traders : List (Address × Option Hash)) (i : Intake),
      (traders.foldl (fun i t => i.publishToTrader
        ⟨t.1, t.2, e.name, l.block, level, l.transaction, l.removed, e⟩) i).store = i.store := by
    intro traders
    induction traders with
    | nil => exact fun _ => rfl
    | cons t traders ih => exact fun i => ih _
  unfold publish
  split
  · exact htraders _ i
  · exact htraders _ i

theorem headOrder_nil : headOrder [] = [] := by
  rw [headOrder, List.filter_nil, List.filter_nil, List.mergeSort_nil, List.mergeSort_nil]
  rfl

theorem headOrder_singleton : headOrder [l] = [l] := by
  unfold headOrder
  cases hl : l.removed <;> simp [hl]

theorem headLog_reorders :
    i.store.Reorders (Log.actHead contracts i.store.orders l) (headLog contracts i l).store := by
  unfold headLog Log.actHead Log.actions
  cases readLog contracts l isOrderBook with
  | error counters => exact .refl _
  | ok e =>
    simp only [store_publish, store_count]
    exact i.store.applyHead_reorders e l

theorem foldl_headLog_reorders (logs : List Log) :
    i.store.Reorders (logs.foldl (Log.actHead contracts) i.store.orders)
      (logs.foldl (headLog contracts) i).store := by
  induction logs generalizing i with
  | nil => exact .refl _
  | cons l logs ih =>
    apply (i.headLog_reorders contracts l).trans
    have hrest := ih (headLog contracts i l)
    rwa [(i.headLog_reorders contracts l).orders_eq] at hrest

/-- Logs at the head of the chain change orders as their actions say, in the order in which head
logs are applied. -/
theorem headLogs_reorders (logs : List Log) :
    i.store.Reorders ((headOrder logs).foldl (Log.actHead contracts) i.store.orders)
      (i.headLogs contracts logs).store :=
  i.foldl_headLog_reorders contracts (headOrder logs)

theorem orders_headLogs_singleton :
    (i.headLogs contracts [l]).store.orders = l.actHead contracts i.store.orders := by
  rw [(i.headLogs_reorders contracts _).orders_eq, headOrder_singleton]
  rfl

end Intake

end PerpExchange
