import PerpExchange.Contracts
import PerpExchange.Event.Notice
import PerpExchange.Feed
import PerpExchange.Store.Accept
import PerpExchange.Store.Accounts

/-!
Applying logs to the store. Order book logs are applied as soon as they reach the head of the
chain, and taken back when their block leaves it. Margin and clearing house logs are applied once
their block is accepted. Every log that carries an event is then passed on to the feeds.
-/

namespace PerpExchange

/-- What ingestion works on. -/
structure Intake where
  store : Store
  metrics : Metrics
  traderFeed : Feed TraderEvent
  marketFeed : Feed MarketFeedEvent

/-- An amount, or its negation; the one amount without a negation is counted instead. -/
def signedAmount (negate : Bool) (a : Amount) : Except Counter Amount :=
  if negate then
    match a.neg? with
    | some b => .ok b
    | none => .error .amountOutOfRange
  else .ok a

namespace Store

/-- Adds an order that was placed, or deletes it when the placement is taken back. -/
def placeOrDelete (s : Store) (id : Hash) (raw : RawOrder) (l : Log) : Store × List Counter :=
  if l.removed then s.delete id else (s.add (Order.place id raw l.block), [])

/-- Begins a status, or ends the current one when the log is taken back. Unknown orders are left
alone. -/
def setOrRevertStatus (s : Store) (id : Hash) (status : OrderStatus) (info : String) (l : Log) :
    Store :=
  if l.removed then (s.revertStatus? id).getD s
  else (s.setStatus? id ⟨l.block, status, info⟩).getD s

/-- Fills orders by an amount, or takes the fill back. -/
def fillOrders (s : Store) (ids : List Hash) (amount : Amount) (l : Log) : Store × List Counter :=
  match signedAmount l.removed amount with
  | .error c => (s, [c])
  | .ok delta =>
    ids.foldl (fun (s, counters) id =>
      let (s, more) := s.fill delta id l.block
      (s, counters ++ more)) (s, [])

/-- What an order book event does to the store. -/
def applyOrderBook (s : Store) (e : OrderBookEvent) (l : Log) : Store × List Counter :=
  match e with
  | .orderPlaced _ id order _ => s.placeOrDelete id (.limit order) l
  | .orderAccepted _ id order _ => s.placeOrDelete id (.signed order) l
  | .orderCancelled _ id _ => (s.setOrRevertStatus id .cancelled "" l, [])
  | .cancelAccepted _ id _ => (s.setOrRevertStatus id .cancelled "" l, [])
  | .ordersMatched longId shortId fill _ _ => s.fillOrders [longId, shortId] fill l
  | .liquidationMatched _ id fill _ _ => s.fillOrders [id] fill l
  | .matchingError id info => (s.setOrRevertStatus id .executionFailed info l, [])

/-- What an event at the head of the chain does to the store. -/
def applyHead (s : Store) (e : ContractEvent) (l : Log) : Store × List Counter :=
  match e with
  | .orderBook e => s.applyOrderBook e l
  | .iocOrderBook (.orderPlaced _ id order _) => s.placeOrDelete id (.ioc order) l
  | .marginAccount _ | .clearingHouse _ => (s, [])

/-- Changes a deposit by an amount or its negation. -/
def changeMargin (s : Store) (a : Address) (c : CollateralId) (negate : Bool) (amount : Amount) :
    Store × List Counter :=
  match signedAmount negate amount with
  | .error counter => (s, [counter])
  | .ok delta => s.updateMargin a c delta

/-- Changes the reserved margin by an amount or its negation. -/
def changeReserved (s : Store) (a : Address) (negate : Bool) (amount : Amount) :
    Store × List Counter :=
  match signedAmount negate amount with
  | .error counter => (s, [counter])
  | .ok delta => s.updateReserved a delta

/-- What a margin account event does to the store. A realized profit goes to the quote asset. -/
def applyMarginAccount (s : Store) (e : MarginAccountEvent) (l : Log) : Store × List Counter :=
  match e with
  | .marginAdded trader collateral amount _ => s.changeMargin trader collateral l.removed amount
  | .marginRemoved trader collateral amount _ =>
    s.changeMargin trader collateral (!l.removed) amount
  | .marginReserved trader amount => s.changeReserved trader l.removed amount
  | .marginReleased trader amount => s.changeReserved trader (!l.removed) amount
  | .pnlRealized trader pnl _ => s.changeMargin trader 0 l.removed pnl

def applyPositionChange (s : Store) (params : ProtocolParams) (c : PositionChange)
    (isLiquidation : Bool) : Checked Store :=
  (s.setLastPrice c.market c.price).updatePosition params c.trader c.market c.size c.openNotional
    isLiquidation

/-- What a clearing house event does to the store. -/
def applyClearingHouse (s : Store) (params : ProtocolParams) (e : ClearingHouseEvent) :
    Checked Store :=
  match e with
  | .fundingRateUpdated market _ _ cumulative nextFundingTime _ => do
    return { ← s.updateFunding market cumulative with nextFundingTime }
  | .fundingPaid trader market _ cumulative => return s.resetFunding market trader cumulative
  | .positionModified c => s.applyPositionChange params c false
  | .positionLiquidated c => s.applyPositionChange params c true
  | .premiumSampled _ nextSampleTime => return { s with nextSampleTime }
  | .premiumSampleSkipped nextSampleTime => return { s with nextSampleTime }

/-- What an event of an accepted block does to the store. Clearing house logs that are taken back
are passed over. -/
def applyAccepted (s : Store) (params : ProtocolParams) (e : ContractEvent) (l : Log) :
    Checked (Store × List Counter) :=
  match e with
  | .marginAccount e => return s.applyMarginAccount e l
  | .clearingHouse e =>
    if l.removed then return (s, [])
    else return (← s.applyClearingHouse params e, [])
  | .orderBook _ | .iocOrderBook _ => return (s, [])

/-- The owner of an order, with the order. -/
def owner (s : Store) (id : Hash) : Option (Address × Option Hash) :=
  (s.orders[id]?).map fun o => (o.trader, some id)

/-- The traders an event concerns, each with the order it is about, if it is about one. -/
def involved (s : Store) (e : ContractEvent) : List (Address × Option Hash) :=
  match e with
  | .orderBook (.orderPlaced trader id ..) => [(trader, some id)]
  | .orderBook (.orderAccepted trader id ..) => [(trader, some id)]
  | .orderBook (.orderCancelled trader id _) => [(trader, some id)]
  | .orderBook (.cancelAccepted trader id _) => [(trader, some id)]
  | .orderBook (.liquidationMatched trader id ..) => [(trader, some id)]
  | .orderBook (.ordersMatched longId shortId ..) => [longId, shortId].filterMap s.owner
  | .orderBook (.matchingError id _) => [id].filterMap s.owner
  | .iocOrderBook (.orderPlaced trader id ..) => [(trader, some id)]
  | .marginAccount e => [(e.trader, none)]
  | .clearingHouse (.fundingPaid trader ..) => [(trader, none)]
  | .clearingHouse (.positionModified c) => [(c.trader, none)]
  | .clearingHouse (.positionLiquidated c) => [(c.trader, none)]
  | .clearingHouse _ => []

end Store

/-- The trade an accepted event reports, if it reports one. -/
def marketFeedEvent? (e : ContractEvent) (l : Log) (level : Confirmation) :
    Option MarketFeedEvent :=
  let report (c : PositionChange) (isLiquidation : Bool) : MarketFeedEvent :=
    ⟨c.trader, c.market, c.traded, c.price, isLiquidation, l.block, level, l.transaction, l.removed,
      c.time⟩
  match level, e with
  | .accepted, .clearingHouse (.positionModified c) => some (report c false)
  | .accepted, .clearingHouse (.positionLiquidated c) => some (report c true)
  | _, _ => none

/-- The contract and the event of a log, or the counter that says why it has none. -/
def readLog (contracts : ContractAddresses) (l : Log) (follows : ContractKind → Bool) :
    Except (List Counter) ContractEvent :=
  match contracts.kindOf? l.address with
  | none => .error [.unknownContractLog]
  | some kind =>
    if follows kind then
      match l.event kind with
      | .ok e => .ok e
      | .error _ => .error [.decodeFailure]
    else .error []

namespace Intake

def count (i : Intake) (counters : List Counter) : Intake :=
  { i with metrics := i.metrics.countAll counters }

def publishToTrader (i : Intake) (e : TraderEvent) : Intake :=
  let (feed, delivery) := i.traderFeed.publish e
  { i with traderFeed := feed, metrics := i.metrics.countDelivery delivery }

def publishToMarket (i : Intake) (e : MarketFeedEvent) : Intake :=
  let (feed, delivery) := i.marketFeed.publish e
  { i with marketFeed := feed, metrics := i.metrics.countDelivery delivery }

/-- Tells the feeds about an event that has been applied. -/
def publish (i : Intake) (e : ContractEvent) (l : Log) (level : Confirmation) : Intake :=
  let i := (i.store.involved e).foldl (fun i (trader, orderId) => i.publishToTrader
    ⟨trader, orderId, e.name, l.block, level, l.transaction, l.removed, e⟩) i
  match marketFeedEvent? e l level with
  | some report => i.publishToMarket report
  | none => i

def isOrderBook : ContractKind → Bool
  | .orderBook | .iocOrderBook => true
  | .marginAccount | .clearingHouse => false

/-- Takes one log from the head of the chain. -/
def headLog (contracts : ContractAddresses) (i : Intake) (l : Log) : Intake :=
  match readLog contracts l isOrderBook with
  | .error counters => i.count counters
  | .ok e =>
    let (store, counters) := i.store.applyHead e l
    ({ i with store }.count counters).publish e l .head

/-- The order in which head logs are applied: first those that are taken back, the newest first,
then the others, the oldest first. -/
def headOrder (logs : List Log) : List Log :=
  (logs.filter Log.removed).mergeSort (fun a b => b.before a) ++
    (logs.filter fun l => !l.removed).mergeSort Log.before

theorem perm_headOrder (logs : List Log) : (headOrder logs).Perm logs := by
  unfold headOrder
  refine ((List.mergeSort_perm _ _).append (List.mergeSort_perm _ _)).trans ?_
  exact List.filter_append_perm Log.removed logs

/-- Takes logs from the head of the chain. -/
def headLogs (i : Intake) (contracts : ContractAddresses) (logs : List Log) : Intake :=
  (headOrder logs).foldl (headLog contracts) i

/-- Takes one log of an accepted block. While history is replayed events are not counted. -/
def acceptedLog (contracts : ContractAddresses) (params : ProtocolParams) (replaying : Bool)
    (i : Intake) (l : Log) : Checked Intake :=
  match readLog contracts l fun _ => true with
  | .error counters => return i.count counters
  | .ok e => do
    let (store, counters) ← i.store.applyAccepted params e l
    let counters := if replaying then counters else counters ++ [.eventIngested e.name]
    return ({ i with store }.count counters).publish e l .accepted

/-- Takes the logs of an accepted block, the oldest first. -/
def acceptedLogs (i : Intake) (contracts : ContractAddresses) (params : ProtocolParams)
    (logs : List Log) (replaying : Bool) : Checked Intake :=
  (logs.mergeSort Log.before).foldlM (acceptedLog contracts params replaying) i

/-- Replays accepted blocks that come after a given one, and answers how many there were. -/
def replay (i : Intake) (contracts : ContractAddresses) (params : ProtocolParams)
    (batches : List ChainBatch) (after : Option BlockNumber) : Checked (Intake × Nat) :=
  batches.foldlM (fun (i, replayed) b => do
    if !b.accepted || after.any fun a => b.block ≤ a then return (i, replayed)
    let i ← (i.headLogs contracts b.logs).acceptedLogs contracts params b.logs true
    return ({ i with store := (i.store.accept b.block b.time).1 }, replayed + 1)) (i, 0)

end Intake

end PerpExchange
