import PerpExchange.Order.Basic

/-!
What the contracts on the chain announce. Four contracts are watched; each has its own events.
-/

namespace PerpExchange

/-- The contracts whose events the exchange follows. -/
inductive ContractKind where
  | orderBook
  | iocOrderBook
  | marginAccount
  | clearingHouse
  deriving DecidableEq, Inhabited

inductive OrderBookEvent where
  | orderPlaced (trader : Address) (id : Hash) (order : LimitOrder) (time : Timestamp)
  | orderAccepted (trader : Address) (id : Hash) (order : SignedOrder) (time : Timestamp)
  | orderCancelled (trader : Address) (id : Hash) (time : Timestamp)
  | cancelAccepted (trader : Address) (id : Hash) (time : Timestamp)
  | ordersMatched (longId shortId : Hash) (fill price : Amount) (time : Timestamp)
  | liquidationMatched (trader : Address) (id : Hash) (fill price : Amount) (time : Timestamp)
  | matchingError (id : Hash) (info : String)
  deriving DecidableEq, Inhabited

inductive IocOrderBookEvent where
  | orderPlaced (trader : Address) (id : Hash) (order : IocOrder) (time : Timestamp)
  deriving DecidableEq, Inhabited

/-- Amounts are what the event adds or takes away. -/
inductive MarginAccountEvent where
  | marginAdded (trader : Address) (collateral : UInt64) (amount : Amount) (time : Timestamp)
  | marginRemoved (trader : Address) (collateral : UInt64) (amount : Amount) (time : Timestamp)
  | marginReserved (trader : Address) (amount : Amount)
  | marginReleased (trader : Address) (amount : Amount)
  | pnlRealized (trader : Address) (pnl : Amount) (time : Timestamp)
  deriving DecidableEq, Inhabited

/-- A position after a trade: `traded` is the signed size of the trade, `size` that of the position
it leaves. -/
structure PositionChange where
  trader : Address
  market : MarketId
  traded : Amount
  price : Amount
  realizedPnl : Amount
  size : Amount
  openNotional : Amount
  fee : Amount
  time : Timestamp
  deriving DecidableEq, Inhabited

inductive ClearingHouseEvent where
  | fundingRateUpdated (market : MarketId) (premium underlyingPrice cumulative : Amount)
      (nextFundingTime time : Timestamp)
  | fundingPaid (trader : Address) (market : MarketId) (payment cumulative : Amount)
  | positionModified (change : PositionChange)
  | positionLiquidated (change : PositionChange)
  | premiumSampled (premiumIndex : Amount) (nextSampleTime : Timestamp)
  | premiumSampleSkipped (nextSampleTime : Timestamp)
  deriving DecidableEq, Inhabited

inductive ContractEvent where
  | orderBook (event : OrderBookEvent)
  | iocOrderBook (event : IocOrderBookEvent)
  | marginAccount (event : MarginAccountEvent)
  | clearingHouse (event : ClearingHouseEvent)
  deriving DecidableEq, Inhabited

def OrderBookEvent.name : OrderBookEvent → String
  | .orderPlaced .. => "OrderPlaced"
  | .orderAccepted .. => "OrderAccepted"
  | .orderCancelled .. => "OrderCancelled"
  | .cancelAccepted .. => "OrderCancelAccepted"
  | .ordersMatched .. => "OrdersMatched"
  | .liquidationMatched .. => "LiquidationOrderMatched"
  | .matchingError .. => "OrderMatchingError"

def IocOrderBookEvent.name : IocOrderBookEvent → String
  | .orderPlaced .. => "OrderPlaced"

def MarginAccountEvent.name : MarginAccountEvent → String
  | .marginAdded .. => "MarginAdded"
  | .marginRemoved .. => "MarginRemoved"
  | .marginReserved .. => "MarginReserved"
  | .marginReleased .. => "MarginReleased"
  | .pnlRealized .. => "PnLRealized"

def MarginAccountEvent.trader : MarginAccountEvent → Address
  | .marginAdded trader .. => trader
  | .marginRemoved trader .. => trader
  | .marginReserved trader _ => trader
  | .marginReleased trader _ => trader
  | .pnlRealized trader .. => trader

def ClearingHouseEvent.name : ClearingHouseEvent → String
  | .fundingRateUpdated .. => "FundingRateUpdated"
  | .fundingPaid .. => "FundingPaid"
  | .positionModified _ => "PositionModified"
  | .positionLiquidated _ => "PositionLiquidated"
  | .premiumSampled .. => "PISampledUpdated"
  | .premiumSampleSkipped _ => "PISampleSkipped"

namespace ContractEvent

/-- The contract that announces the event. -/
def kind : ContractEvent → ContractKind
  | .orderBook _ => .orderBook
  | .iocOrderBook _ => .iocOrderBook
  | .marginAccount _ => .marginAccount
  | .clearingHouse _ => .clearingHouse

def name : ContractEvent → String
  | .orderBook e => e.name
  | .iocOrderBook e => e.name
  | .marginAccount e => e.name
  | .clearingHouse e => e.name

end ContractEvent

/-- The topic of an event: the digest of its name. -/
def eventTopic (name : String) : Hash := Sha256.digest (utf8 name.toList)

end PerpExchange
