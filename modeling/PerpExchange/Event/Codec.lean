import PerpExchange.Event.Basic
import PerpExchange.Order.Codec

/-!
Events as JSON. An event is a variant named for it, with its fields as a record.
-/

namespace PerpExchange

open Json

def ContractKind.name : ContractKind → String
  | .orderBook => "OrderBook"
  | .iocOrderBook => "IocOrderBook"
  | .marginAccount => "MarginAccount"
  | .clearingHouse => "ClearingHouse"

instance : JsonCodec ContractKind where
  encode k := ofString k.name
  decode? := choice? ContractKind.name [.orderBook, .iocOrderBook, .marginAccount, .clearingHouse]

namespace OrderBookEvent

def fields : OrderBookEvent → List (String × Json)
  | .orderPlaced trader id order time => [
    ("trader", encode trader), ("order_hash", encode id), ("order", encode order),
    ("timestamp", encode time)]
  | .orderAccepted trader id order time => [
    ("trader", encode trader), ("order_hash", encode id), ("order", encode order),
    ("timestamp", encode time)]
  | .orderCancelled trader id time => [
    ("trader", encode trader), ("order_hash", encode id), ("timestamp", encode time)]
  | .cancelAccepted trader id time => [
    ("trader", encode trader), ("order_hash", encode id), ("timestamp", encode time)]
  | .ordersMatched longId shortId fill price time => [
    ("long_order_hash", encode longId), ("short_order_hash", encode shortId),
    ("fill_amount", encode fill), ("price", encode price), ("timestamp", encode time)]
  | .liquidationMatched trader id fill price time => [
    ("trader", encode trader), ("order_hash", encode id), ("fill_amount", encode fill),
    ("price", encode price), ("timestamp", encode time)]
  | .matchingError id info => [("order_hash", encode id), ("err", encode info)]

def ofPayload? (name : String) (p : Json) : Option OrderBookEvent :=
  match name with
  | "OrderPlaced" => do
    let f ← fields? ["trader", "order_hash", "order", "timestamp"] p
    return .orderPlaced (← f.get? "trader") (← f.get? "order_hash") (← f.get? "order")
      (← f.get? "timestamp")
  | "OrderAccepted" => do
    let f ← fields? ["trader", "order_hash", "order", "timestamp"] p
    return .orderAccepted (← f.get? "trader") (← f.get? "order_hash") (← f.get? "order")
      (← f.get? "timestamp")
  | "OrderCancelled" => do
    let f ← fields? ["trader", "order_hash", "timestamp"] p
    return .orderCancelled (← f.get? "trader") (← f.get? "order_hash") (← f.get? "timestamp")
  | "OrderCancelAccepted" => do
    let f ← fields? ["trader", "order_hash", "timestamp"] p
    return .cancelAccepted (← f.get? "trader") (← f.get? "order_hash") (← f.get? "timestamp")
  | "OrdersMatched" => do
    let f ← fields? ["long_order_hash", "short_order_hash", "fill_amount", "price", "timestamp"] p
    return .ordersMatched (← f.get? "long_order_hash") (← f.get? "short_order_hash")
      (← f.get? "fill_amount") (← f.get? "price") (← f.get? "timestamp")
  | "LiquidationOrderMatched" => do
    let f ← fields? ["trader", "order_hash", "fill_amount", "price", "timestamp"] p
    return .liquidationMatched (← f.get? "trader") (← f.get? "order_hash")
      (← f.get? "fill_amount") (← f.get? "price") (← f.get? "timestamp")
  | "OrderMatchingError" => do
    let f ← fields? ["order_hash", "err"] p
    return .matchingError (← f.get? "order_hash") (← f.get? "err")
  | _ => none

end OrderBookEvent

instance : JsonCodec OrderBookEvent where
  encode e := ofVariant e.name (ofFields e.fields)
  decode? j := (payload? j).bind fun (name, p) => OrderBookEvent.ofPayload? name p

instance : JsonCodec IocOrderBookEvent where
  encode
    | .orderPlaced trader id order time => ofVariant "OrderPlaced" (ofFields [
      ("trader", encode trader), ("order_hash", encode id), ("order", encode order),
      ("timestamp", encode time)])
  decode? j :=
    match payload? j with
    | some ("OrderPlaced", p) => do
      let f ← fields? ["trader", "order_hash", "order", "timestamp"] p
      return .orderPlaced (← f.get? "trader") (← f.get? "order_hash") (← f.get? "order")
        (← f.get? "timestamp")
    | _ => none

namespace MarginAccountEvent

def fields : MarginAccountEvent → List (String × Json)
  | .marginAdded trader collateral amount time => [
    ("trader", encode trader), ("collateral", encode collateral), ("amount", encode amount),
    ("timestamp", encode time)]
  | .marginRemoved trader collateral amount time => [
    ("trader", encode trader), ("collateral", encode collateral), ("amount", encode amount),
    ("timestamp", encode time)]
  | .marginReserved trader amount => [("trader", encode trader), ("amount", encode amount)]
  | .marginReleased trader amount => [("trader", encode trader), ("amount", encode amount)]
  | .pnlRealized trader pnl time => [
    ("trader", encode trader), ("realized_pnl", encode pnl), ("timestamp", encode time)]

def ofPayload? (name : String) (p : Json) : Option MarginAccountEvent :=
  match name with
  | "MarginAdded" => do
    let f ← fields? ["trader", "collateral", "amount", "timestamp"] p
    return .marginAdded (← f.get? "trader") (← f.get? "collateral") (← f.get? "amount")
      (← f.get? "timestamp")
  | "MarginRemoved" => do
    let f ← fields? ["trader", "collateral", "amount", "timestamp"] p
    return .marginRemoved (← f.get? "trader") (← f.get? "collateral") (← f.get? "amount")
      (← f.get? "timestamp")
  | "MarginReserved" => do
    let f ← fields? ["trader", "amount"] p
    return .marginReserved (← f.get? "trader") (← f.get? "amount")
  | "MarginReleased" => do
    let f ← fields? ["trader", "amount"] p
    return .marginReleased (← f.get? "trader") (← f.get? "amount")
  | "PnLRealized" => do
    let f ← fields? ["trader", "realized_pnl", "timestamp"] p
    return .pnlRealized (← f.get? "trader") (← f.get? "realized_pnl") (← f.get? "timestamp")
  | _ => none

end MarginAccountEvent

instance : JsonCodec MarginAccountEvent where
  encode e := ofVariant e.name (ofFields e.fields)
  decode? j := (payload? j).bind fun (name, p) => MarginAccountEvent.ofPayload? name p

instance : JsonCodec PositionChange where
  encode c := ofFields [
    ("trader", encode c.trader), ("market", encode c.market), ("base_asset", encode c.traded),
    ("price", encode c.price), ("realized_pnl", encode c.realizedPnl), ("size", encode c.size),
    ("open_notional", encode c.openNotional), ("fee", encode c.fee), ("timestamp", encode c.time)]
  decode? j := do
    let f ← fields? ["trader", "market", "base_asset", "price", "realized_pnl", "size",
      "open_notional", "fee", "timestamp"] j
    return {
      trader := ← f.get? "trader", market := ← f.get? "market", traded := ← f.get? "base_asset"
      price := ← f.get? "price", realizedPnl := ← f.get? "realized_pnl", size := ← f.get? "size"
      openNotional := ← f.get? "open_notional", fee := ← f.get? "fee"
      time := ← f.get? "timestamp" }

namespace ClearingHouseEvent

def payload : ClearingHouseEvent → Json
  | .fundingRateUpdated market premium underlyingPrice cumulative nextFundingTime time => ofFields [
    ("market", encode market), ("premium_fraction", encode premium),
    ("underlying_price", encode underlyingPrice),
    ("cumulative_premium_fraction", encode cumulative),
    ("next_funding_time", encode nextFundingTime), ("timestamp", encode time)]
  | .fundingPaid trader market payment cumulative => ofFields [
    ("trader", encode trader), ("market", encode market),
    ("taker_funding_payment", encode payment), ("cumulative_premium_fraction", encode cumulative)]
  | .positionModified change => encode change
  | .positionLiquidated change => encode change
  | .premiumSampled premiumIndex nextSampleTime => ofFields [
    ("premium_index", encode premiumIndex), ("next_sample_time", encode nextSampleTime)]
  | .premiumSampleSkipped nextSampleTime => ofFields [("next_sample_time", encode nextSampleTime)]

def ofPayload? (name : String) (p : Json) : Option ClearingHouseEvent :=
  match name with
  | "FundingRateUpdated" => do
    let f ← fields? ["market", "premium_fraction", "underlying_price",
      "cumulative_premium_fraction", "next_funding_time", "timestamp"] p
    return .fundingRateUpdated (← f.get? "market") (← f.get? "premium_fraction")
      (← f.get? "underlying_price") (← f.get? "cumulative_premium_fraction")
      (← f.get? "next_funding_time") (← f.get? "timestamp")
  | "FundingPaid" => do
    let f ← fields? ["trader", "market", "taker_funding_payment", "cumulative_premium_fraction"] p
    return .fundingPaid (← f.get? "trader") (← f.get? "market") (← f.get? "taker_funding_payment")
      (← f.get? "cumulative_premium_fraction")
  | "PositionModified" => (decodeAs PositionChange p).map .positionModified
  | "PositionLiquidated" => (decodeAs PositionChange p).map .positionLiquidated
  | "PISampledUpdated" => do
    let f ← fields? ["premium_index", "next_sample_time"] p
    return .premiumSampled (← f.get? "premium_index") (← f.get? "next_sample_time")
  | "PISampleSkipped" => do
    let f ← fields? ["next_sample_time"] p
    return .premiumSampleSkipped (← f.get? "next_sample_time")
  | _ => none

end ClearingHouseEvent

instance : JsonCodec ClearingHouseEvent where
  encode e := ofVariant e.name e.payload
  decode? j := (payload? j).bind fun (name, p) => ClearingHouseEvent.ofPayload? name p

/-- The event without the name of its contract, as a log carries it. -/
def ContractEvent.inner : ContractEvent → Json
  | .orderBook e => encode e
  | .iocOrderBook e => encode e
  | .marginAccount e => encode e
  | .clearingHouse e => encode e

/-- The event of a contract that a log carries. -/
def ContractEvent.ofInner? (j : Json) : ContractKind → Option ContractEvent
  | .orderBook => (decodeAs OrderBookEvent j).map .orderBook
  | .iocOrderBook => (decodeAs IocOrderBookEvent j).map .iocOrderBook
  | .marginAccount => (decodeAs MarginAccountEvent j).map .marginAccount
  | .clearingHouse => (decodeAs ClearingHouseEvent j).map .clearingHouse

instance : JsonCodec ContractEvent where
  encode e := ofVariant e.kind.name e.inner
  decode? j := do
    let (name, p) ← payload? j
    let kind ← [ContractKind.orderBook, .iocOrderBook, .marginAccount, .clearingHouse].find?
      fun k => k.name = name
    ContractEvent.ofInner? p kind

end PerpExchange
