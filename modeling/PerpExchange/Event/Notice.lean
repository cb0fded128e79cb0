import PerpExchange.Event.Log

/-!
What subscribers are told: the activity of traders, and the trades that move a market.
-/

namespace PerpExchange

open Json

/-- Whether the block of an event may still leave the chain. -/
inductive Confirmation where
  | head
  | accepted
  deriving DecidableEq, Inhabited

def Confirmation.name : Confirmation → String
  | .head => "head"
  | .accepted => "accepted"

instance : JsonCodec Confirmation where
  encode c := ofString c.name
  decode? := choice? Confirmation.name [.head, .accepted]

/-- An event that concerns a trader, and the order it is about, if it is about one. -/
structure TraderEvent where
  trader : Address
  orderId : Option Hash
  eventName : String
  block : BlockNumber
  confirmation : Confirmation
  transaction : Hash
  removed : Bool
  event : ContractEvent
  deriving DecidableEq

instance : JsonCodec TraderEvent where
  encode e := ofFields [
    ("trader", encode e.trader), ("order_id", encode e.orderId),
    ("event_name", encode e.eventName), ("block_number", encode e.block),
    ("block_status", encode e.confirmation), ("tx_hash", encode e.transaction),
    ("removed", encode e.removed), ("event", encode e.event)]
  decode? j := do
    let f ← fields? ["trader", "order_id", "event_name", "block_number", "block_status", "tx_hash",
      "removed", "event"] j
    return {
      trader := ← f.get? "trader", orderId := ← f.getD? "order_id" none
      eventName := ← f.get? "event_name", block := ← f.get? "block_number"
      confirmation := ← f.get? "block_status", transaction := ← f.get? "tx_hash"
      removed := ← f.get? "removed", event := ← f.get? "event" }

/-- A trade or a liquidation, with its signed size. -/
structure MarketFeedEvent where
  trader : Address
  market : MarketId
  size : Amount
  price : Amount
  isLiquidation : Bool
  block : BlockNumber
  confirmation : Confirmation
  transaction : Hash
  removed : Bool
  time : Timestamp
  deriving DecidableEq

instance : JsonCodec MarketFeedEvent where
  encode e := ofFields [
    ("trader", encode e.trader), ("market", encode e.market), ("size", encode e.size),
    ("price", encode e.price), ("is_liquidation", encode e.isLiquidation),
    ("block_number", encode e.block), ("block_status", encode e.confirmation),
    ("tx_hash", encode e.transaction), ("removed", encode e.removed), ("timestamp", encode e.time)]
  decode? j := do
    let f ← fields? ["trader", "market", "size", "price", "is_liquidation", "block_number",
      "block_status", "tx_hash", "removed", "timestamp"] j
    return {
      trader := ← f.get? "trader", market := ← f.get? "market", size := ← f.get? "size"
      price := ← f.get? "price", isLiquidation := ← f.get? "is_liquidation"
      block := ← f.get? "block_number", confirmation := ← f.get? "block_status"
      transaction := ← f.get? "tx_hash", removed := ← f.get? "removed"
      time := ← f.get? "timestamp" }

end PerpExchange
