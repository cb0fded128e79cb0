import PerpExchange.Json.Codec
import PerpExchange.Json.Reader
import PerpExchange.Json.Writer
import PerpExchange.Order.Basic

/-!
Orders as JSON.
-/

namespace PerpExchange

open Json

def Side.name : Side → String
  | .long => "long"
  | .short => "short"

instance : JsonCodec Side where
  encode s := ofString s.name
  decode? := choice? Side.name [.long, .short]

def OrderKind.name : OrderKind → String
  | .limit => "limit"
  | .ioc => "ioc"
  | .signed => "signed"

instance : JsonCodec OrderKind where
  encode k := ofString k.name
  decode? := choice? OrderKind.name [.limit, .ioc, .signed]

def OrderStatus.name : OrderStatus → String
  | .placed => "placed"
  | .filled => "filled"
  | .cancelled => "cancelled"
  | .executionFailed => "execution_failed"

instance : JsonCodec OrderStatus where
  encode s := ofString s.name
  decode? := choice? OrderStatus.name [.placed, .filled, .cancelled, .executionFailed]

namespace OrderTerms

def fieldNames : List String :=
  ["market", "trader", "base_asset_quantity", "price", "salt", "reduce_only"]

def fields (t : OrderTerms) : List (String × Json) := [
  ("market", encode t.market), ("trader", encode t.trader), ("base_asset_quantity", encode t.size),
  ("price", encode t.price), ("salt", encode t.salt), ("reduce_only", encode t.reduceOnly)]

def ofFields? (f : Fields) : Option OrderTerms :=
  return {
    market := ← f.get? "market", trader := ← f.get? "trader"
    size := ← f.get? "base_asset_quantity", price := ← f.get? "price", salt := ← f.get? "salt"
    reduceOnly := ← f.get? "reduce_only" }

end OrderTerms

instance : JsonCodec LimitOrder where
  encode o := ofFields (o.fields ++ [("post_only", encode o.postOnly)])
  decode? j := do
    let f ← fields? (OrderTerms.fieldNames ++ ["post_only"]) j
    return { ← OrderTerms.ofFields? f with postOnly := ← f.get? "post_only" }

instance : JsonCodec IocOrder where
  encode o := ofFields (("expire_at", encode o.expireAt) :: o.fields)
  decode? j := do
    let f ← fields? ("expire_at" :: OrderTerms.fieldNames) j
    return { ← OrderTerms.ofFields? f with expireAt := ← f.get? "expire_at" }

instance : JsonCodec SignedOrder where
  encode o :=
    ofFields (("expire_at", encode o.expireAt) :: o.fields ++ [("post_only", encode o.postOnly)])
  decode? j := do
    let f ← fields? ("expire_at" :: OrderTerms.fieldNames ++ ["post_only"]) j
    return { ← OrderTerms.ofFields? f with
      expireAt := ← f.get? "expire_at", postOnly := ← f.get? "post_only" }

instance : JsonCodec RawOrder where
  encode
    | .limit o => ofVariant "limit" (encode o)
    | .ioc o => ofVariant "ioc" (encode o)
    | .signed o => ofVariant "signed" (encode o)
  decode? j :=
    match payload? j with
    | some ("limit", p) => (decodeAs LimitOrder p).map .limit
    | some ("ioc", p) => (decodeAs IocOrder p).map .ioc
    | some ("signed", p) => (decodeAs SignedOrder p).map .signed
    | _ => none

/-- The payload text of an order. -/
def RawOrder.toText (r : RawOrder) : String := Json.write (encode r)

def RawOrder.ofText? (s : String) : Option RawOrder := (read? s).bind (decodeAs RawOrder)

/-- The payload of an order. -/
def RawOrder.toBytes (r : RawOrder) : List UInt8 := utf8 r.toText.toList

def RawOrder.ofBytes? (bytes : List UInt8) : Option RawOrder :=
  (readBytes? bytes).bind (decodeAs RawOrder)

/-- The remark is left out when it is empty. -/
instance : JsonCodec Lifecycle where
  encode l := ofFields ([("block_number", encode l.block), ("status", encode l.status)] ++
    if l.info = "" then [] else [("info", encode l.info)])
  decode? j := do
    let f ← fields? ["block_number", "status", "info"] j
    return { block := ← f.get? "block_number", status := ← f.get? "status"
             info := ← f.getD? "info" "" }

instance : JsonCodec Order where
  encode o := ofFields [
    ("id", encode o.id), ("market", encode o.market), ("side", encode o.side),
    ("trader", encode o.trader), ("base_asset_quantity", encode o.size),
    ("filled_base_asset_quantity", encode o.filled), ("salt", encode o.salt),
    ("price", encode o.price), ("reduce_only", encode o.reduceOnly),
    ("block_number", encode o.block), ("lifecycle", encode o.lifecycle),
    ("raw_order", encode o.raw)]
  decode? j := do
    let f ← fields? ["id", "market", "side", "trader", "base_asset_quantity",
      "filled_base_asset_quantity", "salt", "price", "reduce_only", "block_number", "lifecycle",
      "raw_order"] j
    return {
      id := ← f.get? "id", market := ← f.get? "market", side := ← f.get? "side"
      trader := ← f.get? "trader", size := ← f.get? "base_asset_quantity"
      filled := ← f.get? "filled_base_asset_quantity", salt := ← f.get? "salt"
      price := ← f.get? "price", reduceOnly := ← f.get? "reduce_only"
      block := ← f.get? "block_number", lifecycle := ← f.get? "lifecycle"
      raw := ← f.get? "raw_order" }

end PerpExchange
