import PerpExchange.Event.Codec

/-!
Logs and the batches they arrive in. A log carries one event: its first topic is the topic of the
event, and its data is the event as JSON. A log of a block that left the chain comes again with the
removed flag.
-/

namespace PerpExchange

open Json

structure Log where
  address : Address
  topics : List Hash
  data : List UInt8
  block : BlockNumber
  index : UInt64
  transaction : Hash
  removed : Bool
  deriving DecidableEq, Inhabited

/-- Why a log carries no event of a contract. -/
inductive LogError where
  | noTopic
  | badPayload
  | wrongTopic (event : String) (found : Hash)
  deriving DecidableEq

/-- The message of an error; that of a bad payload is the reader's own affair. -/
def LogError.message? : LogError → Option String
  | .noTopic => some "Log has no topics"
  | .badPayload => none
  | .wrongTopic event found => some ("Topic mismatch for " ++ event ++ ": found " ++ found.toText)

namespace Log

/-- Logs go by block, and within a block by index. -/
def before (a b : Log) : Bool := a.block < b.block || a.block == b.block && a.index ≤ b.index

/-- The same log, taken back. -/
def takenBack (l : Log) : Log := { l with removed := true }

/-- The event a log of a contract carries. -/
def event (kind : ContractKind) (l : Log) : Except LogError ContractEvent :=
  match l.topics with
  | [] => .error .noTopic
  | topic :: _ =>
    match (readBytes? l.data).bind fun j => ContractEvent.ofInner? j kind with
    | none => .error .badPayload
    | some e => if eventTopic e.name = topic then .ok e else .error (.wrongTopic e.name topic)

end Log

/-- The log that announces an event. -/
def ContractEvent.toLog (e : ContractEvent) (address : Address) (block : BlockNumber)
    (index : UInt64) : Log :=
  { address, block, index
    topics := [eventTopic e.name]
    data := utf8 (writeOnto e.inner [])
    transaction := Bytes.zero 32
    removed := false }

/-- Bytes as JSON: a text in hexadecimal. -/
def Json.ofBytes (bs : List UInt8) : Json := ofString (Hex.write bs)

def Json.bytes? (j : Json) : Option (List UInt8) := (string? j).bind fun s => (Hex.read s).toOption

instance : JsonCodec Log where
  encode l := ofFields [
    ("address", encode l.address), ("topics", encode l.topics), ("data", ofBytes l.data),
    ("block_number", encode l.block), ("log_index", encode l.index),
    ("tx_hash", encode l.transaction), ("removed", encode l.removed)]
  decode? j := do
    let f ← fields? ["address", "topics", "data", "block_number", "log_index", "tx_hash",
      "removed"] j
    return {
      address := ← f.get? "address", topics := ← f.get? "topics"
      data := ← (f.given.lookup "data").bind bytes?, block := ← f.get? "block_number"
      index := ← f.get? "log_index", transaction := ← f.getD? "tx_hash" (Bytes.zero 32)
      removed := ← f.getD? "removed" false }

/-- The logs of one block. A block is accepted once it cannot leave the chain any more. -/
structure ChainBatch where
  accepted : Bool
  block : BlockNumber
  time : Timestamp
  logs : List Log
  deriving Inhabited

instance : JsonCodec ChainBatch where
  encode b := ofFields [
    ("accepted", encode b.accepted), ("block_number", encode b.block),
    ("block_timestamp", encode b.time), ("logs", encode b.logs)]
  decode? j := do
    let f ← fields? ["accepted", "block_number", "block_timestamp", "logs"] j
    return {
      accepted := ← f.get? "accepted", block := ← f.get? "block_number"
      time := ← f.get? "block_timestamp", logs := ← f.getD? "logs" [] }

end PerpExchange
