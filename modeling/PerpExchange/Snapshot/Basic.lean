import PerpExchange.Json.Reader
import PerpExchange.Json.Writer
import PerpExchange.Store.Basic

/-!
Snapshots: all that a store holds, and the last accepted block it reflects. The books are left out,
since they follow from the orders. A store is made from a snapshot only if the snapshot is sound,
and then the last accepted block is never behind that of the snapshot.
-/

namespace PerpExchange

open Json

instance : JsonCodec StoreData where
  encode s := ofFields [
    ("orders", encode s.orders), ("traders", encode s.traders),
    ("last_price", encode s.lastPrice),
    ("cumulative_premium_fraction", encode s.cumulativePremium),
    ("next_funding_time", encode s.nextFundingTime),
    ("next_sample_pi_time", encode s.nextSampleTime),
    ("sample_pi_attempted_time", encode s.sampleAttemptedTime),
    ("last_accepted_block", encode s.lastAcceptedBlock)]
  decode? j := do
    let f ← fields? ["orders", "traders", "last_price", "cumulative_premium_fraction",
      "next_funding_time", "next_sample_pi_time", "sample_pi_attempted_time",
      "last_accepted_block"] j
    return {
      orders := ← f.get? "orders", traders := ← f.get? "traders"
      lastPrice := ← f.get? "last_price"
      cumulativePremium := ← f.get? "cumulative_premium_fraction"
      nextFundingTime := ← f.get? "next_funding_time"
      nextSampleTime := ← f.get? "next_sample_pi_time"
      sampleAttemptedTime := ← f.getD? "sample_pi_attempted_time" 0
      lastAcceptedBlock := ← f.get? "last_accepted_block" }

structure Snapshot where
  version : UInt32
  block : BlockNumber
  data : StoreData

instance : JsonCodec Snapshot where
  encode s := ofFields [
    ("version", encode s.version), ("block_number", encode s.block), ("state", encode s.data)]
  decode? j := do
    let f ← fields? ["version", "block_number", "state"] j
    return { version := ← f.get? "version", block := ← f.get? "block_number"
             data := ← f.get? "state" }

/-- Why a store cannot be made from a snapshot. -/
inductive SnapshotFlaw where
  | unsupportedVersion (version : UInt32)
  | misplacedOrder (key id : Hash)
  | noLifecycle (id : Hash)
  | overfilled (id : Hash)
  deriving DecidableEq

def SnapshotFlaw.message : SnapshotFlaw → String
  | .unsupportedVersion version => "unsupported version " ++ Decimal.text version.toNat
  | .misplacedOrder key id => "order keyed " ++ key.toText ++ " carries id " ++ id.toText
  | .noLifecycle id => "order " ++ id.toText ++ " has no lifecycle"
  | .overfilled id => "order " ++ id.toText ++ " is overfilled"

/-- Why a store refuses a request. -/
inductive StoreError where
  | unknownOrder (id : Hash)
  | invalidSnapshot (flaw : SnapshotFlaw)
  deriving DecidableEq

def StoreError.message : StoreError → String
  | .unknownOrder id => "Order not found: " ++ id.toText
  | .invalidSnapshot flaw => "Invalid snapshot: " ++ flaw.message

/-- What makes stored bytes useless as a snapshot. -/
inductive Corruption where
  | unreadable
  | unsupportedVersion (version : UInt32)
  | misfiled (storedFor held : BlockNumber)
  | refused (error : StoreError)
  deriving DecidableEq

/-- The message of a corruption; that of unreadable bytes is the reader's own affair. -/
def Corruption.message? : Corruption → Option String
  | .unreadable => none
  | .unsupportedVersion version =>
    some ("unsupported snapshot version " ++ Decimal.text version.toNat)
  | .misfiled storedFor held =>
    some ("snapshot stored for block " ++ Decimal.text storedFor.toNat ++
      " holds state of block " ++ Decimal.text held.toNat)
  | .refused error => some error.message

/-- Why an operation on snapshots fails. -/
inductive SnapshotError where
  | notFound
  | corrupted (why : Corruption)
  | io
  deriving DecidableEq

def SnapshotError.message? : SnapshotError → Option String
  | .notFound => some "No snapshot available"
  | .corrupted why => why.message?.map fun m => "Snapshot corrupted: " ++ m
  | .io => none

namespace Snapshot

/-- The version of snapshots that are written and read. -/
def currentVersion : UInt32 := 1

/-- The snapshot a JSON text holds, of any version. -/
def parse? (text : String) : Option Snapshot := (read? text).bind (decodeAs Snapshot)

def toBytes (s : Snapshot) : List UInt8 := utf8 (writeOnto (encode s) [])

def ofBytes (bytes : List UInt8) : Except Corruption Snapshot :=
  match (readBytes? bytes).bind (decodeAs Snapshot) with
  | none => .error .unreadable
  | some s => if s.version = currentVersion then .ok s else .error (.unsupportedVersion s.version)

end Snapshot

/-- Checks an order that a snapshot lists under a key. -/
def Order.checkRestored (o : Order) (key : Hash) : Checked (Except SnapshotFlaw Unit) := do
  if key ≠ o.id then return .error (.misplacedOrder key o.id)
  if o.lifecycle = [] then return .error (.noLifecycle key)
  let filled ← o.filled.abs
  let size ← o.size.abs
  if size < filled then return .error (.overfilled key)
  return .ok ()

/-- Checks orders in turn, up to the first that is unsound. -/
def checkRestored : List (Hash × Order) → Checked (Except SnapshotFlaw Unit)
  | [] => return .ok ()
  | (key, o) :: rest => do
    match ← o.checkRestored key with
    | .error flaw => return .error flaw
    | .ok () => checkRestored rest

namespace Store

def snapshot (s : Store) : Snapshot := ⟨Snapshot.currentVersion, s.lastAcceptedBlock, s.toStoreData⟩

/-- The books of a set of orders. -/
def booksOf (orders : Map Hash Order) : Map MarketId Book := orders.values.foldl listOrder ∅

/-- The store a snapshot holds, with its books made anew. -/
def ofSnapshot (s : Snapshot) : Checked (Except StoreError Store) := do
  if s.version ≠ Snapshot.currentVersion then
    return .error (.invalidSnapshot (.unsupportedVersion s.version))
  match ← checkRestored s.data.orders.toList with
  | .error flaw => return .error (.invalidSnapshot flaw)
  | .ok () => return .ok { s.data with
      lastAcceptedBlock := max s.data.lastAcceptedBlock s.block
      books := booksOf s.data.orders }

end Store

end PerpExchange
