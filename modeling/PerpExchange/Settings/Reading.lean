import PerpExchange.Settings.Basic
import PerpExchange.Settings.Tree

/-!
Settings out of a tree. A record is a table, in which members it has no field for count for nothing,
or a list of its fields in order, which may stop early where the rest has defaults, and may go on
with anything.
-/

namespace PerpExchange

open Settings

/-- Types that a value of a setting can be taken as. -/
class FromTree (α : Type) where
  ofTree? : Tree → Option α

export FromTree (ofTree?)

namespace Settings.Tree

/-- The fields of a record, by name. -/
def fields? (names : List String) : Tree → Option (List (String × Tree))
  | .table members => some members
  | .list runs => some (names.zip (firstItems names.length runs))
  | _ => none

/-- A field that has to be there. -/
def field? {α : Type} [FromTree α] (fields : List (String × Tree)) (name : String) : Option α :=
  (fields.lookup name).bind ofTree?

/-- A field with a default for when it is missing. -/
def fieldD? {α : Type} [FromTree α] (fields : List (String × Tree)) (name : String) (default : α) :
    Option α :=
  match fields.lookup name with
  | some tree => ofTree? tree
  | none => some default

end Settings.Tree

open Tree

instance : FromTree UInt64 := ⟨word?⟩

instance : FromTree UInt32 where
  ofTree? t := (word? t).bind fun n => if n.toNat < UInt32.size then some n.toUInt32 else none

instance : FromTree String := ⟨text?⟩

instance : FromTree Amount := ⟨fun t => (text? t).bind Amount.ofText?⟩

instance (n : Nat) : FromTree (Bytes n) where
  ofTree? t := (text? t).bind fun s => (Bytes.parse n s).toOption

instance {α : Type} [FromTree α] : FromTree (Option α) where
  ofTree?
    | .nothing => some none
    | t => (ofTree? t).map some

instance {α : Type} [FromTree α] : FromTree (List α) where
  ofTree?
    | .list runs =>
      (runs.mapM fun (n, item) => (ofTree? item).map (List.replicate n)).map List.flatten
    | _ => none

/-- The name of a market is a number as loosely as any. -/
instance {α : Type} [FromTree α] : FromTree (Map MarketId α) where
  ofTree?
    | .table members => members.foldlM (fun m (name, value) => do
        return m.insert (← ofTree? (.text name)) (← ofTree? value)) ∅
    | _ => none

instance : FromTree ContractAddresses where
  ofTree? t := do
    let f ← fields? ["order_book", "ioc_order_book", "margin_account", "clearing_house"] t
    return {
      orderBook := ← field? f "order_book", iocOrderBook := ← field? f "ioc_order_book"
      marginAccount := ← field? f "margin_account", clearingHouse := ← field? f "clearing_house" }

instance : FromTree Collateral where
  ofTree? t := do
    let f ← fields? ["price", "weight", "decimals"] t
    return { price := ← field? f "price", weight := ← field? f "weight"
             decimals := ← field? f "decimals" }

instance : FromTree PriceBounds where
  ofTree? t := do
    let f ← fields? ["upper", "lower"] t
    return { upper := ← field? f "upper", lower := ← field? f "lower" }

instance : FromTree MarketParams where
  ofTree? t := do
    let f ← fields? ["oracle_price", "mid_price", "acceptable_bounds", "liquidation_bounds",
      "max_liquidation_ratio", "min_size_requirement"] t
    return {
      oraclePrice := ← field? f "oracle_price", midPrice := ← field? f "mid_price"
      acceptableBounds := ← field? f "acceptable_bounds"
      liquidationBounds := ← field? f "liquidation_bounds"
      maxLiquidationRatio := ← field? f "max_liquidation_ratio"
      minSizeRequirement := ← field? f "min_size_requirement" }

instance : FromTree ProtocolParams where
  ofTree? t := do
    let f ← fields? ["markets", "collaterals", "maintenance_margin", "min_allowable_margin",
      "taker_fee"] t
    return {
      markets := ← fieldD? f "markets" ∅, collaterals := ← fieldD? f "collaterals" []
      maintenanceMargin := ← field? f "maintenance_margin"
      minAllowableMargin := ← field? f "min_allowable_margin", takerFee := ← field? f "taker_fee" }

instance : FromTree Settings where
  ofTree? t := do
    let f ← fields? ["contracts", "matching_ticker_ms", "feed_capacity", "control_channel_size",
      "snapshot_interval_blocks", "max_snapshots_to_keep", "snapshot_dir", "protocol"] t
    let d : Settings := default
    return {
      contracts := ← fieldD? f "contracts" d.contracts
      tickerMs := ← fieldD? f "matching_ticker_ms" d.tickerMs
      feedCapacity := ← fieldD? f "feed_capacity" d.feedCapacity
      controlChannelSize := ← fieldD? f "control_channel_size" d.controlChannelSize
      snapshotInterval := ← fieldD? f "snapshot_interval_blocks" d.snapshotInterval
      snapshotsToKeep := ← fieldD? f "max_snapshots_to_keep" d.snapshotsToKeep
      snapshotDir := ← fieldD? f "snapshot_dir" d.snapshotDir
      protocol := ← fieldD? f "protocol" d.protocol }

end PerpExchange
