import PerpExchange.Contracts
import PerpExchange.Params

/-!
The settings of a node, each with a default.
-/

namespace PerpExchange

open Json

structure Settings where
  contracts : ContractAddresses
  tickerMs : UInt64
  feedCapacity : UInt64
  controlChannelSize : UInt64
  snapshotInterval : UInt64
  snapshotsToKeep : UInt64
  /-- Where snapshots are stored; without it they are kept in memory only. -/
  snapshotDir : Option String
  protocol : ProtocolParams

instance : Inhabited Settings := ⟨default, 5000, 1024, 64, 1000, 3, none, default⟩

instance : JsonCodec Settings where
  encode s := ofFields [
    ("contracts", encode s.contracts), ("matching_ticker_ms", encode s.tickerMs),
    ("feed_capacity", encode s.feedCapacity),
    ("control_channel_size", encode s.controlChannelSize),
    ("snapshot_interval_blocks", encode s.snapshotInterval),
    ("max_snapshots_to_keep", encode s.snapshotsToKeep),
    ("snapshot_dir", encode s.snapshotDir), ("protocol", encode s.protocol)]
  decode? j := do
    let f ← fields? ["contracts", "matching_ticker_ms", "feed_capacity", "control_channel_size",
      "snapshot_interval_blocks", "max_snapshots_to_keep", "snapshot_dir", "protocol"] j
    let d : Settings := default
    return {
      contracts := ← f.getD? "contracts" d.contracts
      tickerMs := ← f.getD? "matching_ticker_ms" d.tickerMs
      feedCapacity := ← f.getD? "feed_capacity" d.feedCapacity
      controlChannelSize := ← f.getD? "control_channel_size" d.controlChannelSize
      snapshotInterval := ← f.getD? "snapshot_interval_blocks" d.snapshotInterval
      snapshotsToKeep := ← f.getD? "max_snapshots_to_keep" d.snapshotsToKeep
      snapshotDir := ← f.getD? "snapshot_dir" d.snapshotDir
      protocol := ← f.getD? "protocol" d.protocol }

end PerpExchange
