import PerpExchange.Ingest
import PerpExchange.Matching.BlockRun
import PerpExchange.Snapshot.Snapshotter

/-!
A node: it takes the batches of the chain, keeps the store and tells its feeds, runs for every
accepted block, and takes snapshots it can be restarted from.
-/

namespace PerpExchange

structure Node where
  contracts : ContractAddresses
  params : ProtocolParams
  intake : Intake
  desk : Desk
  snapshotter : Snapshotter

namespace Node

def store (n : Node) : Store := n.intake.store

def withStore (n : Node) (store : Store) : Node := { n with intake := { n.intake with store } }

/-- Takes logs from the head of the chain. -/
def takeHead (n : Node) (logs : List Log) : Node :=
  { n with intake := n.intake.headLogs n.contracts logs }

/-- Takes the logs of accepted blocks. -/
def takeAccepted (n : Node) (logs : List Log) (replaying : Bool) : Checked Node := do
  return { n with intake := ← n.intake.acceptedLogs n.contracts n.params logs replaying }

/-- Replays accepted blocks that come after a given one, and answers how many there were. -/
def replay (n : Node) (batches : List ChainBatch) (after : Option BlockNumber) :
    Checked (Node × Nat) := do
  let (intake, replayed) ← n.intake.replay n.contracts n.params batches after
  return ({ n with intake }, replayed)

/-- Accepts a block, and answers how many orders left. -/
def accept (n : Node) (block : BlockNumber) (time : Timestamp) : Node × Nat :=
  let (store, removed) := n.store.accept block time
  (n.withStore store, removed)

/-- Takes a snapshot if an accepted block calls for one. -/
def snapshotAt (n : Node) (block : BlockNumber) :
    Node × Except SnapshotError (Option SnapshotInfo) :=
  let (snapshotter, result) := n.snapshotter.onAccepted n.store block
  ({ n with snapshotter }, result)

/-- What a batch does before the run it calls for. Answers how many orders left. A snapshot that
cannot be stored holds nothing up. -/
def takeBatch (n : Node) (b : ChainBatch) : Checked (Node × Nat) := do
  if !b.accepted then return (n.takeHead b.logs, 0)
  let n ← n.takeAccepted b.logs false
  let (n, removed) := n.accept b.block b.time
  return ((n.snapshotAt b.block).1, removed)

def engine (n : Node) : Engine Desk :=
  ⟨Desk.executor, n.params, n.store, n.intake.metrics, n.desk⟩

def withEngine (n : Node) (e : Engine Desk) : Node :=
  { n with desk := e.desk, intake := { n.intake with store := e.store, metrics := e.metrics } }

/-- Runs for a block. -/
def run (n : Node) (block : BlockNumber) (now : Timestamp) : Node × Checked RunOutcome :=
  let (e, outcome) := n.engine.run block now
  (n.withEngine e, outcome)

/-- Hands the instructions that wait to the chain. -/
def drain (n : Node) : Node × List Instruction :=
  ({ n with desk := { n.desk with queue := [] } }, n.desk.queue)

/-- Starts again from the newest snapshot, or from an empty store if there is none. If the snapshot
cannot be used the node goes on as it was. -/
def restart (n : Node) : Checked (Node × Except SnapshotError (Option BlockNumber)) := do
  match ← Store.empty.recover n.snapshotter.storage with
  | (store, .ok block) => return (n.withStore store, .ok block)
  | (_, .error e) => return (n, .error e)

end Node

end PerpExchange
