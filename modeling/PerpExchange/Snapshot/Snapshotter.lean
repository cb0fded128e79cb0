import PerpExchange.Snapshot.Storage

/-!
Taking snapshots at regular blocks and keeping only the newest ones, and restoring a store from the
newest. A snapshot that is there but cannot be used is an error; older ones are never tried, and the
store is then left as it was.
-/

namespace PerpExchange

/-- Takes a snapshot at the accepted blocks that are multiples of an interval, or at none if that is
zero, and keeps a number of them, but at least one. -/
structure Snapshotter where
  storage : Storage
  interval : UInt64
  keep : Nat

namespace Snapshotter

/-- The oldest snapshot to keep, when there are more than are kept. -/
def oldestKept? (n : Snapshotter) : Option SnapshotInfo :=
  let infos := n.storage.infos
  let keep := max n.keep 1
  if infos.length ≤ keep then none else infos[infos.length - keep]?

/-- Deletes the snapshots that are too many. One that cannot be deleted stays. -/
def trim (n : Snapshotter) : Snapshotter :=
  match n.oldestKept? with
  | some oldest => { n with storage := (n.storage.deleteBefore oldest.block).1 }
  | none => n

/-- Stores a snapshot of a store for its last accepted block, and deletes those that are too old. -/
def take (n : Snapshotter) (s : Store) : Snapshotter × Except SnapshotError SnapshotInfo :=
  let stored : StoredSnapshot := ⟨s.lastAcceptedBlock, s.snapshot.toBytes⟩
  match n.storage.save stored with
  | (storage, .error e) => ({ n with storage }, .error e)
  | (storage, .ok ()) => ({ n with storage }.trim, .ok stored.info)

/-- Takes a snapshot if an accepted block calls for one. -/
def onAccepted (n : Snapshotter) (s : Store) (b : BlockNumber) :
    Snapshotter × Except SnapshotError (Option SnapshotInfo) :=
  if n.interval = 0 ∨ b % n.interval ≠ 0 then (n, .ok none)
  else
    let (n, result) := n.take s
    (n, result.map some)

end Snapshotter

namespace Store

/-- The state a stored snapshot restores, if it can be used. -/
def ofStored (stored : StoredSnapshot) : Checked (Except SnapshotError Store) := do
  match Snapshot.ofBytes stored.bytes with
  | .error why => return .error (.corrupted why)
  | .ok s =>
    if s.block ≠ stored.block then return .error (.corrupted (.misfiled stored.block s.block))
    match ← ofSnapshot s with
    | .error e => return .error (.corrupted (.refused e))
    | .ok store => return .ok store

/-- Restores the newest snapshot, and answers its block; without any snapshot the store stays. -/
def recover (s : Store) (storage : Storage) :
    Checked (Store × Except SnapshotError (Option BlockNumber)) := do
  match storage.latest with
  | .error .notFound => return (s, .ok none)
  | .error e => return (s, .error e)
  | .ok stored =>
    match ← ofStored stored with
    | .error e => return (s, .error e)
    | .ok restored => return (restored, .ok (some stored.block))

end Store

end PerpExchange
