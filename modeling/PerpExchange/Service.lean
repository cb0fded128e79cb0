import PerpExchange.Json.Reader
import PerpExchange.Node
import PerpExchange.Settings.Sources
import PerpExchange.Snapshot.Storage
import PerpExchange.Timetable

/-!
A node as a service: it starts from its settings and the newest snapshot, takes one batch of the
chain a line, and hands out the instructions of every run. Lines that hold no batch are passed over.
A run that stops at a fault ends the service, and so does a batch that cannot be taken.
-/

namespace PerpExchange

/-- How a service ended before its lines did. -/
inductive ServiceFailure where
  | refused
  | crashed
  /-- The system ended the process. -/
  | killed
  deriving DecidableEq

namespace ServiceFailure

/-- The exit code of a process that ends so. One that is ended has none of its own. -/
def exitCode? : ServiceFailure → Option Nat
  | .refused => some 1
  | .crashed => some 101
  | .killed => none

/-- How a service ends that meets a fault outside of a run. -/
def ofFault : Fault → ServiceFailure
  | .outOfMemory => .killed
  | _ => .crashed

end ServiceFailure

/-- What a service tells about its work, the last first. -/
inductive ServiceNotice where
  | malformedLine
  | ordersRemoved (block : BlockNumber) (count : Nat)
  | instruction (block : BlockNumber) (instruction : Instruction)
  deriving DecidableEq

/-- A running service. -/
structure Service where
  node : Node
  /-- Whether runs can be asked for. -/
  takesRuns : Bool
  notices : List ServiceNotice

/-- A service at its start, with the block it goes on after. -/
structure ServiceStart where
  service : Service
  resumedAfter : Option BlockNumber

namespace Service

/-- The characters that count as blank, of any script. -/
def isBlankChar (c : Char) : Bool :=
  let n := c.toNat
  (9 ≤ n && n ≤ 13) || n = 0x20 || n = 0x85 || n = 0xA0 || n = 0x1680 ||
    (0x2000 ≤ n && n ≤ 0x200A) || n = 0x2028 || n = 0x2029 || n = 0x202F || n = 0x205F || n = 0x3000

/-- A node that has just been set up. -/
def freshNode (s : Settings) (storage : Storage) : Node where
  contracts := s.contracts
  params := s.protocol
  intake := ⟨.empty, default, .new s.feedCapacity.toNat, .new s.feedCapacity.toNat⟩
  desk := ⟨[], none, [], []⟩
  snapshotter := ⟨storage, s.snapshotInterval, s.snapshotsToKeep.toNat⟩

/-- The storage that settings ask for, given what is in the directory they name. -/
def storageFor (s : Settings) (directory : Directory) : Except ServiceFailure Storage :=
  match s.snapshotDir.map SnapshotPlace.ofPath with
  | some .kept => .ok (.directory directory)
  | some .refused => .error .refused
  | some .lost | none => .ok (.memory ∅)

/-- Starts a service from its settings and what is stored where they say. -/
def start (s : Settings) (directory : Directory) : Except ServiceFailure ServiceStart := do
  let storage ← storageFor s directory
  match (freshNode s storage).restart with
  | .error fault => .error (.ofFault fault)
  | .ok (_, .error _) => .error .refused
  | .ok (node, .ok resumedAfter) =>
    if Timetable.maxRoom < s.controlChannelSize.toNat then .error .crashed
    else .ok ⟨⟨node, s.tickerMs ≠ 0, []⟩, resumedAfter⟩

def note (s : Service) (n : ServiceNotice) : Service := { s with notices := n :: s.notices }

/-- Runs for an accepted batch and hands out the instructions. -/
def runFor (s : Service) (b : ChainBatch) : Service × Option ServiceFailure :=
  if s.takesRuns then
    match s.node.run b.block b.time with
    | (node, .error _) => ({ s with node }, some .refused)
    | (node, .ok outcome) =>
      let (node, instructions) := node.drain
      (instructions.foldl (fun s i => s.note (.instruction outcome.block i)) { s with node }, none)
  else (s, some .refused)

/-- Takes a batch. -/
def takeBatch (s : Service) (b : ChainBatch) : Service × Option ServiceFailure :=
  match s.node.takeBatch b with
  | .error fault => (s, some (.ofFault fault))
  | .ok (node, removed) =>
    let s := { s with node }
    let s := if 0 < removed then s.note (.ordersRemoved b.block removed) else s
    if b.accepted then s.runFor b else (s, none)

/-- Takes a line. Blank lines are nothing. -/
def takeLine (s : Service) (line : String) : Service × Option ServiceFailure :=
  if line.toList.all isBlankChar then (s, none)
  else
    match (Json.read? line).bind (Json.decodeAs ChainBatch) with
    | some b => s.takeBatch b
    | none => (s.note .malformedLine, none)

/-- Takes lines, up to one that ends the service. -/
def takeLines (s : Service) : List String → Service × Option ServiceFailure
  | [] => (s, none)
  | line :: rest =>
    match s.takeLine line with
    | (s, none) => takeLines s rest
    | (s, some failure) => (s, some failure)

/-- What is stored in the directory of the service. -/
def directory? (s : Service) : Option Directory :=
  match s.node.snapshotter.storage with
  | .directory d => some d
  | .memory _ => none

end Service

end PerpExchange
