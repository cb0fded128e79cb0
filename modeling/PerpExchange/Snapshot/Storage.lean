import PerpExchange.FileSystem
import PerpExchange.Snapshot.Basic

/-!
Where snapshots are kept: in memory, as a list in order of their blocks, or as files of one
directory, each named for its block. A snapshot is first written under a temporary name, so that a
file with its own name is always whole. Files with other names are left alone.
-/

namespace PerpExchange

/-- The bytes of a snapshot, and the block they are stored for. What is noted beside them when it is
made, and again when it is read from a file, is settled by both. -/
structure StoredSnapshot where
  block : BlockNumber
  bytes : List UInt8
  deriving DecidableEq

/-- What a listing tells about a stored snapshot. -/
structure SnapshotInfo where
  block : BlockNumber
  size : Nat
  deriving DecidableEq

/-- What is noted about a snapshot: its block, and how many bytes it has. -/
def StoredSnapshot.info (s : StoredSnapshot) : SnapshotInfo := ⟨s.block, s.bytes.length⟩

/-- What is sorted by blocks is in order of them. -/
theorem pairwise_mergeSort_block {α : Type} (block : α → BlockNumber) (items : List α) :
    (items.mergeSort fun s t => block s ≤ block t).Pairwise fun s t => block s ≤ block t := by
  refine (List.pairwise_mergeSort (fun s t u hst htu => ?_) (fun s t => ?_) items).imp
    of_decide_eq_true
  · exact decide_eq_true (UInt64.le_trans (of_decide_eq_true hst) (of_decide_eq_true htu))
  · simpa using UInt64.le_total (block s) (block t)

/-- Snapshots in memory, the one for the lowest block first. -/
structure SnapshotList where
  toList : List StoredSnapshot
  ascending : toList.Pairwise fun s t => s.block < t.block

namespace SnapshotList

instance : EmptyCollection SnapshotList := ⟨⟨[], .nil⟩⟩

/-- Snapshots in order of their blocks. -/
def inOrder (snapshots : List StoredSnapshot) : List StoredSnapshot :=
  snapshots.mergeSort fun s t => s.block ≤ t.block

theorem ascending_inOrder {snapshots : List StoredSnapshot}
    (h : snapshots.Pairwise fun s t => s.block ≠ t.block) :
    (inOrder snapshots).Pairwise fun s t => s.block < t.block := by
  have hdistinct : (inOrder snapshots).Pairwise fun s t => s.block ≠ t.block :=
    ((List.mergeSort_perm snapshots _).pairwise_iff fun hne => hne.symm).mpr h
  exact ((pairwise_mergeSort_block StoredSnapshot.block snapshots).and hdistinct).imp
    fun h => UInt64.lt_of_le_of_ne h.1 h.2

/-- The snapshots for other blocks. -/
def others (l : SnapshotList) (b : BlockNumber) : List StoredSnapshot :=
  l.toList.filter (·.block ≠ b)

/-- Stores a snapshot in the place of any that is there for its block. It goes behind all others,
and then they are put in order. -/
def save (l : SnapshotList) (s : StoredSnapshot) : SnapshotList where
  toList := inOrder (l.others s.block ++ [s])
  ascending := by
    refine ascending_inOrder (List.pairwise_append.mpr
      ⟨(l.ascending.imp UInt64.ne_of_lt).filter _, List.pairwise_singleton _ _, ?_⟩)
    intro t ht u hu
    rw [List.mem_singleton.mp hu]
    exact of_decide_eq_true (List.mem_filter.mp ht).2

def latest? (l : SnapshotList) : Option StoredSnapshot := l.toList.getLast?

/-- The first one from the back that is for a block or an earlier one. -/
def atBlock? (l : SnapshotList) (b : BlockNumber) : Option StoredSnapshot :=
  l.toList.reverse.find? (·.block ≤ b)

def infos (l : SnapshotList) : List SnapshotInfo := l.toList.map StoredSnapshot.info

/-- Drops the snapshots of all earlier blocks, and answers by how many there are fewer. -/
def deleteBefore (l : SnapshotList) (b : BlockNumber) : SnapshotList × Nat :=
  let kept : SnapshotList := ⟨l.toList.filter (b ≤ ·.block), l.ascending.filter _⟩
  (kept, l.toList.length - kept.toList.length)

end SnapshotList

namespace SnapshotFile

def stem : List Char := "snapshot-".toList

def extension : List Char := ".json".toList

/-- The name without its extension. All blocks have as many digits. -/
def base (b : BlockNumber) : List Char := stem ++ Decimal.padded 20 b.toNat

/-- The name of the file for a block. -/
def name (b : BlockNumber) : String := String.ofList (base b ++ extension)

/-- The name a snapshot has while it is written. -/
def temporaryName (b : BlockNumber) : String := String.ofList (base b ++ ".tmp".toList)

/-- What stands between the front and the back of a text. -/
def between? (front back text : List Char) : Option (List Char) :=
  let rest := text.drop front.length
  if front.isPrefixOf text ∧ back.isSuffixOf rest then some (rest.take (rest.length - back.length))
  else none

/-- The block a file name is for, with any number of digits. -/
def block? (name : String) : Option BlockNumber :=
  (between? stem extension name.toList).bind Decimal.word64?

end SnapshotFile

/-- What stands under a name in a directory. -/
inductive DirectoryItem where
  | file (bytes : List UInt8)
  | directory
  deriving DecidableEq

/-- A directory by its names in the order in which they came into it, or nothing once it has been
deleted. -/
structure Directory where
  items : Option (List (String × DirectoryItem))

namespace Directory

def empty : Directory := ⟨some []⟩

def deleted : Directory := ⟨none⟩

/-- The names in a directory, the oldest first. -/
def names (d : Directory) : List String := (d.items.getD []).map Prod.fst

/-- What stands under a name. -/
def item? (d : Directory) (name : String) : Option DirectoryItem := (d.items.getD []).lookup name

/-- Puts something under a name that is not there yet, or a file in the place of another. -/
def put? (d : Directory) (name : String) (item : DirectoryItem) : Option Directory := do
  let items ← d.items
  match d.item? name, item with
  | none, _ => return ⟨some (items ++ [(name, item)])⟩
  | some (.file _), .file _ =>
    return ⟨some (items.map fun (other, old) => (other, if other = name then item else old))⟩
  | some _, _ => none

/-- Whether something can have a name: it is one step down a path, and not too long. -/
def isName (name : String) : Bool :=
  name ∉ ["", ".", ".."] && !name.toList.any (fun c => c = '/' || c = '\x00') &&
    name.utf8ByteSize ≤ FileSystem.maxNameSize

/-- Puts something under a name of anyone's choice. -/
def plant? (d : Directory) (name : String) (item : DirectoryItem) : Option Directory :=
  if isName name then d.put? name item else none

/-- The bytes of a file. -/
def read? (d : Directory) (name : String) : Option (List UInt8) :=
  match d.item? name with
  | some (.file bytes) => some bytes
  | some .directory | none => none

/-- Deletes a file. -/
def delete? (d : Directory) (name : String) : Option Directory := do
  let _ ← d.read? name
  return ⟨d.items.map (·.filter fun (other, _) => other ≠ name)⟩

/-- Gives a file another name, in the place of any file that has it. Under its new name it is the
youngest. -/
def rename? (d : Directory) (name newName : String) : Option Directory := do
  let bytes ← d.read? name
  let d ← d.delete? name
  ((d.delete? newName).getD d).put? newName (.file bytes)

/-- The blocks there are file names for, with the names, the oldest block first. Names for one block
stay in their order. -/
def snapshotNames (d : Directory) : List (BlockNumber × String) :=
  (d.names.filterMap fun name => (SnapshotFile.block? name).map fun b => (b, name)).mergeSort
    fun (b, _) (c, _) => b ≤ c

def readSnapshot (d : Directory) (b : BlockNumber) (name : String) :
    Except SnapshotError StoredSnapshot :=
  match d.read? name with
  | some bytes => .ok ⟨b, bytes⟩
  | none => .error .io

/-- What is in a file that was looked for, if it was found and can be read. -/
def readFound (d : Directory) : Option (BlockNumber × String) → Except SnapshotError StoredSnapshot
  | some (b, name) => d.readSnapshot b name
  | none => .error .notFound

def latestSnapshot (d : Directory) : Except SnapshotError StoredSnapshot :=
  d.readFound d.snapshotNames.getLast?

/-- The first one from the back that is for a block or an earlier one. -/
def snapshotAt (d : Directory) (b : BlockNumber) : Except SnapshotError StoredSnapshot :=
  d.readFound (d.snapshotNames.reverse.find? fun (c, _) => c ≤ b)

/-- The snapshots that can be read, the oldest first. -/
def snapshotInfos (d : Directory) : List SnapshotInfo :=
  d.snapshotNames.filterMap fun (b, name) =>
    (d.readSnapshot b name).toOption.map StoredSnapshot.info

def saveSnapshot (d : Directory) (s : StoredSnapshot) : Directory × Except SnapshotError Unit :=
  match d.put? (SnapshotFile.temporaryName s.block) (.file s.bytes) with
  | none => (d, .error .io)
  | some d =>
    match d.rename? (SnapshotFile.temporaryName s.block) (SnapshotFile.name s.block) with
    | none => (d, .error .io)
    | some d => (d, .ok ())

/-- Deletes files in turn, up to one that cannot be deleted, and answers how many there were. -/
def deleteAll (d : Directory) : List String → Directory × Except SnapshotError Nat
  | [] => (d, .ok 0)
  | name :: rest =>
    match d.delete? name with
    | none => (d, .error .io)
    | some d =>
      let (d, count) := deleteAll d rest
      (d, count.map (· + 1))

/-- Deletes the files for all earlier blocks, and answers how many there were. -/
def deleteSnapshotsBefore (d : Directory) (b : BlockNumber) :
    Directory × Except SnapshotError Nat :=
  d.deleteAll ((d.snapshotNames.filter fun (c, _) => c < b).map Prod.snd)

end Directory

/-- A place for snapshots. -/
inductive Storage where
  | memory (snapshots : SnapshotList)
  | directory (d : Directory)

namespace Storage

instance : Inhabited Storage := ⟨.memory ∅⟩

/-- Stores a snapshot in the place of any that is stored for its block. -/
def save (s : StoredSnapshot) : Storage → Storage × Except SnapshotError Unit
  | .memory snapshots => (.memory (snapshots.save s), .ok ())
  | .directory d => (d.saveSnapshot s).map .directory id

/-- The snapshot of the highest block. -/
def latest : Storage → Except SnapshotError StoredSnapshot
  | .memory snapshots => snapshots.latest?.elim (.error .notFound) .ok
  | .directory d => d.latestSnapshot

/-- The newest snapshot that is stored for a block or an earlier one. -/
def atBlock (b : BlockNumber) : Storage → Except SnapshotError StoredSnapshot
  | .memory snapshots => (snapshots.atBlock? b).elim (.error .notFound) .ok
  | .directory d => d.snapshotAt b

/-- The snapshots that can be read, the oldest first. -/
def infos : Storage → List SnapshotInfo
  | .memory snapshots => snapshots.infos
  | .directory d => d.snapshotInfos

/-- Deletes the snapshots of all earlier blocks, and answers how many there were. -/
def deleteBefore (b : BlockNumber) : Storage → Storage × Except SnapshotError Nat
  | .memory snapshots => (snapshots.deleteBefore b).map .memory .ok
  | .directory d => (d.deleteSnapshotsBefore b).map .directory id

end Storage

/-- What becomes of snapshots that are to be kept at a path. -/
inductive SnapshotPlace where
  | kept
  | lost
  | refused
  deriving DecidableEq

namespace SnapshotPlace

open FileSystem

/-- The bytes of the name of a snapshot's file. -/
def fileNameSize : Nat := 34

/-- The bytes of the path of a snapshot's file in a directory. -/
def filePathSize (directory : String) : Nat :=
  directory.utf8ByteSize + (if directory.endsWith "/" then 0 else 1) + fileNameSize

/-- A place without a name takes files but cannot be looked through, so nothing is found there
again. Nothing is kept either in a directory that takes no files, or where their paths grow too
long. -/
def ofPath (path : String) : SnapshotPlace :=
  if path = "" then .lost
  else
    match directory? path with
    | none => .refused
    | some place => if takesFiles place ∧ filePathSize path ≤ maxPathSize then .kept else .lost

end SnapshotPlace

end PerpExchange
