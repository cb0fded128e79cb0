import PerpExchange.Proofs.SnapshotFiles

/-! Snapshots in memory and in files are stored alike: whatever is asked of them, one after another,
both places answer the same, and a directory can list its files in any order. -/
namespace PerpExchange

/-- What can be asked of a place for snapshots. -/
inductive StorageRequest where
  | save (s : StoredSnapshot)
  | latest
  | atBlock (b : BlockNumber)
  | infos
  | deleteBefore (b : BlockNumber)

inductive StorageAnswer where
  | saved (result : Except SnapshotError Unit)
  | found (result : Except SnapshotError StoredSnapshot)
  | listed (infos : List SnapshotInfo)
  | deleted (result : Except SnapshotError Nat)

namespace Storage
variable {storage storage' : Storage} {snapshots : Map BlockNumber (List UInt8)}

/-- What a request makes of a storage, and its answer. -/
def meet (storage : Storage) : StorageRequest → Storage × StorageAnswer
  | .save s => (storage.save s).map id .saved
  | .latest => (storage, .found storage.latest)
  | .atBlock b => (storage, .found (storage.atBlock b))
  | .infos => (storage, .listed storage.infos)
  | .deleteBefore b => (storage.deleteBefore b).map id .deleted

/-- The answers to some requests one after another. -/
def answers : Storage → List StorageRequest → List StorageAnswer
  | _, [] => []
  | storage, r :: requests => (storage.meet r).2 :: (storage.meet r).1.answers requests

/-- The same storage, where a directory lists its files in another order. -/
inductive Relists : Storage → Storage → Prop
  | memory (l : SnapshotList) : Relists (.memory l) (.memory l)
  | directory {items items' : List (String × DirectoryItem)} (h : items'.Perm items) :
    Relists (.directory ⟨some items⟩) (.directory ⟨some items'⟩)

/-- The answers that some requests can get, where files are listed in another order each time. -/
inductive Answers : Storage → List StorageRequest → List StorageAnswer → Prop
  | nothing (storage : Storage) : Answers storage [] []
  | request {storage listed : Storage} {r : StorageRequest} {requests : List StorageRequest}
    {answers : List StorageAnswer} (hlisted : storage.Relists listed)
    (hrest : Answers (listed.meet r).1 requests answers) :
    Answers storage (r :: requests) ((listed.meet r).2 :: answers)

/-- What is stored, from the lowest block up, and what is read for it. -/
def entries : Storage → List (BlockNumber × Except SnapshotError StoredSnapshot)
  | .memory l => l.toList.map fun s => (s.block, .ok s)
  | .directory d => d.snapshotNames.map fun (b, name) => (b, d.readSnapshot b name)

/-- The newest snapshot is what is read for the last entry. -/
theorem latest_eq (storage : Storage) :
    storage.latest = storage.entries.getLast?.elim (.error .notFound) Prod.snd := by
  cases storage with
  | memory l =>
    rw [latest, entries, List.getLast?_map, SnapshotList.latest?]
    cases l.toList.getLast? <;> rfl
  | directory d =>
    rw [latest, entries, List.getLast?_map, Directory.latestSnapshot]
    cases d.snapshotNames.getLast? <;> rfl

/-- A storage has these snapshots, as a list or as files. -/
def Keeps (snapshots : Map BlockNumber (List UInt8)) : Storage → Prop
  | .memory l => l.Lists snapshots
  | .directory d => d.Mirrors snapshots

theorem keeps_memory_empty : (memory ∅).Keeps ∅ := SnapshotList.lists_empty

theorem keeps_directory_empty : (directory .empty).Keeps ∅ := Directory.mirrors_empty

theorem Keeps.relists (h : storage.Keeps snapshots) (hlists : storage.Relists storage') :
    storage'.Keeps snapshots := by
  cases hlists with
  | memory => exact h
  | directory hperm =>
    obtain ⟨items, hitems, hmirrors⟩ := h
    cases hitems
    exact ⟨_, rfl, hperm.trans hmirrors⟩

theorem Keeps.exists_relists (h : storage.Keeps snapshots) : storage.Relists storage := by
  cases storage with
  | memory => exact .memory _
  | directory d =>
    obtain ⟨items, hitems, -⟩ := h
    obtain ⟨_⟩ := d
    cases hitems
    exact .directory (.refl items)

/-- What is stored comes from the lowest block up, and can be read. -/
theorem Keeps.entries_eq (h : storage.Keeps snapshots) :
    storage.entries = snapshots.toList.map fun e => (e.1, .ok (.ofEntry e)) := by
  cases storage with
  | memory l =>
    have hlists : l.Lists snapshots := h
    rw [entries, hlists.toList_eq, List.map_map]
    rfl
  | directory d =>
    have hmirrors : d.Mirrors snapshots := h
    rw [entries, hmirrors.snapshotNames_eq, List.map_map]
    refine List.map_congr_left fun e he => ?_
    simp only [Function.comp_apply, hmirrors.readSnapshot_name he]

theorem Keeps.save (h : storage.Keeps snapshots) (s : StoredSnapshot) :
    ∃ storage', storage.save s = (storage', .ok ()) ∧
      storage'.Keeps (snapshots.insert s.block s.bytes) := by
  cases storage with
  | memory l => exact ⟨_, rfl, SnapshotList.Lists.save h s⟩
  | directory d =>
    obtain ⟨d', hsave, hmirrors⟩ := Directory.Mirrors.saveSnapshot h s
    exact ⟨.directory d', by rw [Storage.save, hsave]; rfl, hmirrors⟩

theorem Keeps.latest (h : storage.Keeps snapshots) : storage.latest =
    snapshots.toList.getLast?.elim (.error .notFound) fun e => .ok (.ofEntry e) := by
  cases storage with
  | memory l =>
    rw [Storage.latest, SnapshotList.Lists.latest?_eq h]
    cases snapshots.toList.getLast? <;> rfl
  | directory d => exact Directory.Mirrors.latestSnapshot h

theorem Keeps.atBlock (h : storage.Keeps snapshots) (b : BlockNumber) : storage.atBlock b =
    (snapshots.toList.reverse.find? (·.1 ≤ b)).elim (.error .notFound)
      fun e => .ok (.ofEntry e) := by
  cases storage with
  | memory l =>
    rw [Storage.atBlock, SnapshotList.Lists.atBlock?_eq h]
    cases snapshots.toList.reverse.find? (·.1 ≤ b) <;> rfl
  | directory d => exact Directory.Mirrors.snapshotAt h b

theorem Keeps.infos (h : storage.Keeps snapshots) :
    storage.infos = snapshots.toList.map fun e => StoredSnapshot.info (.ofEntry e) := by
  cases storage with
  | memory l => exact SnapshotList.Lists.infos_eq h
  | directory d => exact Directory.Mirrors.snapshotInfos h

theorem Keeps.deleteBefore (h : storage.Keeps snapshots) (b : BlockNumber) :
    ∃ storage', storage.deleteBefore b =
        (storage', .ok (snapshots.size - (snapshots.filter fun c _ => b ≤ c).size)) ∧
      storage'.Keeps (snapshots.filter fun c _ => b ≤ c) := by
  cases storage with
  | memory l =>
    have hlists : l.Lists snapshots := h
    refine ⟨.memory (l.deleteBefore b).1, ?_, hlists.deleteBefore b⟩
    rw [Storage.deleteBefore, ← hlists.count_deleteBefore b]
    rfl
  | directory d =>
    obtain ⟨d', hdelete, hmirrors⟩ := Directory.Mirrors.deleteSnapshotsBefore h b
    exact ⟨.directory d', by rw [Storage.deleteBefore, hdelete]; rfl, hmirrors⟩

/-- Storages that have the same snapshots answer a request alike, and have the same afterwards. -/
theorem Keeps.meet (h : storage.Keeps snapshots) (h' : storage'.Keeps snapshots)
    (r : StorageRequest) : (storage.meet r).2 = (storage'.meet r).2 ∧
      ∃ snapshots', (storage.meet r).1.Keeps snapshots' ∧
        (storage'.meet r).1.Keeps snapshots' := by
  cases r with
  | save s =>
    obtain ⟨next, hsave, hkeeps⟩ := h.save s
    obtain ⟨next', hsave', hkeeps'⟩ := h'.save s
    rw [Storage.meet, Storage.meet, hsave, hsave']
    exact ⟨rfl, _, hkeeps, hkeeps'⟩
  | latest => exact ⟨congrArg StorageAnswer.found (h.latest.trans h'.latest.symm), _, h, h'⟩
  | atBlock b =>
    exact ⟨congrArg StorageAnswer.found ((h.atBlock b).trans (h'.atBlock b).symm), _, h, h'⟩
  | infos => exact ⟨congrArg StorageAnswer.listed (h.infos.trans h'.infos.symm), _, h, h'⟩
  | deleteBefore b =>
    obtain ⟨next, hdelete, hkeeps⟩ := h.deleteBefore b
    obtain ⟨next', hdelete', hkeeps'⟩ := h'.deleteBefore b
    rw [Storage.meet, Storage.meet, hdelete, hdelete']
    exact ⟨rfl, _, hkeeps, hkeeps'⟩

/-- What a storage can answer, however it lists its files, is what another with the same snapshots
answers. -/
theorem Keeps.answers_iff {requests : List StorageRequest} {answers : List StorageAnswer}
    (h : storage.Keeps snapshots) (h' : storage'.Keeps snapshots) :
    storage.Answers requests answers ↔ answers = storage'.answers requests := by
  induction requests generalizing storage storage' snapshots answers with
  | nil =>
    constructor
    · rintro ⟨⟩
      rfl
    · rintro rfl
      exact .nothing storage
  | cons r requests ih =>
    constructor
    · intro hanswers
      cases hanswers with
      | request hlisted hrest =>
        obtain ⟨hsame, snapshots', hkeeps, hkeeps'⟩ := (h.relists hlisted).meet h' r
        rw [Storage.answers, ← hsame, (ih hkeeps hkeeps').mp hrest]
    · rintro rfl
      obtain ⟨hsame, snapshots', hkeeps, hkeeps'⟩ := h.meet h' r
      rw [Storage.answers, ← hsame]
      exact .request h.exists_relists ((ih hkeeps hkeeps').mpr rfl)

/-- Files and memory are interchangeable. From nothing stored, a directory answers each request with
the same result as the memory, whatever has been asked before and in whatever order it lists its
files. -/
theorem directory_answers_as_memory (requests : List StorageRequest)
    (answers : List StorageAnswer) : (directory .empty).Answers requests answers ↔
      answers = (memory ∅).answers requests :=
  keeps_directory_empty.answers_iff keeps_memory_empty

end Storage
end PerpExchange
