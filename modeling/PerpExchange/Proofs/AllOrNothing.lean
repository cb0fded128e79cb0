import PerpExchange.Proofs.Interchange
import PerpExchange.Proofs.SnapshotChecks
import PerpExchange.Snapshot.Snapshotter

/-! Recovery, whatever is stored. A store is replaced only once every check has been passed, and
then by all that the newest snapshot holds. One that is of no use leaves the store as it was, however
good the older ones are. -/
namespace PerpExchange

open Json

namespace Order
variable {o : Order} {key : Hash}

/-- The check of an order comes to its quantities, and meets one that has no magnitude. -/
structure StopsCheck (o : Order) (key : Hash) : Prop where
  id_eq : o.id = key
  lifecycle : o.lifecycle ≠ []
  least : o.filled = Amount.least ∨ o.size = Amount.least

theorem StopsCheck.not_sound (h : o.StopsCheck key) : ¬ o.Sound := by
  intro hsound
  obtain ⟨-, hfilled, hsize, -⟩ := sound_iff.mp hsound
  exact h.least.elim hfilled hsize

theorem StopsCheck.not_flawed (h : o.StopsCheck key) : ¬ o.Flawed key := by
  rintro (hid | hlifecycle | ⟨hfilled, hsize, -⟩)
  · exact hid h.id_eq
  · exact h.lifecycle hlifecycle
  · exact h.least.elim hfilled hsize

theorem checkRestored_stops_iff :
    (∃ fault, o.checkRestored key = .error fault) ↔ o.StopsCheck key := by
  have hchecks := o.checksTo_checkRestored key
  generalize o.checkRestored key = outcome at hchecks
  cases hchecks with
  | sound hid hsound => exact ⟨fun ⟨_, h⟩ => (nomatch h), fun h => absurd hsound h.not_sound⟩
  | flawed hflawed flaw => exact ⟨fun ⟨_, h⟩ => (nomatch h), fun h => absurd hflawed h.not_flawed⟩
  | stopped hid hlifecycle hleast => exact ⟨fun _ => ⟨hid, hlifecycle, hleast⟩, fun _ => ⟨_, rfl⟩⟩

end Order

/-- The check of some orders stops exactly if it stops at the first one that is not sound. -/
theorem checkRestored_stops_iff {entries : List (Hash × Order)} :
    (∃ fault, checkRestored entries = .error fault) ↔ ∃ front e rest,
      entries = front ++ e :: rest ∧ (∀ d ∈ front, d.2.id = d.1 ∧ d.2.Sound) ∧
        e.2.StopsCheck e.1 := by
  constructor
  · rintro ⟨fault, h⟩
    obtain ⟨front, e, rest, hentries, hfront, hcheck⟩ := (checkRestored_eq_iff (by simp)).mp h
    exact ⟨front, e, rest, hentries, hfront, Order.checkRestored_stops_iff.mp ⟨fault, hcheck⟩⟩
  · rintro ⟨front, e, rest, hentries, hfront, hstops⟩
    obtain ⟨fault, hcheck⟩ := Order.checkRestored_stops_iff.mpr hstops
    exact ⟨fault, (checkRestored_eq_iff (by simp)).mpr ⟨front, e, rest, hentries, hfront, hcheck⟩⟩

namespace Snapshot

/-- The snapshot that bytes hold, of any version. -/
def held? (bytes : List UInt8) : Option Snapshot := (readBytes? bytes).bind (decodeAs Snapshot)

theorem held?_toBytes (snap : Snapshot) : held? snap.toBytes = some snap := by
  have hread := (LawfulCodec.plain snap).readBytes?_utf8
  simp [held?, toBytes, hread, decodeAs]

/-- Every order is stored under its own id, and sound. -/
def Sound (snap : Snapshot) : Prop :=
  ∀ {id : Hash} {o : Order}, snap.data.orders[id]? = some o → o.id = id ∧ o.Sound

/-- The first order that is not sound has a quantity whose magnitude leaves the range. -/
def StopsCheck (snap : Snapshot) : Prop :=
  ∃ front e rest, snap.data.orders.toList = front ++ e :: rest ∧
    (∀ d ∈ front, d.2.id = d.1 ∧ d.2.Sound) ∧ e.2.StopsCheck e.1

end Snapshot

/-- The bytes are a snapshot that can be used, and for the block they are stored for. -/
structure StoredSnapshot.Holds (stored : StoredSnapshot) (snap : Snapshot) : Prop where
  held : Snapshot.held? stored.bytes = some snap
  version_eq : snap.version = Snapshot.currentVersion
  block_eq : snap.block = stored.block

namespace Storage
variable {storage : Storage} {b b' : BlockNumber}
variable {found found' : Except SnapshotError StoredSnapshot}

/-- What is found for the highest block, by the entry that comes last where several are for it. -/
def Newest (storage : Storage) (b : BlockNumber) (found : Except SnapshotError StoredSnapshot) :
    Prop :=
  ∃ older, storage.entries = older ++ [(b, found)] ∧ ∀ e ∈ older, e.1 ≤ b

theorem pairwise_entries (storage : Storage) :
    storage.entries.Pairwise fun e e' => e.1 ≤ e'.1 := by
  cases storage with
  | memory l => exact List.pairwise_map.mpr (l.ascending.imp UInt64.le_of_lt)
  | directory d => exact List.pairwise_map.mpr d.pairwise_snapshotNames

theorem found_of_mem_entries (h : (b, found) ∈ storage.entries) :
    found = .error .io ∨ ∃ bytes, found = .ok ⟨b, bytes⟩ := by
  cases storage with
  | memory l =>
    obtain ⟨s, -, hs⟩ := List.mem_map.mp h
    cases hs
    exact .inr ⟨_, rfl⟩
  | directory d =>
    obtain ⟨e, -, he⟩ := List.mem_map.mp h
    cases he
    cases hread : d.read? e.2 with
    | none => exact .inl (by simp [Directory.readSnapshot, hread])
    | some bytes => exact .inr ⟨bytes, by simp [Directory.readSnapshot, hread]⟩

theorem Newest.latest (h : storage.Newest b found) : storage.latest = found := by
  obtain ⟨older, hentries, -⟩ := h
  simp [latest_eq, hentries]

theorem Newest.mem (h : storage.Newest b found) : (b, found) ∈ storage.entries := by
  obtain ⟨older, hentries, -⟩ := h
  rw [hentries]
  exact List.mem_append_right older (List.mem_singleton_self _)

theorem newest_cases (storage : Storage) : storage.entries = [] ∨
    (∃ b, storage.Newest b (.error .io)) ∨ ∃ stored, storage.Newest stored.block (.ok stored) := by
  rcases List.eq_nil_or_concat storage.entries with hnil | ⟨older, ⟨b, found⟩, hentries⟩
  · exact .inl hnil
  rw [List.concat_eq_append] at hentries
  right
  have hsorted := storage.pairwise_entries
  rw [hentries] at hsorted
  have hnewest : storage.Newest b found := ⟨older, hentries, fun e he =>
    (List.pairwise_append.mp hsorted).2.2 e he _ (List.mem_singleton_self _)⟩
  rcases found_of_mem_entries hnewest.mem with rfl | ⟨bytes, rfl⟩
  · exact .inl ⟨b, hnewest⟩
  · exact .inr ⟨⟨b, bytes⟩, hnewest⟩

/-- In memory a snapshot for the highest block is the newest. -/
theorem newest_memory {l : SnapshotList} {s : StoredSnapshot} (h : s ∈ l.toList)
    (hle : ∀ t ∈ l.toList, t.block ≤ s.block) : (Storage.memory l).Newest s.block (.ok s) := by
  obtain ⟨older, hlast⟩ : ∃ older, l.toList = older ++ [s] := by
    obtain ⟨older, newer, hlist⟩ := List.append_of_mem h
    have hascending := l.ascending
    rw [hlist] at hascending hle
    have hnewer := (List.pairwise_cons.mp (List.pairwise_append.mp hascending).2.1).1
    cases newer with
    | nil => exact ⟨older, hlist⟩
    | cons t newer =>
      have hle := hle t (by simp)
      exact absurd (hnewer t List.mem_cons_self) (UInt64.not_lt.mpr hle)
  refine ⟨older.map fun s => (s.block, .ok s), by rw [entries, hlast, List.map_append]; rfl, ?_⟩
  intro e he
  obtain ⟨t, ht, rfl⟩ := List.mem_map.mp he
  exact hle t (hlast ▸ List.mem_append_left _ ht)

end Storage

namespace Store
variable {s t : Store} {stored : StoredSnapshot} {storage : Storage}

/-- What stored bytes make of a store is settled by the snapshot they hold, if it can be used. -/
theorem ofStored_of_holds {snap : Snapshot} (h : stored.Holds snap) :
    ofStored stored = (ofSnapshot snap).map fun
      | .ok t => .ok t
      | .error e => .error (.corrupted (.refused e)) := by
  obtain ⟨held, hversion, hblock⟩ := h
  have hbytes : Snapshot.ofBytes stored.bytes = .ok snap := by
    unfold Snapshot.held? at held
    simp [Snapshot.ofBytes, held, hversion]
  unfold ofStored
  simp only [hbytes, hblock, ne_eq, not_true_eq_false, if_false]
  cases ofSnapshot snap with
  | error fault => rfl
  | ok outcome => cases outcome <;> rfl

/-- Bytes that hold no snapshot, or one of another version or for another block, are corrupted. -/
theorem ofStored_of_not_holds (h : ∀ snap, ¬ stored.Holds snap) :
    ∃ why, ofStored stored = .ok (.error (.corrupted why)) := by
  unfold ofStored Snapshot.ofBytes
  cases hheld : Snapshot.held? stored.bytes with
  | none =>
    unfold Snapshot.held? at hheld
    exact ⟨_, by rw [hheld]; rfl⟩
  | some snap =>
    have hbytes := hheld
    unfold Snapshot.held? at hbytes
    rw [hbytes]
    by_cases hversion : snap.version = Snapshot.currentVersion
    · have hblock : snap.block ≠ stored.block := fun hb => h snap ⟨hheld, hversion, hb⟩
      exact ⟨_, by simp only [hversion, if_true]; rw [if_pos hblock]; rfl⟩
    · exact ⟨_, by simp only [hversion, if_false]; rfl⟩

theorem ofSnapshot_stops_iff {snap : Snapshot} (hversion : snap.version = Snapshot.currentVersion) :
    (∃ fault, ofSnapshot snap = .error fault) ↔ snap.StopsCheck := by
  rw [Snapshot.StopsCheck, ← checkRestored_stops_iff]
  unfold ofSnapshot
  cases hcheck : checkRestored snap.data.orders.toList with
  | error fault => simp [hversion]
  | ok outcome => cases outcome <;> simp [hversion]

theorem ofStored_eq_ok : ofStored stored = .ok (.ok t) ↔
    ∃ snap, stored.Holds snap ∧ snap.Sound ∧ t = restored snap := by
  constructor
  · intro hok
    by_cases hholds : ∃ snap, stored.Holds snap
    · obtain ⟨snap, hholds⟩ := hholds
      rw [ofStored_of_holds hholds] at hok
      cases hsnapshot : ofSnapshot snap with
      | error fault => simp [hsnapshot, Except.map] at hok
      | ok outcome =>
        cases outcome with
        | error e => simp [hsnapshot, Except.map] at hok
        | ok t' =>
          simp only [hsnapshot, Except.map, Except.ok.injEq] at hok
          obtain ⟨-, hsound, ht⟩ := ofSnapshot_eq_ok.mp hsnapshot
          exact ⟨snap, hholds, hsound, hok ▸ ht⟩
    · obtain ⟨why, hwhy⟩ := ofStored_of_not_holds (not_exists.mp hholds)
      rw [hwhy] at hok
      cases hok
  · rintro ⟨snap, hholds, hsound, rfl⟩
    rw [ofStored_of_holds hholds, ofSnapshot_eq_ok.mpr ⟨hholds.version_eq, hsound, rfl⟩]
    rfl

theorem ofStored_stops_iff : (∃ fault, ofStored stored = .error fault) ↔
    ∃ snap, stored.Holds snap ∧ snap.StopsCheck := by
  constructor
  · rintro ⟨fault, hfault⟩
    by_cases hholds : ∃ snap, stored.Holds snap
    · obtain ⟨snap, hholds⟩ := hholds
      refine ⟨snap, hholds, (ofSnapshot_stops_iff hholds.version_eq).mp ?_⟩
      rw [ofStored_of_holds hholds] at hfault
      cases hsnapshot : ofSnapshot snap with
      | error fault => exact ⟨fault, rfl⟩
      | ok outcome => simp [hsnapshot, Except.map] at hfault
    · obtain ⟨why, hwhy⟩ := ofStored_of_not_holds (not_exists.mp hholds)
      rw [hwhy] at hfault
      cases hfault
  · rintro ⟨snap, hholds, hstops⟩
    obtain ⟨fault, hfault⟩ := (ofSnapshot_stops_iff hholds.version_eq).mpr hstops
    exact ⟨fault, by rw [ofStored_of_holds hholds, hfault]; rfl⟩

theorem ofStored_refuses_iff : (∃ why, ofStored stored = .ok (.error (.corrupted why))) ↔
    ∀ snap, stored.Holds snap → ¬ snap.Sound ∧ ¬ snap.StopsCheck := by
  constructor
  · rintro ⟨why, hwhy⟩ snap hholds
    constructor
    · intro hsound
      have hok := ofStored_eq_ok.mpr ⟨snap, hholds, hsound, rfl⟩
      rw [hwhy] at hok
      cases hok
    · intro hstops
      obtain ⟨fault, hfault⟩ := ofStored_stops_iff.mpr ⟨snap, hholds, hstops⟩
      rw [hwhy] at hfault
      cases hfault
  · intro h
    by_cases hholds : ∃ snap, stored.Holds snap
    · obtain ⟨snap, hholds⟩ := hholds
      obtain ⟨hunsound, hruns⟩ := h snap hholds
      rw [ofStored_of_holds hholds]
      cases hsnapshot : ofSnapshot snap with
      | error fault =>
        exact absurd ((ofSnapshot_stops_iff hholds.version_eq).mp ⟨fault, hsnapshot⟩) hruns
      | ok outcome =>
        cases outcome with
        | error e => exact ⟨_, rfl⟩
        | ok t =>
          obtain ⟨-, hsound, -⟩ := ofSnapshot_eq_ok.mp hsnapshot
          exact absurd (fun {id o} ho => hsound ho) hunsound
    · exact ofStored_of_not_holds (not_exists.mp hholds)

/-- How recovery ends, by what there is for the highest block. -/
inductive Recovers (storage : Storage) (s : Store) :
    Checked (Store × Except SnapshotError (Option BlockNumber)) → Prop
  | nothing (h : storage.entries = []) : Recovers storage s (.ok (s, .ok none))
  | unread {b : BlockNumber} (h : storage.Newest b (.error .io)) :
    Recovers storage s (.ok (s, .error .io))
  | stopped {stored : StoredSnapshot} {fault : Fault}
    (h : storage.Newest stored.block (.ok stored)) (hstored : ofStored stored = .error fault) :
    Recovers storage s (.error fault)
  | refused {stored : StoredSnapshot} {e : SnapshotError}
    (h : storage.Newest stored.block (.ok stored)) (hstored : ofStored stored = .ok (.error e)) :
    Recovers storage s (.ok (s, .error e))
  | restored {stored : StoredSnapshot} {t : Store}
    (h : storage.Newest stored.block (.ok stored)) (hstored : ofStored stored = .ok (.ok t)) :
    Recovers storage s (.ok (t, .ok (some stored.block)))

theorem recover_of_newest (s : Store) (h : storage.Newest stored.block (.ok stored)) :
    s.recover storage = (ofStored stored).map fun
      | .ok t => (t, .ok (some stored.block))
      | .error e => (s, .error e) := by
  unfold recover
  rw [h.latest]
  simp only
  cases ofStored stored with
  | error fault => rfl
  | ok outcome => cases outcome <;> rfl

theorem recover_of_nil (s : Store) (h : storage.entries = []) :
    s.recover storage = .ok (s, .ok none) := by
  rw [recover, Storage.latest_eq, h]
  rfl

theorem recovers_recover (storage : Storage) (s : Store) :
    Recovers storage s (s.recover storage) := by
  rcases storage.newest_cases with hnil | ⟨b, hio⟩ | ⟨stored, hnewest⟩
  · rw [recover_of_nil s hnil]
    exact .nothing hnil
  · have hrecover : s.recover storage = .ok (s, .error .io) := by
      unfold recover
      rw [hio.latest]
      rfl
    rw [hrecover]
    exact .unread hio
  · rw [recover_of_newest s hnewest]
    cases hstored : ofStored stored with
    | error fault => exact .stopped hnewest hstored
    | ok outcome =>
      cases outcome with
      | error e => exact .refused hnewest hstored
      | ok t => exact .restored hnewest hstored

theorem recover_stops_iff (storage : Storage) (s : Store) :
    (∃ fault, s.recover storage = .error fault) ↔
      ∃ stored snap, storage.Newest stored.block (.ok stored) ∧ stored.Holds snap ∧
        snap.StopsCheck := by
  constructor
  · rintro ⟨fault, h⟩
    have hrecovers := recovers_recover storage s
    rw [h] at hrecovers
    cases hrecovers with
    | @stopped stored fault hnewest hstored =>
      obtain ⟨snap, hholds, hstops⟩ := ofStored_stops_iff.mp ⟨fault, hstored⟩
      exact ⟨stored, snap, hnewest, hholds, hstops⟩
  · rintro ⟨stored, snap, hnewest, hholds, hstops⟩
    obtain ⟨fault, hfault⟩ := ofStored_stops_iff.mpr ⟨snap, hholds, hstops⟩
    exact ⟨fault, by rw [recover_of_newest s hnewest, hfault]; rfl⟩

theorem recover_eq_none_iff : s.recover storage = .ok (t, .ok none) ↔
    t = s ∧ storage.entries = [] := by
  constructor
  · intro h
    have hrecovers := recovers_recover storage s
    rw [h] at hrecovers
    cases hrecovers with
    | nothing hnil => exact ⟨rfl, hnil⟩
  · rintro ⟨rfl, hnil⟩
    exact recover_of_nil t hnil

theorem recover_eq_some_iff {b : BlockNumber} : s.recover storage = .ok (t, .ok (some b)) ↔
    ∃ stored snap, storage.Newest stored.block (.ok stored) ∧ stored.block = b ∧
      stored.Holds snap ∧ snap.Sound ∧ t = restored snap := by
  constructor
  · intro h
    have hrecovers := recovers_recover storage s
    rw [h] at hrecovers
    cases hrecovers with
    | @restored stored t hnewest hstored =>
      obtain ⟨snap, hholds, hsound, ht⟩ := ofStored_eq_ok.mp hstored
      exact ⟨stored, snap, hnewest, rfl, hholds, hsound, ht⟩
  · rintro ⟨stored, snap, hnewest, rfl, hholds, hsound, ht⟩
    rw [recover_of_newest s hnewest, ofStored_eq_ok.mpr ⟨snap, hholds, hsound, ht⟩]
    rfl

theorem recover_corrupted_iff :
    (∃ why, s.recover storage = .ok (t, .error (.corrupted why))) ↔
      t = s ∧ ∃ stored, storage.Newest stored.block (.ok stored) ∧
        ∀ snap, stored.Holds snap → ¬ snap.Sound ∧ ¬ snap.StopsCheck := by
  constructor
  · rintro ⟨why, h⟩
    have hrecovers := recovers_recover storage s
    rw [h] at hrecovers
    cases hrecovers with
    | @refused stored e hnewest hstored =>
      exact ⟨rfl, stored, hnewest, ofStored_refuses_iff.mp ⟨why, hstored⟩⟩
  · rintro ⟨rfl, stored, hnewest, hstored⟩
    obtain ⟨why, hwhy⟩ := ofStored_refuses_iff.mpr hstored
    exact ⟨why, by rw [recover_of_newest t hnewest, hwhy]; rfl⟩

theorem eq_of_recover_error {e : SnapshotError} (h : s.recover storage = .ok (t, .error e)) :
    t = s := by
  have hrecovers := recovers_recover storage s
  rw [h] at hrecovers
  cases hrecovers with
  | unread hio => rfl
  | refused hnewest hstored => rfl

/-- Recovery is all or nothing, whatever is stored and whatever the store held. It stops only where
the check of the newest snapshot meets a quantity that has no magnitude. It answers with an error or
without a block only over the store as it was. It answers with a block exactly if that is the
highest there is, and the bytes stored for it are a snapshot of the current version, for this block
and with sound orders; the store is then what the snapshot holds, with its last accepted block
raised to that of the snapshot and the books listed anew. Bytes that are of no use for any reason
are corrupted. -/
theorem recovery_all_or_nothing (s : Store) (storage : Storage) :
    ((∃ fault, s.recover storage = .error fault) ↔
      ∃ stored snap, storage.Newest stored.block (.ok stored) ∧ stored.Holds snap ∧
        snap.StopsCheck) ∧
    (∀ t e, s.recover storage = .ok (t, .error e) → t = s) ∧
    (∀ t, s.recover storage = .ok (t, .ok none) ↔ t = s ∧ storage.entries = []) ∧
    (∀ t b, s.recover storage = .ok (t, .ok (some b)) ↔
      ∃ stored snap, storage.Newest stored.block (.ok stored) ∧ stored.block = b ∧
        Snapshot.held? stored.bytes = some snap ∧ snap.version = Snapshot.currentVersion ∧
        snap.block = b ∧ snap.Sound ∧
        t.toStoreData =
          { snap.data with lastAcceptedBlock := max snap.data.lastAcceptedBlock b } ∧
        t.books = booksOf snap.data.orders) ∧
    (∀ t, (∃ why, s.recover storage = .ok (t, .error (.corrupted why))) ↔
      t = s ∧ ∃ stored, storage.Newest stored.block (.ok stored) ∧
        (Snapshot.held? stored.bytes = none ∨ ∃ snap, Snapshot.held? stored.bytes = some snap ∧
          (snap.version ≠ Snapshot.currentVersion ∨ snap.block ≠ stored.block ∨
            ¬ snap.Sound ∧ ¬ snap.StopsCheck))) := by
  refine ⟨recover_stops_iff storage s, fun t e h => eq_of_recover_error h,
    fun t => recover_eq_none_iff, fun t b => recover_eq_some_iff.trans ?_,
    fun t => recover_corrupted_iff.trans ?_⟩
  · constructor
    · rintro ⟨stored, snap, hnewest, rfl, ⟨hheld, hversion, hblock⟩, hsound, rfl⟩
      exact ⟨stored, snap, hnewest, rfl, hheld, hversion, hblock, hsound, hblock ▸ rfl, rfl⟩
    · rintro ⟨stored, snap, hnewest, rfl, hheld, hversion, hblock, hsound, hdata, hbooks⟩
      refine ⟨stored, snap, hnewest, rfl, ⟨hheld, hversion, hblock⟩, hsound, ?_⟩
      rcases t with ⟨data, books⟩
      cases hdata
      cases hbooks
      rw [restored, hblock]
      rfl
  · refine and_congr_right fun _ => exists_congr fun stored => and_congr_right fun _ => ?_
    constructor
    · intro h
      cases hheld : Snapshot.held? stored.bytes with
      | none => exact .inl rfl
      | some snap =>
        refine .inr ⟨snap, rfl, ?_⟩
        by_cases hversion : snap.version = Snapshot.currentVersion
        · by_cases hblock : snap.block = stored.block
          · exact .inr (.inr (h snap ⟨hheld, hversion, hblock⟩))
          · exact .inr (.inl hblock)
        · exact .inl hversion
    · rintro h snap ⟨hheld, hversion, hblock⟩
      rw [hheld] at h
      rcases h with hnone | ⟨snap', hsome, h⟩
      · cases hnone
      · cases hsome
        rcases h with hne | hne | hunsound
        · exact absurd hversion hne
        · exact absurd hblock hne
        · exact hunsound

/-- A snapshot of a store with one order. -/
def soundSnapshots : SnapshotList :=
  (∅ : SnapshotList).save ⟨0, (snapshotOf (longOfTen 4)).toBytes⟩

/-- A sound snapshot, and for a later block bytes that are none. -/
def spoiltSnapshots : SnapshotList := soundSnapshots.save ⟨7, []⟩

theorem toList_soundSnapshots :
    soundSnapshots.toList = [⟨0, (snapshotOf (longOfTen 4)).toBytes⟩] := SnapshotList.save_empty _

theorem newest_soundSnapshots : (Storage.memory soundSnapshots).Newest 0
    (.ok ⟨0, (snapshotOf (longOfTen 4)).toBytes⟩) := by
  have hmem : ⟨0, (snapshotOf (longOfTen 4)).toBytes⟩ ∈ soundSnapshots.toList := by
    simp [toList_soundSnapshots]
  refine Storage.newest_memory hmem fun t ht => ?_
  rw [toList_soundSnapshots, List.mem_singleton] at ht
  rw [ht]
  exact UInt64.le_refl 0

theorem newest_spoiltSnapshots : (Storage.memory spoiltSnapshots).Newest 7 (.ok ⟨7, []⟩) := by
  refine Storage.newest_memory (SnapshotList.mem_save.mpr (.inr rfl)) fun t ht => ?_
  rcases SnapshotList.mem_save.mp ht with ⟨ht, -⟩ | rfl
  · rw [toList_soundSnapshots, List.mem_singleton] at ht
    rw [ht]
    exact (by decide : (0 : BlockNumber) ≤ 7)
  · exact UInt64.le_refl 7

/-- The older snapshot would do by itself, but is not fallen back on. -/
theorem recovery_past_spoilt_newest :
    (∃ why, (empty.add (longOfTen 1)).recover (.memory spoiltSnapshots) =
      .ok (empty.add (longOfTen 1), .error (.corrupted why))) ∧
    ∃ t, (empty.add (longOfTen 1)).recover (.memory soundSnapshots) = .ok (t, .ok (some 0)) ∧
      t.orders[(default : Hash)]? = some (longOfTen 4) := by
  constructor
  · exact ((recovery_all_or_nothing _ _).2.2.2.2 _).mpr
      ⟨rfl, ⟨7, []⟩, newest_spoiltSnapshots, .inl rfl⟩
  · refine ⟨restored (snapshotOf (longOfTen 4)),
      ((recovery_all_or_nothing _ _).2.2.2.1 _ 0).mpr ⟨⟨0, _⟩, snapshotOf (longOfTen 4),
        newest_soundSnapshots, rfl, Snapshot.held?_toBytes _, rfl, rfl, ?_, rfl, rfl⟩,
      (getElem?_snapshotOf ..).trans (if_pos rfl)⟩
    intro id o ho
    rw [getElem?_snapshotOf] at ho
    split at ho
    next hid =>
      cases ho
      exact ⟨hid, Order.sound_iff.mpr (by decide)⟩
    next => cases ho

end Store
end PerpExchange
