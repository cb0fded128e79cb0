import PerpExchange.Proofs.Histories
import PerpExchange.Proofs.Json.Records
import PerpExchange.Proofs.Ranges
import PerpExchange.Proofs.SnapshotList
import PerpExchange.Snapshot.Snapshotter

/-! A store is restored from its own snapshot. -/
namespace PerpExchange

/-- An order with a fill in bounds is sound, if its size has a magnitude. -/
theorem Order.WellFormed.sound {o : Order} (h : o.WellFormed) (hsize : o.size ≠ Amount.least) :
    o.Sound := by
  obtain ⟨rest, hrest⟩ := h.opened
  obtain ⟨size, habs, hsize'⟩ := Amount.yields_abs hsize
  have hupper := size.upper
  have hle : o.filled.toInt.natAbs ≤ o.size.toInt.natAbs := by
    rcases inBounds_iff.mp h.inBounds with ⟨-, h0, hle⟩ | ⟨-, hz, h0, hle⟩ <;> omega
  have hfilled : o.filled ≠ Amount.least := by
    intro he
    have hleast : o.filled.toInt = -170141183460469231731687303715884105728 := by
      rw [he]
      rfl
    omega
  obtain ⟨filled, habs', hfilled'⟩ := Amount.yields_abs hfilled
  refine ⟨by simp [hrest], filled, size, habs', habs, ?_⟩
  rw [Amount.le_iff]
  omega

theorem Storage.latest_singleton (s : StoredSnapshot) :
    (Storage.memory ((∅ : SnapshotList).save s)).latest = .ok s := by
  rw [latest, SnapshotList.latest?, SnapshotList.save_empty]
  rfl

namespace Store
variable {s : Store}

theorem ofSnapshot_snapshot (hi : s.Indexed) (hw : AllWellFormed s.orders)
    (hsizes : ∀ (id : Hash) (o : Order), s.orders[id]? = some o → o.size ≠ Amount.least) :
    ∃ restored, ofSnapshot s.snapshot = .ok (.ok restored) ∧ restored.Indexed ∧
      restored.toStoreData = s.toStoreData := by
  have hok : ofSnapshot s.snapshot = .ok (.ok (Store.restored s.snapshot)) :=
    ofSnapshot_eq_ok.mpr ⟨rfl, fun {id o} ho =>
      ⟨Indexes.keyed hi ho, (hw id o ho).sound (hsizes id o ho)⟩, rfl⟩
  refine ⟨_, hok, Indexed.ofSnapshot hok, ?_⟩
  have hlast : max s.lastAcceptedBlock s.lastAcceptedBlock = s.lastAcceptedBlock := ite_self _
  show { s.toStoreData with
    lastAcceptedBlock := max s.lastAcceptedBlock s.lastAcceptedBlock } = s.toStoreData
  rw [hlast]

/-- Where the newest stored snapshot is that of a store, any store becomes what the snapshot
makes. -/
theorem recover_of_ofSnapshot {restored : Store}
    (hok : ofSnapshot s.snapshot = .ok (.ok restored)) {storage : Storage}
    (hlatest : storage.latest = .ok ⟨s.lastAcceptedBlock, s.snapshot.toBytes⟩) (t : Store) :
    t.recover storage = .ok (restored, .ok (some s.lastAcceptedBlock)) := by
  have hbytes : Snapshot.ofBytes s.snapshot.toBytes = .ok s.snapshot :=
    Snapshot.ofBytes_toBytes rfl
  have hblock : s.snapshot.block = s.lastAcceptedBlock := rfl
  simp [recover, hlatest, ofStored, hbytes, hblock, hok]

theorem recover_snapshot (hi : s.Indexed) (hw : AllWellFormed s.orders)
    (hsizes : ∀ (id : Hash) (o : Order), s.orders[id]? = some o → o.size ≠ Amount.least)
    {storage : Storage} (hlatest : storage.latest = .ok ⟨s.lastAcceptedBlock, s.snapshot.toBytes⟩)
    (t : Store) :
    ∃ restored, t.recover storage = .ok (restored, .ok (some s.lastAcceptedBlock)) ∧
      restored.Indexed ∧ restored.toStoreData = s.toStoreData := by
  obtain ⟨restored, hok, hindexed, hdata⟩ := ofSnapshot_snapshot hi hw hsizes
  exact ⟨restored, recover_of_ofSnapshot hok hlatest t, hindexed, hdata⟩

end Store
end PerpExchange
