import PerpExchange.Proofs.Recovery
import PerpExchange.Proofs.Reorg

/-! A store that is written as a snapshot and read again holds the same, books included. -/
namespace PerpExchange.Store
variable {s : Store}

/-- The bytes of the snapshot of a store are read back as that snapshot, and a store that loads it
holds what the first one held, whatever it held before. The books are listed anew, in the order of
the ids, and come out entry by entry as they had been built. -/
theorem snapshot_round_trip (h : s.Ingested)
    (hsizes : ∀ (id : Hash) (o : Order), s.orders[id]? = some o → o.size ≠ Amount.least) :
    ∃ snap restored, Snapshot.ofBytes s.snapshot.toBytes = .ok snap ∧
      ofSnapshot snap = .ok (.ok restored) ∧
      (∀ (t : Store) (storage : Storage),
        storage.latest = .ok ⟨s.lastAcceptedBlock, s.snapshot.toBytes⟩ →
          t.recover storage = .ok (restored, .ok (some s.lastAcceptedBlock))) ∧
      restored.toStoreData = s.toStoreData ∧ ∀ m, restored.book m = s.book m := by
  obtain ⟨hindexed, hwell⟩ := h.invariant
  obtain ⟨restored, hok, hrestored, hdata⟩ := ofSnapshot_snapshot hindexed hwell hsizes
  refine ⟨s.snapshot, restored, Snapshot.ofBytes_toBytes rfl, hok, ?_, hdata, ?_⟩
  · exact fun t storage hlatest => recover_of_ofSnapshot hok hlatest t
  · exact hrestored.book_eq hindexed (congrArg StoreData.orders hdata)

open Intake in
theorem snapshot_round_trip_of_partlyFilled :
    partlyFilled.store.Ingested ∧
      (∀ (id : Hash) (o : Order), partlyFilled.store.orders[id]? = some o →
        o.size ≠ Amount.least) ∧
      ∃ snap restored, Snapshot.ofBytes partlyFilled.store.snapshot.toBytes = .ok snap ∧
        ofSnapshot snap = .ok (.ok restored) ∧
        restored.orders[(default : Hash)]? = some partlyFilledOrder ∧
        ∀ m, restored.book m = partlyFilled.store.book m := by
  have hsizes : ∀ (id : Hash) (o : Order), partlyFilled.store.orders[id]? = some o →
      o.size ≠ Amount.least := by
    intro id o ho
    obtain ⟨-, rfl⟩ := eq_of_partlyFilled ho
    decide
  obtain ⟨snap, restored, hbytes, hok, -, hdata, hbooks⟩ :=
    snapshot_round_trip ingested_partlyFilled hsizes
  refine ⟨ingested_partlyFilled, hsizes, snap, restored, hbytes, hok, ?_, hbooks⟩
  rw [congrArg StoreData.orders hdata, getElem?_partlyFilled, if_pos rfl]

end PerpExchange.Store
