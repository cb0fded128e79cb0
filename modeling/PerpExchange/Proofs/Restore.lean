import PerpExchange.Proofs.Index

/-! Which snapshots a store is made from, and what the store then holds. -/
namespace PerpExchange

/-- An order with a lifecycle and a fill within its size, both of which have a magnitude. -/
def Order.Sound (o : Order) : Prop :=
  o.lifecycle ≠ [] ∧
    ∃ filled size, o.filled.abs = .ok filled ∧ o.size.abs = .ok size ∧ filled ≤ size

theorem Order.checkRestored_eq_ok {o : Order} {key : Hash} :
    o.checkRestored key = .ok (.ok ()) ↔ o.id = key ∧ o.Sound := by
  unfold checkRestored Sound
  by_cases hid : key = o.id
  · by_cases hl : o.lifecycle = []
    · simp [hid, hl]
    · cases hf : o.filled.abs with
      | error e => simp [hid, hl]
      | ok f =>
        cases hs : o.size.abs with
        | error e => simp [hid, hl]
        | ok n =>
          by_cases hn : n < f
          · have hn' : ¬ f ≤ n := by rw [Amount.le_iff]; rw [Amount.lt_iff] at hn; omega
            simp [hid, hl, hn, hn']
          · have hn' : f ≤ n := by rw [Amount.le_iff]; rw [Amount.lt_iff] at hn; omega
            simp [hid, hl, hn, hn']
  · have hid' : o.id ≠ key := Ne.symm hid
    simp [hid, hid']

theorem checkRestored_eq_ok {entries : List (Hash × Order)} :
    checkRestored entries = .ok (.ok ()) ↔ ∀ e ∈ entries, e.2.id = e.1 ∧ e.2.Sound := by
  induction entries with
  | nil => simp [checkRestored]
  | cons e rest ih =>
    rcases e with ⟨key, o⟩
    rw [List.forall_mem_cons, ← ih, ← Order.checkRestored_eq_ok, checkRestored]
    cases h : o.checkRestored key with
    | error e => simp
    | ok r => cases r <;> simp

namespace Store

/-- The store that sound data makes, with its books made anew. -/
def restored (s : Snapshot) : Store :=
  { s.data with
    lastAcceptedBlock := max s.data.lastAcceptedBlock s.block
    books := booksOf s.data.orders }

/-- A snapshot makes a store exactly if it is of the current version and its orders are sound. -/
theorem ofSnapshot_eq_ok {snap : Snapshot} {s : Store} :
    ofSnapshot snap = .ok (.ok s) ↔
      snap.version = Snapshot.currentVersion ∧
        (∀ {id : Hash} {o : Order}, snap.data.orders[id]? = some o → o.id = id ∧ o.Sound) ∧
          s = restored snap := by
  have hall : (∀ {id : Hash} {o : Order}, snap.data.orders[id]? = some o → o.id = id ∧ o.Sound) ↔
      checkRestored snap.data.orders.toList = .ok (.ok ()) := by
    rw [checkRestored_eq_ok]
    constructor
    · exact fun h e he => h (Std.ExtTreeMap.mem_toList_iff_getElem?_eq_some.mp he)
    · exact fun h id o ho => h (id, o) (Std.ExtTreeMap.mem_toList_iff_getElem?_eq_some.mpr ho)
  rw [hall]
  unfold ofSnapshot
  by_cases hv : snap.version = Snapshot.currentVersion
  · cases hc : checkRestored snap.data.orders.toList with
    | error e => simp [hv]
    | ok r =>
      cases r with
      | error flaw => simp [hv]
      | ok u => simp [hv, restored, eq_comm]
  · simp [hv]

end Store
end PerpExchange
