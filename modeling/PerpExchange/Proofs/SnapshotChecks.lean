import PerpExchange.Proofs.Bounds
import PerpExchange.Proofs.Json.Records
import PerpExchange.Proofs.Restore

/-! Which orders a store may be made with. The check of a snapshot compares the magnitudes of fills and
sizes: it lets a fill against its order pass, and stops at a size that has no magnitude. -/
namespace PerpExchange

namespace Order
variable {o : Order} {key : Hash}

/-- An order that everything after it relies on: it is stored under its own id, has a status, is on
the side of its size, and no more is left to fill of it than its size. -/
structure Valid (o : Order) (key : Hash) : Prop where
  id_eq : o.id = key
  lifecycle : o.lifecycle ≠ []
  side_eq : o.side = Side.of o.size
  filled : o.filled = 0 ∨ o.filled.signum = o.size.signum
  filled_le : o.filled.toInt.natAbs ≤ o.size.toInt.natAbs
  unfilled : ∃ left, o.unfilled = .ok left ∧ left.toInt.natAbs ≤ o.size.toInt.natAbs

theorem inBounds_of_filled (hside : o.side = Side.of o.size)
    (hfilled : o.filled = 0 ∨ o.filled.signum = o.size.signum)
    (hle : o.filled.toInt.natAbs ≤ o.size.toInt.natAbs) : o.InBounds := by
  rw [Amount.eq_iff, Amount.signum_eq_iff, Amount.toInt_zero] at hfilled
  rcases side_eq_of_size.mp hside with ⟨hl, hz⟩ | ⟨hl, hz⟩
  · exact inBounds_iff.mpr (.inl ⟨hl, by omega, by omega⟩)
  · exact inBounds_iff.mpr (.inr ⟨hl, hz, by omega, by omega⟩)

theorem valid_iff : o.Valid key ↔ o.id = key ∧ o.lifecycle ≠ [] ∧ o.InBounds := by
  constructor
  · rintro ⟨hid, hl, hside, hfilled, hle, -⟩
    exact ⟨hid, hl, inBounds_of_filled hside hfilled hle⟩
  · rintro ⟨hid, hl, hbounds⟩
    obtain ⟨left, hunfilled, hleft⟩ := hbounds.yields_unfilled
    refine ⟨hid, hl, hbounds.side_eq, hbounds.filled_eq_zero_or, hbounds.natAbs_filled_le, left,
      hunfilled, ?_⟩
    rcases inBounds_iff.mp hbounds with ⟨-, h0, hle⟩ | ⟨-, hz, h0, hle⟩ <;> omega

theorem sound_iff : o.Sound ↔ o.lifecycle ≠ [] ∧ o.filled ≠ Amount.least ∧ o.size ≠ Amount.least ∧
    o.filled.toInt.natAbs ≤ o.size.toInt.natAbs := by
  constructor
  · rintro ⟨hl, filled, size, hf, hs, hle⟩
    rw [Amount.abs_eq_ok] at hf hs
    rw [Amount.le_iff] at hle
    have hhigh := filled.upper
    have hhigh' := size.upper
    exact ⟨hl, Amount.ne_least_iff.mpr (by omega), Amount.ne_least_iff.mpr (by omega), by omega⟩
  · rintro ⟨hl, hf, hs, hle⟩
    obtain ⟨filled, hf, hfilled⟩ := Amount.yields_abs hf
    obtain ⟨size, hs, hsize⟩ := Amount.yields_abs hs
    exact ⟨hl, filled, size, hf, hs, Amount.le_iff.mpr (by omega)⟩

/-- An order that the check refuses: it is misplaced, without a status, or filled beyond its size. -/
def Flawed (o : Order) (key : Hash) : Prop :=
  o.id ≠ key ∨ o.lifecycle = [] ∨ o.filled ≠ Amount.least ∧ o.size ≠ Amount.least ∧
    o.size.toInt.natAbs < o.filled.toInt.natAbs

/-- How the check of an order ends: it lets the order pass, refuses it, or has no answer where a
quantity has no magnitude. -/
inductive ChecksTo (o : Order) (key : Hash) : Checked (Except SnapshotFlaw Unit) → Prop
  | sound (hid : o.id = key) (h : o.Sound) : ChecksTo o key (.ok (.ok ()))
  | flawed (h : o.Flawed key) (flaw : SnapshotFlaw) : ChecksTo o key (.ok (.error flaw))
  | stopped (hid : o.id = key) (hl : o.lifecycle ≠ [])
    (hleast : o.filled = Amount.least ∨ o.size = Amount.least) :
    ChecksTo o key (.error .negOverflow)

theorem checksTo_checkRestored (o : Order) (key : Hash) : o.ChecksTo key (o.checkRestored key) := by
  have habs : Amount.least.abs = .error .negOverflow := by decide
  unfold checkRestored
  by_cases hid : o.id = key
  · rw [if_neg (not_not.mpr hid.symm)]
    by_cases hl : o.lifecycle = []
    · rw [if_pos hl]
      exact .flawed (.inr (.inl hl)) _
    · rw [if_neg hl]
      by_cases hf : o.filled = Amount.least
      · rw [hf, habs]
        exact .stopped hid hl (.inl hf)
      obtain ⟨filled, hfabs, hfilled⟩ := Amount.yields_abs hf
      by_cases hs : o.size = Amount.least
      · rw [hfabs, hs, habs]
        exact .stopped hid hl (.inr hs)
      obtain ⟨size, hsabs, hsize⟩ := Amount.yields_abs hs
      rw [hfabs, hsabs, Checked.ok_bind, Checked.ok_bind]
      by_cases hlt : size < filled
      · rw [if_pos hlt]
        rw [Amount.lt_iff] at hlt
        exact .flawed (.inr (.inr ⟨hf, hs, by omega⟩)) _
      · rw [if_neg hlt]
        rw [Amount.lt_iff] at hlt
        exact .sound hid (sound_iff.mpr ⟨hl, hf, hs, by omega⟩)
  · rw [if_pos (Ne.symm hid)]
    exact .flawed (.inl hid) _

theorem Valid.sound (h : o.Valid key) (hsize : o.size ≠ Amount.least) : o.Sound := by
  refine sound_iff.mpr ⟨h.lifecycle, fun hfilled => ?_, hsize, h.filled_le⟩
  have hleast : o.filled.toInt = -170141183460469231731687303715884105728 := by rw [hfilled]; rfl
  have hle := h.filled_le
  have hlow := Amount.ne_least_iff.mp hsize
  have hhigh := o.size.upper
  omega

theorem Sound.not_flawed (h : o.Sound) (hid : o.id = key) : ¬ o.Flawed key := by
  obtain ⟨hl, -, -, hle⟩ := sound_iff.mp h
  rintro (hne | hempty | ⟨-, -, hlt⟩)
  · exact hne hid
  · exact hl hempty
  · omega

theorem checkRestored_refuses_iff :
    (∃ flaw, o.checkRestored key = .ok (.error flaw)) ↔ o.Flawed key := by
  have hchecks := o.checksTo_checkRestored key
  generalize o.checkRestored key = outcome at hchecks
  cases hchecks with
  | sound hid hsound =>
    exact ⟨fun ⟨_, h⟩ => (nomatch h), fun h => absurd h (hsound.not_flawed hid)⟩
  | flawed h flaw => exact ⟨fun _ => h, fun _ => ⟨flaw, rfl⟩⟩
  | stopped hid hl hleast =>
    refine ⟨fun ⟨_, h⟩ => (nomatch h), fun h => ?_⟩
    rcases h with hne | hempty | ⟨hf, hs, -⟩
    · exact absurd hid hne
    · exact absurd hempty hl
    · rcases hleast with he | he
      · exact absurd he hf
      · exact absurd he hs

end Order

section
variable {entries front : List (Hash × Order)}

/-- Orders that pass the check do not bear on that of the orders behind them. -/
theorem checkRestored_append (h : ∀ d ∈ front, d.2.id = d.1 ∧ d.2.Sound) :
    checkRestored (front ++ entries) = checkRestored entries := by
  induction front with
  | nil => rfl
  | cons d front ih =>
    obtain ⟨hd, hfront⟩ := List.forall_mem_cons.mp h
    rw [List.cons_append, checkRestored, Order.checkRestored_eq_ok.mpr hd]
    exact ih hfront

/-- Orders that do not all pass are decided by the first one that is not sound under its key. -/
theorem checkRestored_eq_iff {outcome : Checked (Except SnapshotFlaw Unit)}
    (hpass : outcome ≠ .ok (.ok ())) : checkRestored entries = outcome ↔ ∃ front e rest,
      entries = front ++ e :: rest ∧ (∀ d ∈ front, d.2.id = d.1 ∧ d.2.Sound) ∧
        e.2.checkRestored e.1 = outcome := by
  constructor
  · intro h
    induction entries with
    | nil => exact absurd h.symm hpass
    | cons e entries ih =>
      by_cases hsound : e.2.id = e.1 ∧ e.2.Sound
      · rw [checkRestored, Order.checkRestored_eq_ok.mpr hsound] at h
        obtain ⟨front, e', rest, rfl, hfront, hcheck⟩ := ih h
        exact ⟨e :: front, e', rest, rfl, List.forall_mem_cons.mpr ⟨hsound, hfront⟩, hcheck⟩
      · refine ⟨[], e, entries, rfl, fun d hd => absurd hd List.not_mem_nil, ?_⟩
        rw [← h, checkRestored]
        cases hcheck : e.2.checkRestored e.1 with
        | error fault => rfl
        | ok result =>
          cases result with
          | error flaw => rfl
          | ok => exact absurd (Order.checkRestored_eq_ok.mp hcheck) hsound
  · rintro ⟨front, e, rest, rfl, hfront, hcheck⟩
    rw [checkRestored_append hfront, checkRestored, hcheck]
    cases outcome with
    | error fault => rfl
    | ok result =>
      cases result with
      | error flaw => rfl
      | ok => exact absurd rfl hpass

/-- Orders are refused exactly if the first one that is not sound under its key is flawed. -/
theorem checkRestored_refuses_iff :
    (∃ flaw, checkRestored entries = .ok (.error flaw)) ↔ ∃ front e rest,
      entries = front ++ e :: rest ∧ (∀ d ∈ front, d.2.id = d.1 ∧ d.2.Sound) ∧ e.2.Flawed e.1 := by
  constructor
  · rintro ⟨flaw, h⟩
    obtain ⟨front, e, rest, hentries, hfront, hcheck⟩ := (checkRestored_eq_iff (by simp)).mp h
    exact ⟨front, e, rest, hentries, hfront, Order.checkRestored_refuses_iff.mp ⟨flaw, hcheck⟩⟩
  · rintro ⟨front, e, rest, hentries, hfront, hflawed⟩
    obtain ⟨flaw, hcheck⟩ := Order.checkRestored_refuses_iff.mpr hflawed
    exact ⟨flaw, (checkRestored_eq_iff (by simp)).mpr ⟨front, e, rest, hentries, hfront, hcheck⟩⟩

end

/-- What is asked of loading a snapshot: the store holds valid orders only, or the snapshot is refused
as invalid. -/
def Snapshot.Handled (snap : Snapshot) : Prop :=
  (∃ s, Store.ofSnapshot snap = .ok (.ok s) ∧
    ∀ (id : Hash) (o : Order), s.orders[id]? = some o → o.Valid id) ∨
  ∃ flaw, Store.ofSnapshot snap = .ok (.error (.invalidSnapshot flaw))

namespace Store
variable {snap : Snapshot}

theorem ofSnapshot_refuses_iff :
    (∃ flaw, ofSnapshot snap = .ok (.error (.invalidSnapshot flaw))) ↔
      snap.version ≠ Snapshot.currentVersion ∨
        ∃ flaw, checkRestored snap.data.orders.toList = .ok (.error flaw) := by
  unfold ofSnapshot
  by_cases hv : snap.version = Snapshot.currentVersion
  · cases hc : checkRestored snap.data.orders.toList with
    | error f => simp [hv]
    | ok outcome => cases outcome <;> simp [hv]
  · simp [hv]

/-- Loading a snapshot goes as asked exactly if it is of another version, all its orders are valid
and of sizes that have a magnitude, or the first order that is not sound has one of the flaws that
are looked for. A loaded order is valid exactly if it is on the side of its size, with a fill that
is none or has the sign of the size. -/
theorem snapshot_handled_iff (snap : Snapshot) :
    (snap.Handled ↔ snap.version ≠ Snapshot.currentVersion ∨
      (∀ (id : Hash) (o : Order), snap.data.orders[id]? = some o →
        o.Valid id ∧ o.size ≠ Amount.least) ∨
      ∃ front e rest, snap.data.orders.toList = front ++ e :: rest ∧
        (∀ d ∈ front, d.2.id = d.1 ∧ d.2.Sound) ∧ e.2.Flawed e.1) ∧
    ∀ s, ofSnapshot snap = .ok (.ok s) → ∀ (id : Hash) (o : Order), s.orders[id]? = some o →
      o.id = id ∧ o.lifecycle ≠ [] ∧ o.filled.toInt.natAbs ≤ o.size.toInt.natAbs ∧
        (o.Valid id ↔ o.side = Side.of o.size ∧
          (o.filled = 0 ∨ o.filled.signum = o.size.signum)) := by
  refine ⟨⟨?_, ?_⟩, ?_⟩
  · rintro (⟨s, hs, hvalid⟩ | hrefused)
    · obtain ⟨-, hsound, rfl⟩ := ofSnapshot_eq_ok.mp hs
      refine .inr (.inl fun id o ho => ⟨hvalid id o ho, ?_⟩)
      exact (Order.sound_iff.mp (hsound ho).2).2.2.1
    · rcases ofSnapshot_refuses_iff.mp hrefused with hv | hflaw
      · exact .inl hv
      · exact .inr (.inr (checkRestored_refuses_iff.mp hflaw))
  · by_cases hv : snap.version = Snapshot.currentVersion
    · rintro (hne | hvalid | hflawed)
      · exact absurd hv hne
      · refine .inl ⟨restored snap, ofSnapshot_eq_ok.mpr ⟨hv, fun {id o} ho => ?_, rfl⟩, ?_⟩
        · obtain ⟨hvalid, hsize⟩ := hvalid id o ho
          exact ⟨hvalid.id_eq, hvalid.sound hsize⟩
        · exact fun id o ho => (hvalid id o ho).1
      · exact .inr (ofSnapshot_refuses_iff.mpr (.inr (checkRestored_refuses_iff.mpr hflawed)))
    · exact fun _ => .inr (ofSnapshot_refuses_iff.mpr (.inl hv))
  · intro s hs id o ho
    obtain ⟨-, hsound, rfl⟩ := ofSnapshot_eq_ok.mp hs
    obtain ⟨hid, hsound⟩ := hsound ho
    obtain ⟨hl, -, -, hle⟩ := Order.sound_iff.mp hsound
    refine ⟨hid, hl, hle, fun hvalid => ⟨hvalid.side_eq, hvalid.filled⟩, ?_⟩
    rintro ⟨hside, hfilled⟩
    exact Order.valid_iff.mpr ⟨hid, hl, Order.inBounds_of_filled hside hfilled hle⟩

/-- A snapshot of a store that holds one order. -/
def snapshotOf (o : Order) : Snapshot :=
  ⟨Snapshot.currentVersion, 0, { empty.toStoreData with orders := (∅ : Map Hash Order).insert o.id o }⟩

theorem getElem?_snapshotOf (o : Order) (id : Hash) :
    (snapshotOf o).data.orders[id]? = if o.id = id then some o else none := by
  rw [snapshotOf, Map.getElem?_insert_key]
  rfl

theorem ofSnapshot_snapshotOf {o : Order} (h : o.Sound) :
    ofSnapshot (snapshotOf o) = .ok (.ok (restored (snapshotOf o))) := by
  refine ofSnapshot_eq_ok.mpr ⟨rfl, fun {id p} hp => ?_, rfl⟩
  rw [getElem?_snapshotOf] at hp
  split at hp
  next hid =>
    cases hp
    exact ⟨hid, h⟩
  next => cases hp

/-- An order to buy ten, with a given fill. -/
def longOfTen (filled : Amount) : Order :=
  { Order.place default (.limit ⟨⟨0, default, 10, 20000000, 1, false⟩, false⟩) 1 with filled }

/-- Filled as if it sold, such an order is loaded with twice its size left to fill. A fill that has no
magnitude stops the check. -/
theorem snapshot_mishandled :
    (∃ s, ofSnapshot (snapshotOf (longOfTen (.clamp (-10)))) = .ok (.ok s) ∧
      s.orders[(default : Hash)]? = some (longOfTen (.clamp (-10)))) ∧
    (longOfTen (.clamp (-10))).unfilled = .ok 20 ∧
    ¬ (snapshotOf (longOfTen (.clamp (-10)))).Handled ∧
    Snapshot.ofBytes (snapshotOf (longOfTen (.clamp (-10)))).toBytes =
      .ok (snapshotOf (longOfTen (.clamp (-10)))) ∧
    ofSnapshot (snapshotOf (longOfTen Amount.least)) = .error .negOverflow ∧
    ¬ (snapshotOf (longOfTen Amount.least)).Handled ∧
    Snapshot.ofBytes (snapshotOf (longOfTen Amount.least)).toBytes =
      .ok (snapshotOf (longOfTen Amount.least)) := by
  have hloaded : ofSnapshot (snapshotOf (longOfTen (.clamp (-10)))) =
      .ok (.ok (restored (snapshotOf (longOfTen (.clamp (-10)))))) :=
    ofSnapshot_snapshotOf (Order.sound_iff.mpr (by decide))
  have hstored : (restored (snapshotOf (longOfTen (.clamp (-10))))).orders[(default : Hash)]? =
    some (longOfTen (.clamp (-10))) := (getElem?_snapshotOf ..).trans (if_pos rfl)
  have hstopped : ofSnapshot (snapshotOf (longOfTen Amount.least)) = .error .negOverflow := rfl
  refine ⟨⟨_, hloaded, hstored⟩, by decide, ?_, Snapshot.ofBytes_toBytes rfl, hstopped, ?_,
    Snapshot.ofBytes_toBytes rfl⟩
  · rintro (⟨s, hs, hvalid⟩ | ⟨flaw, hrefused⟩)
    · rw [hloaded] at hs
      cases hs
      have hfilled := (hvalid _ _ hstored).filled
      revert hfilled
      decide
    · rw [hloaded] at hrefused
      cases hrefused
  · rintro (⟨s, hs, -⟩ | ⟨flaw, hrefused⟩)
    · rw [hstopped] at hs
      cases hs
    · rw [hstopped] at hrefused
      cases hrefused

end Store
end PerpExchange
