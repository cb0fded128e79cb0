import Mathlib.Data.List.Sort
import PerpExchange.Proofs.Map
import PerpExchange.Snapshot.Storage

/-! Snapshots in memory. The list is in order of distinct blocks, so that its members say all about
it, and it stands for a map from blocks to bytes. -/
namespace PerpExchange

/-- Lists in order of distinct blocks are told apart by their members. -/
theorem eq_of_mem_iff_of_ascending {α : Type} (block : α → BlockNumber) {items items' : List α}
    (h : items.Pairwise fun s t => block s < block t)
    (h' : items'.Pairwise fun s t => block s < block t)
    (hmem : ∀ s, s ∈ items ↔ s ∈ items') : items = items' := by
  have hirrefl : Std.Irrefl fun s t : α => block s < block t :=
    ⟨fun s => UInt64.lt_irrefl (block s)⟩
  have hantisymm : Std.Antisymm fun s t : α => block s < block t :=
    ⟨fun _ _ hlt hgt => absurd hgt (UInt64.lt_asymm hlt)⟩
  exact h.eq_of_mem_iff h' hmem

/-- The entries of a map by blocks, from the lowest one up. -/
theorem Map.pairwise_toList {ν : Type} (m : Map BlockNumber ν) :
    m.toList.Pairwise fun e e' => e.1 < e'.1 :=
  Std.ExtTreeMap.ordered_keys_toList.imp Std.compare_eq_lt.mp

/-- The snapshot that an entry of a map stands for. -/
def StoredSnapshot.ofEntry (e : BlockNumber × List UInt8) : StoredSnapshot := ⟨e.1, e.2⟩

namespace SnapshotList
variable {l : SnapshotList} {snapshots : Map BlockNumber (List UInt8)}

/-- The members of the list are the entries of a map. -/
def Lists (l : SnapshotList) (snapshots : Map BlockNumber (List UInt8)) : Prop :=
  ∀ s, s ∈ l.toList ↔ snapshots[s.block]? = some s.bytes

theorem lists_empty : (∅ : SnapshotList).Lists ∅ := by
  intro s
  have hnil : (∅ : SnapshotList).toList = [] := rfl
  simp [hnil]

/-- Both are in order, so that they have the same members in the same places. -/
theorem Lists.toList_eq (h : l.Lists snapshots) :
    l.toList = snapshots.toList.map StoredSnapshot.ofEntry := by
  have hascending : (snapshots.toList.map StoredSnapshot.ofEntry).Pairwise
      fun s t => s.block < t.block := List.pairwise_map.mpr (Map.pairwise_toList snapshots)
  apply eq_of_mem_iff_of_ascending StoredSnapshot.block l.ascending hascending
  intro s
  rw [h s, ← Std.ExtTreeMap.mem_toList_iff_getElem?_eq_some, List.mem_map]
  constructor
  · exact fun he => ⟨_, he, rfl⟩
  · rintro ⟨e, he, rfl⟩
    exact he

theorem Lists.latest?_eq (h : l.Lists snapshots) :
    l.latest? = snapshots.toList.getLast?.map StoredSnapshot.ofEntry := by
  rw [latest?, h.toList_eq, List.getLast?_map]

theorem Lists.atBlock?_eq (h : l.Lists snapshots) (b : BlockNumber) : l.atBlock? b =
    (snapshots.toList.reverse.find? (·.1 ≤ b)).map StoredSnapshot.ofEntry := by
  rw [atBlock?, h.toList_eq, ← List.map_reverse, List.find?_map]
  rfl

theorem Lists.infos_eq (h : l.Lists snapshots) :
    l.infos = snapshots.toList.map fun e => StoredSnapshot.info (.ofEntry e) := by
  rw [infos, h.toList_eq, List.map_map]
  rfl

theorem Lists.length_eq (h : l.Lists snapshots) : l.toList.length = snapshots.size := by
  rw [h.toList_eq, List.length_map, Std.ExtTreeMap.length_toList]

theorem mem_save {s t : StoredSnapshot} :
    t ∈ (l.save s).toList ↔ t ∈ l.toList ∧ t.block ≠ s.block ∨ t = s := by
  have hsave : (l.save s).toList.Perm (l.others s.block ++ [s]) := List.mergeSort_perm _ _
  rw [hsave.mem_iff, List.mem_append, List.mem_singleton, others, List.mem_filter,
    decide_eq_true_iff]

theorem Lists.save (h : l.Lists snapshots) (s : StoredSnapshot) :
    (l.save s).Lists (snapshots.insert s.block s.bytes) := by
  intro t
  rw [mem_save, h t, Map.getElem?_insert_key]
  by_cases hblock : s.block = t.block
  · rw [if_pos hblock, Option.some.injEq]
    constructor
    · rintro (⟨-, hne⟩ | rfl)
      · exact absurd hblock.symm hne
      · rfl
    · intro hbytes
      obtain ⟨_, _⟩ := s
      obtain ⟨_, _⟩ := t
      cases hblock
      cases hbytes
      exact .inr rfl
  · rw [if_neg hblock]
    constructor
    · rintro (⟨hold, -⟩ | rfl)
      · exact hold
      · exact absurd rfl hblock
    · exact fun hold => .inl ⟨hold, Ne.symm hblock⟩

theorem Lists.deleteBefore (h : l.Lists snapshots) (b : BlockNumber) :
    (l.deleteBefore b).1.Lists (snapshots.filter fun c _ => b ≤ c) := by
  intro t
  rw [SnapshotList.deleteBefore, List.mem_filter, h t, Std.ExtTreeMap.getElem?_filter',
    Option.filter_eq_some_iff]

/-- What is deleted is counted by what is left. -/
theorem Lists.count_deleteBefore (h : l.Lists snapshots) (b : BlockNumber) :
    (l.deleteBefore b).2 = snapshots.size - (snapshots.filter fun c _ => b ≤ c).size := by
  rw [← h.length_eq, ← (h.deleteBefore b).length_eq]
  rfl

theorem save_empty (s : StoredSnapshot) : ((∅ : SnapshotList).save s).toList = [s] :=
  List.mergeSort_singleton s

end SnapshotList
end PerpExchange
