import PerpExchange.Proofs.SnapshotList
import PerpExchange.Proofs.Texts

/-! A directory of snapshots. The name of a file gives its block back, so that a directory is a map
from blocks to bytes, whatever the order in which its files are listed. -/
namespace PerpExchange

namespace Decimal

@[simp] theorem value?_padded (width n : Nat) : value? (padded width n) = some n := by
  have hdigit : ∀ c ∈ padded width n, c.isDigit = true := by
    intro c hc
    rcases List.mem_append.mp hc with hc | hc
    · rw [List.eq_of_mem_replicate hc]
      rfl
    · exact isDigit_of_mem_digits hc
  have hne : padded width n ≠ [] := List.append_ne_nil_of_right_ne_nil _ (digits_ne_nil n)
  rw [value?, if_pos ⟨hne, List.all_eq_true.mpr hdigit⟩, padded, List.leftpad,
    Nat.ofDigitChars_append, Nat.ofDigitChars_replicate_zero, Nat.mul_zero, digits,
    Nat.ofDigitChars_toDigits (by decide) (by decide)]

/-- Digits are read as they are: there is no plus sign in front of them. -/
theorem word64?_of_value? {cs : List Char} {b : UInt64} (h : value? cs = some b.toNat) :
    word64? cs = some b := by
  have hplus : ∀ rest, cs ≠ '+' :: rest := by
    rintro rest rfl
    rw [value?, if_neg (by simp [show '+'.isDigit = false from rfl])] at h
    cases h
  have hword : word64? cs = (value? cs).bind fun n =>
      if n < UInt64.size then some (UInt64.ofNat n) else none := by
    unfold word64?
    split
    next rest => exact absurd rfl (hplus rest)
    next => rfl
  rw [hword, h, Option.bind_some, if_pos b.toNat_lt_size, UInt64.ofNat_toNat]

end Decimal

namespace SnapshotFile
variable {b c : BlockNumber}

@[simp] theorem between?_append (front middle back : List Char) :
    between? front back (front ++ middle ++ back) = some middle := by
  have hfront : front.isPrefixOf (front ++ middle ++ back) = true := by simp
  have hback : back.isSuffixOf ((front ++ middle ++ back).drop front.length) = true := by simp
  rw [between?, if_pos ⟨hfront, hback⟩]
  simp

/-- A name is read back as its block. -/
@[simp] theorem block?_name (b : BlockNumber) : block? (name b) = some b := by
  rw [block?, name, String.toList_ofList, base, between?_append]
  exact Decimal.word64?_of_value? (Decimal.value?_padded 20 b.toNat)

/-- What is being written is no snapshot yet. -/
@[simp] theorem block?_temporaryName (b : BlockNumber) : block? (temporaryName b) = none := by
  have hback : ¬ extension.isSuffixOf ((base b ++ ".tmp".toList).drop stem.length) := by
    rw [base, List.append_assoc, List.drop_left, List.isSuffixOf, List.reverse_append]
    exact Bool.false_ne_true
  rw [block?, temporaryName, String.toList_ofList, between?, if_neg fun h => hback h.2]
  rfl

theorem name_inj : name b = name c ↔ b = c := by
  refine ⟨fun h => ?_, fun h => h ▸ rfl⟩
  have hblock := congrArg block? h
  rwa [block?_name, block?_name, Option.some.injEq] at hblock

theorem name_ne_temporaryName : name b ≠ temporaryName c := by
  intro h
  have hblock := congrArg block? h
  rw [block?_name, block?_temporaryName] at hblock
  cases hblock

end SnapshotFile

/-- Erasing the lower blocks one after another leaves the others. -/
theorem Map.foldl_erase_lower {ν : Type} (m : Map BlockNumber ν) (b : BlockNumber) :
    ((m.toList.filter (·.1 < b)).map Prod.fst).foldl (fun m c => m.erase c) m =
      m.filter fun c _ => b ≤ c := by
  apply Std.ExtTreeMap.ext_getElem?
  intro c
  rw [Map.getElem?_foldl_erase, Std.ExtTreeMap.getElem?_filter']
  cases hc : m[c]? with
  | none => simp
  | some v =>
    have hmem : c ∈ (m.toList.filter (·.1 < b)).map Prod.fst ↔ c < b := by
      simp [Std.ExtTreeMap.mem_toList_iff_getElem?_eq_some, hc]
    by_cases hlt : c < b
    · simp [hmem, hlt, Option.filter, UInt64.not_le.mpr hlt]
    · simp [hmem, hlt, Option.filter, UInt64.not_lt.mp hlt]

namespace Directory
variable {d : Directory} {snapshots : Map BlockNumber (List UInt8)}

/-- The file for a block and the bytes that are stored for it. -/
def fileOf (entry : BlockNumber × List UInt8) : String × DirectoryItem :=
  (SnapshotFile.name entry.1, .file entry.2)

/-- There is a file in the directory for each snapshot, and nothing else. -/
def Mirrors (d : Directory) (snapshots : Map BlockNumber (List UInt8)) : Prop :=
  ∃ items, d.items = some items ∧ items.Perm (snapshots.toList.map fileOf)

theorem mirrors_empty : empty.Mirrors ∅ := ⟨[], rfl, .refl _⟩

/-- Names are unique, so that a file is found by its name. -/
theorem Mirrors.item?_name (h : d.Mirrors snapshots) (b : BlockNumber) :
    d.item? (SnapshotFile.name b) = snapshots[b]?.map DirectoryItem.file := by
  obtain ⟨items, hitems, hperm⟩ := h
  have hmem : ∀ e ∈ items, e.1 = SnapshotFile.name b →
      snapshots[b]?.map DirectoryItem.file = some e.2 := by
    intro e he hname
    obtain ⟨⟨c, bytes⟩, hentry, rfl⟩ := List.mem_map.mp (hperm.mem_iff.mp he)
    obtain rfl := SnapshotFile.name_inj.mp hname
    rw [Std.ExtTreeMap.mem_toList_iff_getElem?_eq_some.mp hentry]
    rfl
  rw [item?, hitems, Option.getD_some]
  cases hlookup : items.lookup (SnapshotFile.name b) with
  | some item =>
    obtain ⟨front, back, rfl, -⟩ := List.lookup_eq_some_iff.mp hlookup
    exact (hmem _ (List.mem_append_right front List.mem_cons_self) rfl).symm
  | none =>
    cases hentry : snapshots[b]? with
    | none => rfl
    | some bytes =>
      have hfile := hperm.mem_iff.mpr (List.mem_map_of_mem (f := fileOf)
        (Std.ExtTreeMap.mem_toList_iff_getElem?_eq_some.mpr hentry))
      have hne := List.lookup_eq_none_iff.mp hlookup _ hfile
      simp [fileOf] at hne

theorem Mirrors.item?_temporaryName (h : d.Mirrors snapshots) (b : BlockNumber) :
    d.item? (SnapshotFile.temporaryName b) = none := by
  obtain ⟨items, hitems, hperm⟩ := h
  rw [item?, hitems, Option.getD_some, List.lookup_eq_none_iff]
  intro e he
  obtain ⟨entry, -, rfl⟩ := List.mem_map.mp (hperm.mem_iff.mp he)
  exact bne_iff_ne.mpr SnapshotFile.name_ne_temporaryName.symm

theorem Mirrors.read?_name (h : d.Mirrors snapshots) (b : BlockNumber) :
    d.read? (SnapshotFile.name b) = snapshots[b]? := by
  rw [read?, h.item?_name b]
  cases snapshots[b]? <;> rfl

theorem pairwise_snapshotNames (d : Directory) :
    d.snapshotNames.Pairwise fun e e' => e.1 ≤ e'.1 := pairwise_mergeSort_block Prod.fst _

/-- The names are listed from the lowest block up, in whatever order the directory has them. -/
theorem Mirrors.snapshotNames_eq (h : d.Mirrors snapshots) :
    d.snapshotNames = snapshots.toList.map fun e => (e.1, SnapshotFile.name e.1) := by
  obtain ⟨items, hitems, hperm⟩ := h
  have hnames : d.names.Perm (snapshots.toList.map fun e => SnapshotFile.name e.1) := by
    simpa [names, hitems, fileOf, Function.comp_def] using hperm.map Prod.fst
  have hblocks : d.snapshotNames.Perm
      (snapshots.toList.map fun e => (e.1, SnapshotFile.name e.1)) := by
    refine (List.mergeSort_perm _ _).trans ?_
    simpa [List.filterMap_map, Function.comp_def] using
      hnames.filterMap fun name => (SnapshotFile.block? name).map fun b => (b, name)
  refine hblocks.eq_of_pairwise ?_ d.pairwise_snapshotNames
    (List.pairwise_map.mpr ((Map.pairwise_toList snapshots).imp UInt64.le_of_lt))
  intro x y hx hy hxy hyx
  obtain ⟨e, -, rfl⟩ := List.mem_map.mp (hblocks.mem_iff.mp hx)
  obtain ⟨e', -, rfl⟩ := List.mem_map.mp hy
  rw [Prod.mk.injEq, SnapshotFile.name_inj, and_self]
  exact UInt64.le_antisymm hxy hyx

/-- A file that is not there yet is put behind the others. -/
theorem put?_of_item? {items : List (String × DirectoryItem)} {name : String} {item : DirectoryItem}
    (hitems : d.items = some items) (hnone : d.item? name = none) :
    d.put? name item = some ⟨some (items ++ [(name, item)])⟩ := by
  rw [put?, hitems, Option.bind_eq_bind, Option.bind_some, hnone]
  rfl

theorem Mirrors.put?_name {b : BlockNumber} (h : d.Mirrors snapshots) (hnone : snapshots[b]? = none)
    (bytes : List UInt8) : ∃ d', d.put? (SnapshotFile.name b) (.file bytes) = some d' ∧
      d'.Mirrors (snapshots.insert b bytes) := by
  have hitem : d.item? (SnapshotFile.name b) = none := by
    rw [h.item?_name b, hnone]
    rfl
  obtain ⟨items, hitems, hperm⟩ := h
  refine ⟨_, put?_of_item? hitems hitem, _, rfl, ?_⟩
  have hinsert := Map.toList_insert_perm (m := snapshots) (k := b) (v := bytes)
  rw [Map.erase_eq_self hnone] at hinsert
  exact (List.perm_append_singleton _ _).trans ((hperm.cons (fileOf (b, bytes))).trans
    (hinsert.map fileOf).symm)

theorem Mirrors.delete?_name {b : BlockNumber} {bytes : List UInt8} (h : d.Mirrors snapshots)
    (hsome : snapshots[b]? = some bytes) :
    ∃ d', d.delete? (SnapshotFile.name b) = some d' ∧ d'.Mirrors (snapshots.erase b) := by
  have hread : d.read? (SnapshotFile.name b) = some bytes := (h.read?_name b).trans hsome
  obtain ⟨items, hitems, hperm⟩ := h
  refine ⟨⟨some (items.filter (·.1 ≠ SnapshotFile.name b))⟩, ?_, _, rfl, ?_⟩
  · rw [delete?, hread, hitems]
    rfl
  have hother : ∀ e ∈ (snapshots.erase b).toList, (fileOf e).1 ≠ SnapshotFile.name b := by
    rintro ⟨c, bytes'⟩ he hname
    rw [Std.ExtTreeMap.mem_toList_iff_getElem?_eq_some, Map.getElem?_erase_key,
      if_pos (SnapshotFile.name_inj.mp hname).symm] at he
    cases he
  have hentries := (Map.toList_perm_cons_erase hsome).map fileOf
  refine ((hperm.trans hentries).filter _).trans ?_
  rw [List.map_cons, List.filter_cons_of_neg (by simp [fileOf]), List.filter_eq_self.mpr]
  intro e he
  obtain ⟨entry, hentry, rfl⟩ := List.mem_map.mp he
  exact decide_eq_true (hother entry hentry)

/-- A file that has just been written gets another name as if it had been written under that. -/
theorem rename?_of_item? {items : List (String × DirectoryItem)} {name newName : String}
    {bytes : List UInt8} (hitems : d.items = some items) (hnone : d.item? name = none) :
    (⟨some (items ++ [(name, .file bytes)])⟩ : Directory).rename? name newName =
      ((d.delete? newName).getD d).put? newName (.file bytes) := by
  have hlookup : items.lookup name = none := by
    rwa [item?, hitems, Option.getD_some] at hnone
  have hread : (⟨some (items ++ [(name, .file bytes)])⟩ : Directory).read? name = some bytes := by
    rw [read?, item?, Option.getD_some, List.lookup_append, hlookup, Option.none_or,
      List.lookup_cons_self]
  have hkept : (items ++ [(name, DirectoryItem.file bytes)]).filter (·.1 ≠ name) = items := by
    rw [List.filter_append, List.filter_cons_of_neg (by simp), List.filter_nil, List.append_nil,
      List.filter_eq_self]
    intro e he
    simpa using (bne_iff_ne.mp (List.lookup_eq_none_iff.mp hlookup e he)).symm
  have hdelete : (⟨some (items ++ [(name, .file bytes)])⟩ : Directory).delete? name = some d := by
    rw [delete?, hread, Option.bind_eq_bind, Option.bind_some, Option.map_some, hkept, ← hitems]
    rfl
  rw [rename?, hread, hdelete]
  rfl

/-- A snapshot takes the place of any that is stored for its block. -/
theorem Mirrors.saveSnapshot (h : d.Mirrors snapshots) (s : StoredSnapshot) :
    ∃ d', d.saveSnapshot s = (d', .ok ()) ∧ d'.Mirrors (snapshots.insert s.block s.bytes) := by
  have htemporary := h.item?_temporaryName s.block
  have hplace : ((d.delete? (SnapshotFile.name s.block)).getD d).Mirrors
      (snapshots.erase s.block) := by
    cases hentry : snapshots[s.block]? with
    | some bytes =>
      obtain ⟨d', hdelete, hmirrors⟩ := h.delete?_name hentry
      rwa [hdelete]
    | none =>
      have hread : d.read? (SnapshotFile.name s.block) = none := (h.read?_name _).trans hentry
      rwa [delete?, hread, Map.erase_eq_self hentry]
  obtain ⟨d', hput, hmirrors⟩ := hplace.put?_name
    (by rw [Map.getElem?_erase_key, if_pos rfl]) s.bytes
  obtain ⟨items, hitems, hperm⟩ := h
  refine ⟨d', ?_, by rwa [Map.insert_erase_key] at hmirrors⟩
  rw [Directory.saveSnapshot, put?_of_item? hitems htemporary]
  simp only [rename?_of_item? hitems htemporary, hput]

/-- Files that are there are all deleted. -/
theorem Mirrors.deleteAll (h : d.Mirrors snapshots) {blocks : List BlockNumber}
    (hnodup : blocks.Nodup) (hblocks : ∀ b ∈ blocks, ∃ bytes, snapshots[b]? = some bytes) :
    ∃ d', d.deleteAll (blocks.map SnapshotFile.name) = (d', .ok blocks.length) ∧
      d'.Mirrors (blocks.foldl (fun m b => m.erase b) snapshots) := by
  induction blocks generalizing d snapshots with
  | nil => exact ⟨d, rfl, h⟩
  | cons b blocks ih =>
    obtain ⟨⟨bytes, hbytes⟩, hblocks⟩ := List.forall_mem_cons.mp hblocks
    obtain ⟨hb, hnodup⟩ := List.nodup_cons.mp hnodup
    obtain ⟨d', hdelete, hmirrors⟩ := h.delete?_name hbytes
    obtain ⟨d'', hrest, hmirrors⟩ := ih hmirrors hnodup fun c hc => by
      rw [Map.getElem?_erase_key, if_neg (ne_of_mem_of_not_mem hc hb).symm]
      exact hblocks c hc
    refine ⟨d'', ?_, hmirrors⟩
    rw [List.map_cons, Directory.deleteAll, hdelete]
    simp only [hrest]
    rfl

/-- The files of all lower blocks are deleted, and counted. -/
theorem Mirrors.deleteSnapshotsBefore (h : d.Mirrors snapshots) (b : BlockNumber) :
    ∃ d', d.deleteSnapshotsBefore b =
        (d', .ok (snapshots.size - (snapshots.filter fun c _ => b ≤ c).size)) ∧
      d'.Mirrors (snapshots.filter fun c _ => b ≤ c) := by
  let lower := (snapshots.toList.filter (·.1 < b)).map Prod.fst
  have hnames : (d.snapshotNames.filter fun e => e.1 < b).map Prod.snd =
      lower.map SnapshotFile.name := by
    rw [h.snapshotNames_eq, List.filter_map, List.map_map, List.map_map]
    rfl
  have hnodup : lower.Nodup := by
    refine List.pairwise_map.mpr (((Map.pairwise_toList snapshots).filter _).imp ?_)
    exact fun hlt => UInt64.ne_of_lt hlt
  have hlower : ∀ c ∈ lower, ∃ bytes, snapshots[c]? = some bytes := by
    intro c hc
    obtain ⟨e, he, rfl⟩ := List.mem_map.mp hc
    exact ⟨e.2, Std.ExtTreeMap.mem_toList_iff_getElem?_eq_some.mp (List.mem_filter.mp he).1⟩
  have hsize := Map.length_add_size_foldl_erase hnodup hlower
  obtain ⟨d', hdelete, hmirrors⟩ := h.deleteAll hnodup hlower
  rw [Map.foldl_erase_lower] at hsize hmirrors
  have hcount : snapshots.size - (snapshots.filter fun c _ => b ≤ c).size = lower.length := by
    omega
  exact ⟨d', by rw [Directory.deleteSnapshotsBefore, hnames, hcount, hdelete], hmirrors⟩

theorem Mirrors.readSnapshot_name (h : d.Mirrors snapshots) {e : BlockNumber × List UInt8}
    (he : e ∈ snapshots.toList) :
    d.readSnapshot e.1 (SnapshotFile.name e.1) = .ok (.ofEntry e) := by
  rw [readSnapshot, h.read?_name, Std.ExtTreeMap.mem_toList_iff_getElem?_eq_some.mp he]
  rfl

/-- What is found among the names is found among the entries. -/
theorem Mirrors.readFound (h : d.Mirrors snapshots) {e? : Option (BlockNumber × List UInt8)}
    (hmem : ∀ e, e? = some e → e ∈ snapshots.toList) :
    d.readFound (e?.map fun e => (e.1, SnapshotFile.name e.1)) =
      e?.elim (.error .notFound) fun e => .ok (.ofEntry e) := by
  cases e? with
  | none => rfl
  | some e => exact h.readSnapshot_name (hmem e rfl)

theorem Mirrors.latestSnapshot (h : d.Mirrors snapshots) : d.latestSnapshot =
    snapshots.toList.getLast?.elim (.error .notFound) fun e => .ok (.ofEntry e) := by
  rw [Directory.latestSnapshot, h.snapshotNames_eq, List.getLast?_map]
  exact h.readFound fun e he => List.mem_of_getLast? he

theorem Mirrors.snapshotAt (h : d.Mirrors snapshots) (b : BlockNumber) : d.snapshotAt b =
    (snapshots.toList.reverse.find? (·.1 ≤ b)).elim (.error .notFound)
      fun e => .ok (.ofEntry e) := by
  rw [Directory.snapshotAt, h.snapshotNames_eq, ← List.map_reverse, List.find?_map]
  exact h.readFound fun e he => List.mem_reverse.mp (List.mem_of_find?_eq_some he)

theorem Mirrors.snapshotInfos (h : d.Mirrors snapshots) : d.snapshotInfos =
    snapshots.toList.map fun e => StoredSnapshot.info (.ofEntry e) := by
  rw [Directory.snapshotInfos, h.snapshotNames_eq, List.filterMap_map, ← List.filterMap_eq_map]
  refine List.filterMap_congr fun e he => ?_
  simp only [Function.comp_apply, h.readSnapshot_name he]
  rfl

end Directory
end PerpExchange
