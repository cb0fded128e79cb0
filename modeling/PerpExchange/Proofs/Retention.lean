import Mathlib.Data.List.DropRight
import Mathlib.Data.List.Dedup
import Mathlib.Data.List.Sort
import PerpExchange.Proofs.Interchange
import PerpExchange.Snapshot.Snapshotter

/-! Which snapshots are kept. All but the newest are deleted each time one has been stored, and yet
what is left is what would be left if nothing had been deleted before. -/
namespace PerpExchange

theorem rtake_append_of_le {α : Type} {front back : List α} {count : Nat}
    (h : count ≤ back.length) : (front ++ back).rtake count = back.rtake count := by
  have hlength : front.length + back.length - count = front.length + (back.length - count) := by
    omega
  rw [List.rtake, List.rtake, List.length_append, hlength, List.drop_length_add_append]

namespace Map
variable {ν : Type} {m all : Map BlockNumber ν} {b : BlockNumber} {v : ν} {count : Nat}

/-- An entry goes between those of lower and those of higher blocks. -/
theorem toList_insert (m : Map BlockNumber ν) (b : BlockNumber) (v : ν) :
    (m.insert b v).toList = m.toList.filter (·.1 < b) ++ (b, v) :: m.toList.filter (b < ·.1) := by
  have hlower : ∀ e ∈ m.toList.filter (·.1 < b), e.1 < b := by simp
  have hhigher : ∀ e ∈ m.toList.filter (b < ·.1), b < e.1 := by simp
  refine eq_of_mem_iff_of_ascending Prod.fst (pairwise_toList _)
    (List.pairwise_append.mpr ⟨(pairwise_toList m).filter _,
      List.pairwise_cons.mpr ⟨hhigher, (pairwise_toList m).filter _⟩, fun e he e' he' => ?_⟩) ?_
  · rcases List.mem_cons.mp he' with rfl | he'
    · exact hlower e he
    · exact UInt64.lt_trans (hlower e he) (hhigher e' he')
  · rintro ⟨c, w⟩
    simp only [List.mem_append, List.mem_cons, List.mem_filter, decide_eq_true_eq, Prod.mk.injEq,
      Std.ExtTreeMap.mem_toList_iff_getElem?_eq_some, getElem?_insert_key]
    by_cases hc : b = c
    · subst hc
      simp [UInt64.lt_irrefl, eq_comm]
    · have hne : c < b ∨ b < c := UInt64.lt_or_lt_of_ne (Ne.symm hc)
      simp only [hc, Ne.symm hc, if_false, false_and, false_or]
      tauto

/-- Where only the last entries of a map are kept, adding an entry leaves the same last ones. -/
theorem rtake_toList_insert (h : m.toList = all.toList.rtake count) (b : BlockNumber) (v : ν) :
    (m.insert b v).toList.rtake count = (all.insert b v).toList.rtake count := by
  have hsplit : all.toList = all.toList.rdrop count ++ m.toList := by
    rw [h, List.rdrop, List.rtake, List.take_append_drop]
  have hlength : all.toList.rdrop count = [] ∨ m.toList.length = count := by
    rw [h, List.rdrop, List.rtake, List.length_drop, List.take_eq_nil_iff]
    omega
  generalize all.toList.rdrop count = older at hsplit hlength
  have hall : (all.insert b v).toList = older.filter (·.1 < b) ++ m.toList.filter (·.1 < b) ++
      (b, v) :: (older.filter (b < ·.1) ++ m.toList.filter (b < ·.1)) := by
    rw [toList_insert, hsplit, List.filter_append, List.filter_append]
  cases hhigher : older.filter (b < ·.1) with
  | nil =>
    -- The entry goes among those that are kept.
    have hinsert : (all.insert b v).toList = older.filter (·.1 < b) ++ (m.insert b v).toList := by
      rw [hall, hhigher, toList_insert, List.append_assoc, List.nil_append]
    rcases hlength with rfl | hlength
    · rw [hinsert]
      rfl
    · have hsize := Std.ExtTreeMap.size_le_size_insert (t := m) (k := b) (v := v)
      rw [← Std.ExtTreeMap.length_toList, ← Std.ExtTreeMap.length_toList, hlength] at hsize
      rw [hinsert, rtake_append_of_le hsize]
  | cons e higher =>
    -- It goes below those that are kept, which are as many as can be.
    have he := List.mem_filter.mp (hhigher ▸ List.mem_cons_self : e ∈ older.filter (b < ·.1))
    have hbelow : ∀ e' ∈ m.toList, b < e'.1 := by
      have hsorted := pairwise_toList all
      rw [hsplit] at hsorted
      exact fun e' he' => UInt64.lt_trans (of_decide_eq_true he.2)
        ((List.pairwise_append.mp hsorted).2.2 e he.1 e' he')
    have hkept : m.toList.filter (b < ·.1) = m.toList :=
      List.filter_eq_self.mpr fun e' he' => decide_eq_true (hbelow e' he')
    have hcount : count ≤ m.toList.length := by
      rcases hlength with rfl | hlength
      · cases hhigher
      · exact Nat.le_of_eq hlength.symm
    rw [hall, toList_insert, hkept, ← List.cons_append, ← List.append_assoc,
      rtake_append_of_le hcount, List.append_cons, rtake_append_of_le hcount]

/-- The entries from a block on are the last ones. -/
theorem filter_toList_append {front back : List (BlockNumber × ν)} {e : BlockNumber × ν}
    (h : m.toList = front ++ e :: back) : m.toList.filter (e.1 ≤ ·.1) = e :: back := by
  have hsorted := pairwise_toList m
  rw [h] at hsorted
  obtain ⟨-, hback, hfront⟩ := List.pairwise_append.mp hsorted
  have hfront : front.filter (e.1 ≤ ·.1) = [] := by
    refine List.filter_eq_nil_iff.mpr fun e' he' => ?_
    simpa using hfront e' he' e List.mem_cons_self
  have hback : back.filter (e.1 ≤ ·.1) = back := by
    refine List.filter_eq_self.mpr fun e' he' => decide_eq_true (UInt64.le_of_lt ?_)
    exact (List.pairwise_cons.mp hback).1 e' he'
  rw [h, List.filter_append, hfront, List.filter_cons_of_pos (by simp), hback,
    List.nil_append]

end Map

/-- The snapshot of a store, for its last accepted block. -/
def Store.stored (s : Store) : StoredSnapshot := ⟨s.lastAcceptedBlock, s.snapshot.toBytes⟩

/-- A call of a snapshotter, with the store at that time. -/
inductive SnapshotCall where
  | take (s : Store)
  | accepted (s : Store) (b : BlockNumber)

/-- The snapshot that a call stores, if it takes one. -/
def SnapshotCall.stored? (interval : UInt64) : SnapshotCall → Option StoredSnapshot
  | .take s => some s.stored
  | .accepted s b => if interval ≠ 0 ∧ b % interval = 0 then some s.stored else none

/-- The blocks of some snapshots, each once, the lowest first. -/
def blocksOf (saved : List StoredSnapshot) : List BlockNumber :=
  (saved.map StoredSnapshot.block).dedup.mergeSort fun b c => b ≤ c

/-- What was saved last for a block. -/
def lastSaved? (saved : List StoredSnapshot) (b : BlockNumber) : Option StoredSnapshot :=
  saved.reverse.find? (·.block = b)

theorem block_of_lastSaved? {saved : List StoredSnapshot} {b : BlockNumber} {s : StoredSnapshot}
    (h : lastSaved? saved b = some s) : s.block = b := by
  unfold lastSaved? at h
  simpa using List.find?_some h

/-- What some snapshots come to if none is deleted. -/
def allSaved (saved : List StoredSnapshot) : Map BlockNumber (List UInt8) :=
  saved.foldl (fun m s => m.insert s.block s.bytes) ∅

section
variable (saved : List StoredSnapshot)

theorem allSaved_append (s : StoredSnapshot) :
    allSaved (saved ++ [s]) = (allSaved saved).insert s.block s.bytes := by
  rw [allSaved, List.foldl_append]
  rfl

theorem getElem?_allSaved (b : BlockNumber) :
    (allSaved saved)[b]? = (lastSaved? saved b).map StoredSnapshot.bytes := by
  induction saved using List.reverseRecOn with
  | nil => exact Std.ExtTreeMap.getElem?_empty
  | append_singleton saved s ih =>
    rw [allSaved_append, Map.getElem?_insert_key, lastSaved?, List.reverse_concat, List.find?_cons]
    by_cases hb : s.block = b
    · rw [if_pos hb, decide_eq_true hb]
      rfl
    · rw [if_neg hb, decide_eq_false hb]
      exact ih

theorem mem_blocksOf {b : BlockNumber} : b ∈ blocksOf saved ↔ ∃ s ∈ saved, s.block = b := by
  rw [blocksOf, List.mem_mergeSort, List.mem_dedup, List.mem_map]

theorem pairwise_blocksOf : (blocksOf saved).Pairwise (· < ·) := by
  have hnodup : (blocksOf saved).Nodup :=
    (List.mergeSort_perm _ _).nodup_iff.mpr (List.nodup_dedup _)
  exact ((List.pairwise_mergeSort' (· ≤ ·) _).and hnodup).imp fun h =>
    UInt64.lt_of_le_of_ne h.1 h.2

theorem map_fst_allSaved : (allSaved saved).toList.map Prod.fst = blocksOf saved := by
  have hascending := List.pairwise_map.mpr (Map.pairwise_toList (allSaved saved))
  refine eq_of_mem_iff_of_ascending id hascending (pairwise_blocksOf saved) fun b => ?_
  have hmem : b ∈ (allSaved saved).toList.map Prod.fst ↔ ((allSaved saved)[b]?).isSome := by
    simp
  rw [hmem, getElem?_allSaved, Option.isSome_map, lastSaved?, List.find?_isSome, mem_blocksOf]
  simp

end

namespace Snapshotter
variable {n : Snapshotter} {snapshots : Map BlockNumber (List UInt8)} {saved : List StoredSnapshot}

/-- What a call makes of a snapshotter, and what it answers. -/
def call (n : Snapshotter) : SnapshotCall → Snapshotter × Except SnapshotError (Option SnapshotInfo)
  | .take s => (n.take s).map id (·.map some)
  | .accepted s b => n.onAccepted s b

def run (n : Snapshotter) (calls : List SnapshotCall) : Snapshotter :=
  calls.foldl (fun n c => (n.call c).1) n

/-- Of what is stored, the last entries stay. -/
theorem exists_trim (h : n.storage.Keeps snapshots) : ∃ storage snapshots',
    n.trim = { n with storage } ∧ storage.Keeps snapshots' ∧
      snapshots'.toList = snapshots.toList.rtake (max n.keep 1) := by
  have hinfos : n.storage.infos = snapshots.toList.map fun e => ⟨e.1, e.2.length⟩ := h.infos
  by_cases hfew : snapshots.toList.length ≤ max n.keep 1
  · have holdest : n.oldestKept? = none := by
      simp only [oldestKept?, hinfos, List.length_map, if_pos hfew]
    refine ⟨n.storage, snapshots, by rw [trim, holdest], h, ?_⟩
    rw [List.rtake, Nat.sub_eq_zero_of_le hfew, List.drop_zero]
  · have hi : snapshots.toList.length - max n.keep 1 < snapshots.toList.length := by omega
    generalize hlast : snapshots.toList.length - max n.keep 1 = i at hi
    have hdrop := List.drop_eq_getElem_cons hi
    obtain ⟨storage, hdelete, hkeeps⟩ := h.deleteBefore snapshots.toList[i].1
    refine ⟨storage, _, ?_, hkeeps, ?_⟩
    · have holdest :
          n.oldestKept? = some ⟨snapshots.toList[i].1, snapshots.toList[i].2.length⟩ := by
        simp only [oldestKept?, hinfos, List.length_map, if_neg hfew, hlast, List.getElem?_map,
          List.getElem?_eq_getElem hi, Option.map_some]
      rw [trim, holdest]
      simp only [hdelete]
    · have hsplit := List.take_append_drop i snapshots.toList
      rw [hdrop] at hsplit
      rw [Std.ExtTreeMap.toList_filter, Map.filter_toList_append hsplit.symm, List.rtake, hlast,
        hdrop]

/-- The storage has the newest of the snapshots that have been saved. -/
def Retains (n : Snapshotter) (saved : List StoredSnapshot) : Prop :=
  ∃ snapshots, n.storage.Keeps snapshots ∧
    snapshots.toList = (allSaved saved).toList.rtake (max n.keep 1)

theorem Retains.take (h : n.Retains saved) (s : Store) : ∃ storage,
    n.take s = ({ n with storage }, .ok s.stored.info) ∧
      Retains { n with storage } (saved ++ [s.stored]) := by
  obtain ⟨snapshots, hkeeps, hnewest⟩ := h
  obtain ⟨storage, hsave, hkeeps⟩ := hkeeps.save s.stored
  obtain ⟨storage', snapshots', htrim, hkeeps', hlast⟩ :=
    exists_trim (n := { n with storage }) hkeeps
  refine ⟨storage', ?_, snapshots', hkeeps', ?_⟩
  · have hsave : n.storage.save ⟨s.lastAcceptedBlock, s.snapshot.toBytes⟩ = (storage, .ok ()) :=
      hsave
    simp only [Snapshotter.take, hsave, htrim]
    rfl
  · rw [hlast, allSaved_append]
    exact Map.rtake_toList_insert hnewest _ _

/-- A call that takes a snapshot adds it to those that have been saved. Others change nothing. -/
theorem Retains.call (h : n.Retains saved) (c : SnapshotCall) : ∃ storage,
    n.call c = ({ n with storage }, .ok ((c.stored? n.interval).map StoredSnapshot.info)) ∧
      Retains { n with storage } (saved ++ (c.stored? n.interval).toList) := by
  cases c with
  | take s =>
    obtain ⟨storage, htake, hretains⟩ := h.take s
    exact ⟨storage, by rw [Snapshotter.call, htake]; rfl, hretains⟩
  | accepted s b =>
    rw [Snapshotter.call, onAccepted, SnapshotCall.stored?]
    by_cases hdue : n.interval ≠ 0 ∧ b % n.interval = 0
    · obtain ⟨storage, htake, hretains⟩ := h.take s
      refine ⟨storage, ?_, by rwa [if_pos hdue]⟩
      rw [if_pos hdue, if_neg (by tauto), htake]
      rfl
    · refine ⟨n.storage, ?_, ?_⟩
      · rw [if_neg hdue, if_pos (by tauto)]
        rfl
      · rw [if_neg hdue, Option.toList_none, List.append_nil]
        exact h

theorem Retains.run (h : n.Retains saved) (calls : List SnapshotCall) : ∃ storage,
    n.run calls = { n with storage } ∧
      Retains { n with storage } (saved ++ calls.filterMap (SnapshotCall.stored? n.interval)) := by
  induction calls generalizing n saved with
  | nil => exact ⟨n.storage, rfl, by simpa using h⟩
  | cons c calls ih =>
    obtain ⟨storage, hcall, hretains⟩ := h.call c
    obtain ⟨storage', hrun, hretains⟩ := ih hretains
    refine ⟨storage', ?_, ?_⟩
    · rw [Snapshotter.run, List.foldl_cons, hcall]
      exact hrun
    · have hsaved : (c :: calls).filterMap (SnapshotCall.stored? n.interval) =
          (c.stored? n.interval).toList ++ calls.filterMap (SnapshotCall.stored? n.interval) := by
        rw [List.filterMap_cons]
        cases c.stored? n.interval <;> rfl
      rwa [hsaved, ← List.append_assoc]

/-- What is stored are the highest blocks, with what was saved last for them. -/
theorem Retains.entries (h : n.Retains saved) :
    n.storage.entries.map Prod.fst = (blocksOf saved).rtake (max n.keep 1) ∧
      ∀ e ∈ n.storage.entries, ∃ s, lastSaved? saved e.1 = some s ∧ e.2 = .ok s := by
  obtain ⟨snapshots, hkeeps, hnewest⟩ := h
  rw [hkeeps.entries_eq, hnewest]
  constructor
  · rw [← map_fst_allSaved, List.rtake, List.rtake, List.map_map, List.length_map, ← List.map_drop]
    rfl
  · intro e he
    obtain ⟨⟨b, bytes⟩, hentry, rfl⟩ := List.mem_map.mp he
    have hall := Std.ExtTreeMap.mem_toList_iff_getElem?_eq_some.mp (List.mem_of_mem_drop hentry)
    rw [getElem?_allSaved] at hall
    obtain ⟨s, hs, rfl⟩ := Option.map_eq_some_iff.mp hall
    exact ⟨s, hs, by rw [← block_of_lastSaved? hs]; rfl⟩

/-- Retention keeps the newest. From an empty storage, whatever is called with whatever stores, what
is stored are the highest distinct blocks of all snapshots that were saved, as many as are to be
kept and at least one, the lowest of them first, each with what was saved last for it. And every
call succeeds. -/
theorem run_keeps_newest (n : Snapshotter) (calls : List SnapshotCall)
    (h : n.storage = .memory ∅ ∨ n.storage = .directory .empty) :
    let saved := calls.filterMap (SnapshotCall.stored? n.interval)
    (n.run calls).storage.entries.map Prod.fst = (blocksOf saved).rtake (max n.keep 1) ∧
      (∀ e ∈ (n.run calls).storage.entries, ∃ s, lastSaved? saved e.1 = some s ∧ e.2 = .ok s) ∧
      ∀ c, ((n.run calls).call c).2 = .ok ((c.stored? n.interval).map StoredSnapshot.info) := by
  have hempty : n.Retains [] := by
    refine ⟨∅, ?_, (List.rtake_nil _).symm⟩
    rcases h with h | h
    · exact h ▸ Storage.keeps_memory_empty
    · exact h ▸ Storage.keeps_directory_empty
  obtain ⟨storage, hrun, hretains⟩ := hempty.run calls
  obtain ⟨hblocks, hlast⟩ := hretains.entries
  rw [hrun]
  refine ⟨hblocks, hlast, fun c => ?_⟩
  obtain ⟨storage', hcall, -⟩ := hretains.call c
  rw [hcall]

/-- A snapshotter for every tenth block that keeps two. -/
def tenths : Snapshotter := ⟨.directory .empty, 10, 2⟩

/-- Calls for blocks that go up and down, one of them not a tenth one. -/
def unsteadyCalls : List SnapshotCall :=
  let store (b : BlockNumber) : Store := { Store.empty with lastAcceptedBlock := b }
  [.accepted (store 10) 10, .accepted (store 15) 15, .take (store 35), .accepted (store 20) 20,
    .accepted (store 10) 10]

/-- The lowest of the three blocks that are saved is deleted, also when it comes last. -/
theorem tenths_keeps_highest :
    (tenths.storage = .memory ∅ ∨ tenths.storage = .directory .empty) ∧
      (tenths.run unsteadyCalls).storage.entries.map Prod.fst = [20, 35] := by
  have hempty : tenths.storage = .memory ∅ ∨ tenths.storage = .directory .empty := .inr rfl
  have hblocks : blocksOf (unsteadyCalls.filterMap (SnapshotCall.stored? 10)) = [10, 20, 35] := by
    refine (pairwise_blocksOf _).eq_of_mem_iff (by decide) fun b => ?_
    have hsaved : (unsteadyCalls.filterMap (SnapshotCall.stored? 10)).map StoredSnapshot.block =
        [10, 35, 20, 10] := rfl
    rw [mem_blocksOf, ← List.mem_map, hsaved]
    simp only [List.mem_cons, List.not_mem_nil, or_false]
    tauto
  refine ⟨hempty, (run_keeps_newest tenths unsteadyCalls hempty).1.trans ?_⟩
  exact congrArg (List.rtake · 2) hblocks

end Snapshotter
end PerpExchange
