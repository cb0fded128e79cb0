import PerpExchange.Proofs.Absorption
import Mathlib.Order.Bounds.Basic

/-! Acceptance computes the greatest set of orders that can stay together, in whatever order it
looks at them, and touches nothing else. -/
namespace PerpExchange

/-- Orders of a market that can stay together, by their ids. None has been filled or cancelled by the
accepted block, and none that expires has expired. Each order that has to be matched, and is no newer
than the block, has one among them on the other side that crosses it and is no newer. -/
structure StayTogether (orders : Map Hash Order) (m : MarketId) (accepted : BlockNumber)
    (time : Timestamp) (K : Set Hash) : Prop where
  standing : ∀ id ∈ K, ∃ o, orders[id]? = some o ∧ o.market = m ∧
    (∀ l ∈ o.lifecycle, l.block ≤ accepted → l.status ≠ .filled ∧ l.status ≠ .cancelled) ∧
    (o.kind = .ioc ∨ o.kind = .signed → o.isExpired time = false)
  matched : ∀ id ∈ K, ∀ o, orders[id]? = some o → o.kind = .ioc ∨ o.kind = .signed →
    o.block ≤ accepted → ∃ id' ∈ K, ∃ p, orders[id']? = some p ∧ p.side ≠ o.side ∧
      (o.side = .long → p.price ≤ o.price) ∧ (o.side = .short → o.price ≤ p.price) ∧
      p.block ≤ o.block

namespace Order
variable {o p : Order} {accepted : BlockNumber} {time : Timestamp}

theorem kind_ne_limit : o.kind ≠ .limit ↔ o.kind = .ioc ∨ o.kind = .signed := by
  cases o.kind <;> simp

/-- An order does not have to go just when it has not ended by the block and has not expired. -/
theorem acceptDecision_ne_remove : o.acceptDecision accepted time ≠ .remove ↔
    (∀ l ∈ o.lifecycle, l.block ≤ accepted → l.status ≠ .filled ∧ l.status ≠ .cancelled) ∧
      (o.kind = .ioc ∨ o.kind = .signed → o.isExpired time = false) := by
  have hterminal : ∀ status : OrderStatus,
      status.isTerminal = true ↔ ¬(status ≠ .filled ∧ status ≠ .cancelled) := by
    intro status
    cases status <;> simp [OrderStatus.isTerminal]
  rw [Ne, acceptDecision_eq_remove, kind_ne_limit, not_or]
  simp only [hterminal, not_exists, not_and, not_not, Bool.not_eq_true]
  grind

theorem crosses_iff {price : Amount} : Book.crosses o price = true ↔
    (o.side = .long → price ≤ o.price) ∧ (o.side = .short → o.price ≤ price) := by
  unfold Book.crosses
  cases o.side <;> simp

end Order

variable {orders : Map Hash Order} {m : MarketId} {accepted : BlockNumber} {time : Timestamp}
  {K : Set Hash}

theorem stayTogether_iff : StayTogether orders m accepted time K ↔
    Consistent orders accepted time (· ∈ K) ∧
      ∀ id ∈ K, ∃ o, orders[id]? = some o ∧ o.market = m := by
  constructor
  · intro h
    have hmarket : ∀ id ∈ K, ∃ o, orders[id]? = some o ∧ o.market = m := by
      intro id hid
      obtain ⟨o, ho, hm, -⟩ := h.standing id hid
      exact ⟨o, ho, hm⟩
    refine ⟨fun id hid => ?_, hmarket⟩
    obtain ⟨o, ho, hm, hstays⟩ := h.standing id hid
    refine ⟨o, ho, Order.acceptDecision_ne_remove.mpr hstays, fun hkeep => ?_⟩
    obtain ⟨-, hk, hblock⟩ := Order.acceptDecision_eq_keepIfMatcheable.mp hkeep
    obtain ⟨id', hid', p, hp, hside, hlong, hshort, hle⟩ :=
      h.matched id hid o ho (Order.kind_ne_limit.mp hk) hblock
    obtain ⟨p', hp', hm'⟩ := hmarket id' hid'
    rw [hp] at hp'
    cases hp'
    exact ⟨id', p, hid', hp, hm'.trans hm.symm, hside, Order.crosses_iff.mpr ⟨hlong, hshort⟩, hle⟩
  · rintro ⟨h, hmarket⟩
    constructor
    · intro id hid
      obtain ⟨o, ho, hm⟩ := hmarket id hid
      obtain ⟨o', ho', hstays, -⟩ := h id hid
      rw [ho] at ho'
      cases ho'
      exact ⟨o, ho, hm, Order.acceptDecision_ne_remove.mp hstays⟩
    · intro id hid o ho hk hblock
      obtain ⟨o', ho', hstays, hbacked⟩ := h id hid
      rw [ho] at ho'
      cases ho'
      obtain ⟨id', p, hid', hp, -, hside, hcross, hle⟩ := hbacked
        (Order.acceptDecision_eq_keepIfMatcheable.mpr ⟨hstays, Order.kind_ne_limit.mpr hk, hblock⟩)
      obtain ⟨hlong, hshort⟩ := Order.crosses_iff.mp hcross
      exact ⟨id', hid', p, hp, hside, hlong, hshort, hle⟩

namespace Book
variable (b : Book)

/-- Examining an order: it goes, if nothing that is left matches it. -/
def examine (removed : Std.ExtTreeSet Hash) (o : Order) : Std.ExtTreeSet Hash :=
  if b.hasCounterMatch removed o then removed else removed.insert o.id

/-- The orders that go among some that are listed in any order. -/
def leaversAmong (listed : List Order) (accepted : BlockNumber) (time : Timestamp) :
    Std.ExtTreeSet Hash :=
  b.siftAll (listed.filter fun o => o.acceptDecision accepted time = .keepIfMatcheable)
    ((listed.filter fun o => o.acceptDecision accepted time = .remove).foldl
      (fun removed o => removed.insert o.id) ∅)

/-- What sifting conditional orders comes to: all that had to go is gone, every conditional order is
gone or matched, and nothing is gone without a reason. -/
structure Sifts (conditional : List Order) (removed gone : Std.ExtTreeSet Hash) : Prop where
  includes : ∀ id ∈ removed, id ∈ gone
  settled : ∀ o ∈ conditional, o.id ∈ gone ∨ b.hasCounterMatch gone o = true
  justified : ∀ {P : Hash → Prop}, (∀ id ∈ removed, P id) →
    (∀ o ∈ conditional, ∀ removed' : Std.ExtTreeSet Hash, (∀ id ∈ removed', P id) →
      b.hasCounterMatch removed' o = false → P o.id) → ∀ id ∈ gone, P id

/-- The fewer orders are gone, the more are matched. -/
theorem hasCounterMatch_anti {removed removed' : Std.ExtTreeSet Hash} {o : Order}
    (h : ∀ id ∈ removed, id ∈ removed') (hm : b.hasCounterMatch removed' o = true) :
    b.hasCounterMatch removed o = true := by
  unfold hasCounterMatch at hm ⊢
  obtain ⟨e, he, hstays⟩ := List.any_eq_true.mp hm
  simp only [Bool.and_eq_true, Bool.not_eq_true', ← Bool.not_eq_true,
    Std.ExtTreeSet.contains_iff_mem] at hstays
  refine List.any_eq_true.mpr ⟨e, he, ?_⟩
  simp only [Bool.and_eq_true, Bool.not_eq_true', ← Bool.not_eq_true,
    Std.ExtTreeSet.contains_iff_mem]
  exact ⟨fun hgone => hstays.1 (h _ hgone), hstays.2⟩

variable {b} {conditional : List Order} {removed gone gone' : Std.ExtTreeSet Hash}

theorem Sifts.subset (h : b.Sifts conditional removed gone)
    (h' : b.Sifts conditional removed gone') : ∀ id ∈ gone, id ∈ gone' := by
  apply h.justified h'.includes
  intro o ho removed' hsub hno
  apply (h'.settled o ho).resolve_right
  intro hm
  rw [b.hasCounterMatch_anti hsub hm] at hno
  cases hno

/-- There is only one outcome of sifting. -/
theorem Sifts.unique (h : b.Sifts conditional removed gone)
    (h' : b.Sifts conditional removed gone') : gone = gone' :=
  Std.ExtTreeSet.ext_mem fun id => ⟨h.subset h' id, h'.subset h id⟩

theorem sifts_siftAll (conditional : List Order) (removed : Std.ExtTreeSet Hash) :
    b.Sifts conditional removed (b.siftAll conditional removed) where
  includes _ hid := b.mem_siftAll_of_mem _ _ hid
  settled _ ho := b.mem_siftAll _ _ ho
  justified hremoved hstep :=
    b.siftAll_induction _ _ (fun o removed' ho => hstep o ho removed') hremoved

/-- Sifting goes by which orders are conditional, not by how they are listed. -/
theorem Sifts.of_perm {conditional' : List Order} (hp : conditional.Perm conditional')
    (h : b.Sifts conditional' removed gone) : b.Sifts conditional removed gone where
  includes := h.includes
  settled o ho := h.settled o (hp.mem_iff.mp ho)
  justified hremoved hstep :=
    h.justified hremoved fun o ho => hstep o (hp.mem_iff.mpr ho)

/-- Orders that are examined one by one, in any order and as often as one likes, until examining
changes nothing any more. -/
theorem sifts_examine {os : List Order} (hos : ∀ o ∈ os, o ∈ conditional)
    (hend : ∀ o ∈ conditional, b.examine (os.foldl b.examine removed) o =
      os.foldl b.examine removed) :
    b.Sifts conditional removed (os.foldl b.examine removed) := by
  have hmono : ∀ {removed : Std.ExtTreeSet Hash} {o : Order} {id : Hash}, id ∈ removed →
      id ∈ b.examine removed o := by
    intro removed o id hid
    unfold examine
    split
    · exact hid
    · exact Std.ExtTreeSet.mem_insert.mpr (.inr hid)
  constructor
  · intro id hid
    clear hend
    induction os generalizing removed with
    | nil => exact hid
    | cons o os ih => exact ih (fun o ho => hos o (List.mem_cons_of_mem _ ho)) (hmono hid)
  · intro o ho
    by_cases hm : b.hasCounterMatch (os.foldl b.examine removed) o = true
    · exact .inr hm
    · have hend := hend o ho
      rw [examine, if_neg hm] at hend
      left
      rw [← hend]
      exact Std.ExtTreeSet.mem_insert.mpr (.inl Std.compare_self)
  · intro P hremoved hstep
    clear hend
    induction os generalizing removed with
    | nil => exact hremoved
    | cons o os ih =>
      apply ih fun o ho => hos o (List.mem_cons_of_mem _ ho)
      intro id hid
      unfold examine at hid
      split at hid
      · exact hremoved id hid
      next hno =>
        rcases Std.ExtTreeSet.mem_insert.mp hid with he | hid
        · rw [← Std.LawfulEqCmp.eq_of_compare he]
          exact hstep o (hos o List.mem_cons_self) removed hremoved (by simpa using hno)
        · exact hremoved id hid

theorem leaversAmong_eq_of_perm {listed listed' : List Order} (hp : listed.Perm listed') :
    b.leaversAmong listed accepted time = b.leaversAmong listed' accepted time := by
  have hremoved : (listed.filter fun o => o.acceptDecision accepted time = .remove).foldl
      (fun (removed : Std.ExtTreeSet Hash) o => removed.insert o.id) ∅ =
        (listed'.filter fun o => o.acceptDecision accepted time = .remove).foldl
          (fun (removed : Std.ExtTreeSet Hash) o => removed.insert o.id) ∅ := by
    apply Std.ExtTreeSet.ext_mem
    intro id
    rw [mem_foldl_insert, mem_foldl_insert]
    simp only [List.mem_filter, hp.mem_iff]
  unfold leaversAmong
  rw [hremoved]
  exact (sifts_siftAll _ _).unique ((sifts_siftAll _ _).of_perm (hp.filter _))

/-- Only orders that are listed go. -/
theorem exists_listed_of_mem_leavers {books : Map MarketId Book} (h : Indexes books orders)
    {id : Hash} (hid : id ∈ (books.getD m .empty).leavers orders accepted time) :
    ∃ o, orders[id]? = some o ∧ o.market = m := by
  refine (sifts_siftAll _ _).justified (P := fun id => ∃ o, orders[id]? = some o ∧ o.market = m)
    ?_ ?_ id hid
  · intro id hid
    rcases (mem_foldl_insert _ _).mp hid with hid | ⟨o, ho, rfl⟩
    · exact absurd hid Std.ExtTreeSet.not_mem_empty
    · exact ⟨o, (mem_listed h).mp (List.mem_of_mem_filter ho)⟩
  · rintro o ho - - -
    exact ⟨o, (mem_listed h).mp (List.mem_of_mem_filter ho)⟩

end Book

namespace Store
variable {s : Store}

/-- The orders of a market that stay are the most that can stay together. -/
theorem Indexed.isGreatest_survivors (h : s.Indexed) (m : MarketId) (accepted : BlockNumber)
    (time : Timestamp) :
    IsGreatest {K | StayTogether s.orders m accepted time K}
      {id | ∃ o, (s.accept accepted time).1.orders[id]? = some o ∧ o.market = m} := by
  have hmem : ∀ id, (∃ o, (s.accept accepted time).1.orders[id]? = some o ∧ o.market = m) ↔
      (∃ o, s.orders[id]? = some o ∧ o.market = m) ∧ Survives s.orders accepted time id := by
    intro id
    constructor
    · rintro ⟨o, ho, hm⟩
      obtain ⟨ho, hs⟩ := (h.accept_orders accepted time).mp ho
      exact ⟨⟨o, ho, hm⟩, hs⟩
    · rintro ⟨⟨o, ho, hm⟩, hs⟩
      exact ⟨o, (h.accept_orders accepted time).mpr ⟨ho, hs⟩, hm⟩
  constructor
  · refine stayTogether_iff.mpr ⟨fun id hid => ?_, fun id hid => ((hmem id).mp hid).1⟩
    obtain ⟨⟨o, ho, hm⟩, K, hK, hid⟩ := (hmem id).mp hid
    obtain ⟨o', ho', hstays, hbacked⟩ := hK id hid
    rw [ho] at ho'
    cases ho'
    refine ⟨o, ho, hstays, fun hkeep => ?_⟩
    obtain ⟨id', p, hid', hp, hbacks⟩ := hbacked hkeep
    exact ⟨id', p, (hmem id').mpr ⟨⟨p, hp, hbacks.1.trans hm⟩, K, hK, hid'⟩, hp, hbacks⟩
  · intro K hK id hid
    obtain ⟨hconsistent, hmarket⟩ := stayTogether_iff.mp hK
    exact (hmem id).mpr ⟨hmarket id hid, _, hconsistent, hid⟩

/-- The ids that leave, book by book. -/
def leaving (s : Store) (accepted : BlockNumber) (time : Timestamp) : List Hash :=
  s.books.values.flatMap fun b => (b.leavers s.orders accepted time).toList

theorem orders_accept (s : Store) (accepted : BlockNumber) (time : Timestamp) :
    (s.accept accepted time).1.orders =
      (s.leaving accepted time).foldl (fun orders id => orders.erase id) s.orders :=
  (s.deleteAll_reorders _).orders_eq

/-- Every order that leaves is stored, and leaves once. -/
theorem Indexed.leaving_spec (h : s.Indexed) (accepted : BlockNumber) (time : Timestamp) :
    (s.leaving accepted time).Nodup ∧
      ∀ id ∈ s.leaving accepted time, ∃ o, s.orders[id]? = some o := by
  have hbook : ∀ e ∈ s.books.toList, ∀ id ∈ e.2.leavers s.orders accepted time,
      ∃ o, s.orders[id]? = some o ∧ o.market = e.1 := by
    rintro ⟨m, b⟩ he id hid
    have hb : s.books.getD m .empty = b := by
      rw [Map.getD_of_getElem?, Std.ExtTreeMap.mem_toList_iff_getElem?_eq_some.mp he,
        Option.getD_some]
    exact Book.exists_listed_of_mem_leavers h (hb ▸ hid)
  have hlist : s.leaving accepted time =
      s.books.toList.flatMap fun e => (e.2.leavers s.orders accepted time).toList := by
    rw [leaving, Map.values_eq_map_toList, List.flatMap_map]
  rw [hlist]
  constructor
  · apply List.nodup_flatMap.mpr
    constructor
    · intro e he
      apply Std.ExtTreeSet.distinct_toList.imp
      rintro id id' hne rfl
      exact hne Std.compare_self
    · apply (Map.distinct_keys s.books).imp_of_mem
      intro e e' he he' hne id hid hid'
      obtain ⟨o, ho, hm⟩ := hbook e he id (Std.ExtTreeSet.mem_toList.mp hid)
      obtain ⟨o', ho', hm'⟩ := hbook e' he' id (Std.ExtTreeSet.mem_toList.mp hid')
      rw [ho] at ho'
      cases ho'
      exact hne (hm.symm.trans hm')
  · intro id hid
    obtain ⟨e, he, hid⟩ := List.mem_flatMap.mp hid
    obtain ⟨o, ho, -⟩ := hbook e he id (Std.ExtTreeSet.mem_toList.mp hid)
    exact ⟨o, ho⟩

/-- The count that acceptance answers with is that of the orders that left. -/
theorem Indexed.accept_count (h : s.Indexed) (accepted : BlockNumber) (time : Timestamp) :
    (s.accept accepted time).2 + (s.accept accepted time).1.orders.size = s.orders.size := by
  obtain ⟨hnodup, hstored⟩ := h.leaving_spec accepted time
  rw [s.orders_accept]
  exact Map.length_add_size_foldl_erase hnodup hstored

/-- Of each list of the books, the entries of the orders that stay are left. -/
theorem Indexed.side_accept (h : s.Indexed) (accepted : BlockNumber) (time : Timestamp)
    (m : MarketId) (side : Side) :
    ((s.accept accepted time).1.book m).side side = ((s.book m).side side).filter fun e =>
      (s.accept accepted time).1.orders.contains e.id := by
  have hafter := h.accept accepted time
  have hmem : ∀ (id : Hash) (o : Order), (s.accept accepted time).1.orders[id]? = some o →
      s.orders[id]? = some o := fun id o ho => ((h.accept_orders accepted time).mp ho).1
  apply Book.eq_of_sorted (Indexes.sorted hafter m side) ((Indexes.sorted h m side).filter _)
  intro e
  rw [List.mem_filter, Std.ExtTreeMap.contains_eq_isSome_getElem?]
  constructor
  · intro he
    obtain ⟨o, ho, rfl, rfl, rfl⟩ := Indexes.owned hafter he
    exact ⟨Indexes.listed h (hmem _ o ho), by rw [ho]; rfl⟩
  · rintro ⟨he, hstays⟩
    obtain ⟨o, ho, rfl, rfl, rfl⟩ := Indexes.owned h he
    obtain ⟨o', ho'⟩ := Option.isSome_iff_exists.mp hstays
    obtain rfl : o = o' := Option.some.inj (ho.symm.trans (hmem _ o' ho'))
    exact Indexes.listed hafter ho'

/-- Acceptance computes the greatest set of orders of each market that can stay together, and counts
those that go. The same go in whatever order the listed orders are gone through; and also when those
that have to be matched are examined one at a time, in any order, until examining changes nothing.
The orders that stay are unchanged, their entries are what is left of the books, and besides these
only the last accepted block moves, to the greater of the two. -/
theorem accept_leaves_greatest_set (h : s.Reachable) (accepted : BlockNumber) (time : Timestamp) :
    let after := (s.accept accepted time).1
    (∀ m, IsGreatest {K | StayTogether s.orders m accepted time K}
      {id | ∃ o, after.orders[id]? = some o ∧ o.market = m}) ∧
    (s.accept accepted time).2 + after.orders.size = s.orders.size ∧
    (∀ m listed, listed.Perm (s.marketOrders m) →
      (s.book m).leaversAmong listed accepted time =
        (s.book m).leavers s.orders accepted time) ∧
    (∀ (m : MarketId) (ended : Std.ExtTreeSet Hash) (os : List Order),
      (∀ id, id ∈ ended ↔ ∃ o ∈ s.marketOrders m, o.acceptDecision accepted time = .remove ∧
        o.id = id) →
      (∀ o ∈ os, o ∈ s.marketOrders m ∧ o.acceptDecision accepted time = .keepIfMatcheable) →
      (∀ o ∈ s.marketOrders m, o.acceptDecision accepted time = .keepIfMatcheable →
        (s.book m).examine (os.foldl (s.book m).examine ended) o =
          os.foldl (s.book m).examine ended) →
      os.foldl (s.book m).examine ended = (s.book m).leavers s.orders accepted time) ∧
    after.toStoreData = { s.toStoreData with
      orders := after.orders, lastAcceptedBlock := max s.lastAcceptedBlock accepted } ∧
    (∀ (id : Hash) (o : Order), after.orders[id]? = some o → s.orders[id]? = some o) ∧
    ∀ m side, (after.book m).side side =
      ((s.book m).side side).filter fun e => after.orders.contains e.id := by
  have hi := h.indexed
  refine ⟨fun m => hi.isGreatest_survivors m accepted time, hi.accept_count accepted time,
    fun m listed hp => Book.leaversAmong_eq_of_perm hp, ?_, ?_, ?_, hi.side_accept accepted time⟩
  · intro m ended os hended hos hend
    have hremoved : ended = ((s.marketOrders m).filter fun o =>
        o.acceptDecision accepted time = .remove).foldl (fun removed o => removed.insert o.id) ∅ := by
      apply Std.ExtTreeSet.ext_mem
      intro id
      rw [hended, Book.mem_foldl_insert]
      simp [and_assoc]
    have hexamined : (s.book m).Sifts ((s.marketOrders m).filter fun o =>
        o.acceptDecision accepted time = .keepIfMatcheable) ended
          (os.foldl (s.book m).examine ended) := by
      apply Book.sifts_examine
      · exact fun o ho => List.mem_filter.mpr ⟨(hos o ho).1, decide_eq_true (hos o ho).2⟩
      · intro o ho
        obtain ⟨ho, hkeep⟩ := List.mem_filter.mp ho
        exact hend o ho (of_decide_eq_true hkeep)
    rw [hremoved] at hexamined ⊢
    exact hexamined.unique (Book.sifts_siftAll _ _)
  · show { (s.deleteAll (s.leaving accepted time)).toStoreData with
      lastAcceptedBlock := max s.lastAcceptedBlock accepted } = _
    rw [s.orders_accept, (s.deleteAll_reorders _).1]
  · exact fun id o ho => ((hi.accept_orders accepted time).mp ho).1

/-- An order of one that has to be matched, placed at the first block. -/
def iocOfOne (id : Hash) (side : Side) : Order :=
  .place id (.ioc { (default : IocOrder) with size := side.sign }) 1

/-- Two orders that have to be matched keep each other. -/
theorem accept_keeps_facing_pair :
    let s := (empty.add (iocOfOne default .long)).add (iocOfOne (Bytes.ofWord 32 1) .short)
    s.Reachable ∧ StayTogether s.orders 0 5 7 {default, Bytes.ofWord 32 1} ∧
      ∀ id ∈ ({default, Bytes.ofWord 32 1} : Set Hash),
        ∃ o, (s.accept 5 7).1.orders[id]? = some o ∧ o.market = 0 := by
  intro s
  have hreachable : s.Reachable := (Reachable.empty.add _).add _
  have hne : (Bytes.ofWord 32 1 : Hash) ≠ default := by decide
  have hlong : s.orders[(default : Hash)]? = some (iocOfOne default .long) := by
    have hshort : (iocOfOne (Bytes.ofWord 32 1) .short).id ≠ default := hne
    simp only [s, Store.add]
    rw [Map.getElem?_insert_key, if_neg hshort, Map.getElem?_insert_key]
    rfl
  have hshort : s.orders[(Bytes.ofWord 32 1 : Hash)]? =
      some (iocOfOne (Bytes.ofWord 32 1) .short) := by
    simp only [s, Store.add]
    rw [Map.getElem?_insert_key]
    rfl
  have hstay : StayTogether s.orders 0 5 7 {default, Bytes.ofWord 32 1} := by
    constructor
    · rintro id (rfl | rfl)
      · exact ⟨_, hlong, by decide⟩
      · exact ⟨_, hshort, by decide⟩
    · rintro id (rfl | rfl) o ho - -
      · cases hlong.symm.trans ho
        exact ⟨_, .inr rfl, _, hshort, by decide⟩
      · cases hshort.symm.trans ho
        exact ⟨_, .inl rfl, _, hlong, by decide⟩
  exact ⟨hreachable, hstay, ((accept_leaves_greatest_set hreachable 5 7).1 0).2 hstay⟩

end Store
end PerpExchange
