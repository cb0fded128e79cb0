import PerpExchange.Proofs.Restore
import Mathlib.Data.List.Nodup

/-! The states a store can get into by operations on its orders, and that its books index the orders
in each of them. -/
namespace PerpExchange
open BookEntry (Before ofOrder)

namespace Order
variable {o p : Order} {delta : Amount} {block : BlockNumber} {clamped : Bool}

/-- A fill changes the fill of an order and its lifecycle, and nothing else. -/
theorem eq_of_fillBy? (h : o.fillBy? delta block = some (p, clamped)) :
    p = { o with filled := p.filled, lifecycle := p.lifecycle } := by
  simp only [fillBy?, Option.bind_eq_bind, Option.bind_eq_some_iff] at h
  rcases h with ⟨d, -, f, -, h⟩
  cases h
  rfl

theorem popStatus_eq (o : Order) : o.popStatus = { o with lifecycle := o.popStatus.lifecycle } := by
  unfold popStatus
  split <;> rfl

end Order

namespace Store
variable {s s' : Store} {o : Order} {id : Hash}

/-- The books of a store list exactly its orders. -/
def Indexed (s : Store) : Prop := Indexes s.books s.orders

theorem indexed_empty : Indexed empty := Indexes.empty

theorem Indexed.add (h : s.Indexed) (o : Order) : (s.add o).Indexed := by
  unfold Indexed Store.add
  cases ho : s.orders[o.id]? with
  | none => exact Indexes.insert h ho
  | some p =>
    have hi := (Indexes.erase h ho).insert (o := o) (Map.getElem?_erase_key.trans (if_pos rfl))
    rwa [Map.insert_erase_key] at hi

theorem Indexed.delete (h : s.Indexed) (id : Hash) : (s.delete id).1.Indexed := by
  unfold Indexed Store.delete
  cases ho : s.orders[id]? with
  | none => exact h
  | some o => exact Indexes.erase h ho

theorem Indexed.fill (h : s.Indexed) (delta : Amount) (id : Hash) (block : BlockNumber) :
    (s.fill delta id block).1.Indexed := by
  unfold Indexed Store.fill
  cases ho : s.orders[id]? with
  | none => exact h
  | some o =>
    simp only
    cases hf : o.fillBy? delta block with
    | none => exact h
    | some r =>
      rcases r with ⟨p, clamped⟩
      have hp := Order.eq_of_fillBy? hf
      exact Indexes.overwrite (p := p) h ho (by rw [hp]) (by rw [hp]) (by rw [hp]; rfl)

theorem Indexed.setStatus {l : Lifecycle} (h : s.Indexed) (hs : s.setStatus? id l = some s') :
    s'.Indexed := by
  obtain ⟨o, ho, rfl⟩ := Option.map_eq_some_iff.mp hs
  exact Indexes.overwrite h ho rfl rfl rfl

theorem Indexed.revertStatus (h : s.Indexed) (hs : s.revertStatus? id = some s') : s'.Indexed := by
  obtain ⟨o, ho, rfl⟩ := Option.map_eq_some_iff.mp hs
  have hp := o.popStatus_eq
  exact Indexes.overwrite h ho (by rw [hp]) (by rw [hp]) (by rw [hp]; rfl)

theorem Indexed.deleteAll (h : s.Indexed) (ids : List Hash) : (s.deleteAll ids).Indexed := by
  induction ids generalizing s with
  | nil => exact h
  | cons id ids ih => exact ih (h.delete id)

theorem Indexed.accept (h : s.Indexed) (block : BlockNumber) (time : Timestamp) :
    (s.accept block time).1.Indexed := h.deleteAll _

theorem Indexed.ofSnapshot {snap : Snapshot} (h : ofSnapshot snap = .ok (.ok s)) : s.Indexed := by
  obtain ⟨-, hsound, rfl⟩ := ofSnapshot_eq_ok.mp h
  exact Indexes.booksOf fun ho => (hsound ho).1

/-- Stores with the same orders list them in the same books. -/
theorem Indexed.book_eq (h : s.Indexed) (h' : s'.Indexed) (horders : s.orders = s'.orders)
    (m : MarketId) : s.book m = s'.book m := by
  have hindexes : Indexes s'.books s.orders := by
    rw [horders]
    exact h'
  have hlongs := Indexes.side_eq h hindexes m .long
  have hshorts := Indexes.side_eq h hindexes m .short
  unfold Store.book
  generalize s.books.getD m .empty = left at hlongs hshorts ⊢
  generalize s'.books.getD m .empty = right at hlongs hshorts ⊢
  rcases left with ⟨longs, shorts⟩
  rcases right with ⟨longs', shorts'⟩
  simp only [Book.side] at hlongs hshorts
  rw [hlongs, hshorts]

/-- The stores that operations on orders make of an empty one. Any order may be added, also one
whose id is taken. -/
inductive Reachable : Store → Prop
  | empty : Reachable empty
  | add {s : Store} (h : Reachable s) (o : Order) : Reachable (s.add o)
  | delete {s : Store} (h : Reachable s) (id : Hash) : Reachable (s.delete id).1
  | fill {s : Store} (h : Reachable s) (delta : Amount) (id : Hash) (block : BlockNumber) :
    Reachable (s.fill delta id block).1
  | setStatus {s s' : Store} {id : Hash} {l : Lifecycle} (h : Reachable s)
    (hs : s.setStatus? id l = some s') : Reachable s'
  | revertStatus {s s' : Store} {id : Hash} (h : Reachable s) (hs : s.revertStatus? id = some s') :
    Reachable s'
  | accept {s : Store} (h : Reachable s) (block : BlockNumber) (time : Timestamp) :
    Reachable (s.accept block time).1
  | load {s s' : Store} {snap : Snapshot} (h : Reachable s)
    (hs : ofSnapshot snap = .ok (.ok s')) : Reachable s'

theorem Reachable.indexed (h : s.Reachable) : s.Indexed := by
  induction h with
  | empty => exact indexed_empty
  | add _ o ih => exact ih.add o
  | delete _ id ih => exact ih.delete id
  | fill _ delta id block ih => exact ih.fill delta id block
  | setStatus _ hs ih => exact ih.setStatus hs
  | revertStatus _ hs ih => exact ih.revertStatus hs
  | accept _ block time ih => exact ih.accept block time
  | load _ hs _ => exact Indexed.ofSnapshot hs

end Store

/-- An entry of the books, with the market and the side it is listed under. -/
structure Listing where
  market : MarketId
  side : Side
  entry : BookEntry
  deriving DecidableEq

def Listing.ofOrder (o : Order) : Listing := ⟨o.market, o.side, BookEntry.ofOrder o⟩

def Book.listings (m : MarketId) (b : Book) : List Listing :=
  b.longs.map (Listing.mk m .long) ++ b.shorts.map (Listing.mk m .short)

theorem Book.mem_listings {m : MarketId} {b : Book} {l : Listing} :
    l ∈ b.listings m ↔ l.market = m ∧ l.entry ∈ b.side l.side := by
  rcases l with ⟨m', side, e⟩
  simp only [listings, List.mem_append, List.mem_map, Listing.mk.injEq]
  cases side <;> simp [side, and_comm, eq_comm]

theorem Book.nodup_listings {m : MarketId} {b : Book} (h : ∀ side, (b.side side).Nodup) :
    (b.listings m).Nodup := by
  have hinj : ∀ side, Function.Injective (Listing.mk m side) := by
    intro side e e' he
    exact (Listing.mk.injEq .. ▸ he).2.2
  apply List.Nodup.append ((h .long).map (hinj .long)) ((h .short).map (hinj .short))
  intro l hl hs
  obtain ⟨e, -, rfl⟩ := List.mem_map.mp hl
  obtain ⟨e', -, he⟩ := List.mem_map.mp hs
  cases he

namespace Store
variable {s : Store}

/-- All entries of all books. -/
def listings (s : Store) : List Listing := s.books.toList.flatMap fun b => b.2.listings b.1

theorem mem_listings {l : Listing} : l ∈ s.listings ↔ l.entry ∈ (s.book l.market).side l.side := by
  simp only [listings, List.mem_flatMap, Book.mem_listings, Prod.exists,
    Std.ExtTreeMap.mem_toList_iff_getElem?_eq_some]
  rw [book, Map.getD_of_getElem?]
  constructor
  · rintro ⟨m, b, hb, rfl, he⟩
    rwa [hb]
  · intro he
    cases hb : s.books[l.market]? with
    | none => rw [hb] at he; simp at he
    | some b => rw [hb] at he; exact ⟨l.market, b, hb, rfl, he⟩

theorem Indexed.nodup_listings (h : s.Indexed) : s.listings.Nodup := by
  apply List.nodup_flatMap.mpr
  constructor
  · rintro ⟨m, b⟩ hb
    apply Book.nodup_listings
    intro side
    have hb := Std.ExtTreeMap.mem_toList_iff_getElem?_eq_some.mp hb
    have hn := Indexes.nodup h m side
    rwa [Map.getD_of_getElem?, hb] at hn
  · apply (Map.distinct_keys _).imp
    rintro ⟨m, b⟩ ⟨m', b'⟩ hne l hl hl'
    exact hne ((Book.mem_listings.mp hl).1.symm.trans (Book.mem_listings.mp hl').1)

/-- Exactly one entry has the id of an order, and it is the entry of the order. -/
theorem Indexed.listings_of_id (h : s.Indexed) (id : Hash) :
    s.listings.filter (fun l => l.entry.id = id) = (s.orders[id]?).toList.map Listing.ofOrder := by
  have hmem : ∀ l, l ∈ s.listings.filter (fun l => l.entry.id = id) ↔
      ∃ o, s.orders[id]? = some o ∧ Listing.ofOrder o = l := by
    intro l
    rw [List.mem_filter, mem_listings, decide_eq_true_iff]
    constructor
    · rintro ⟨he, rfl⟩
      obtain ⟨o, ho, hm, hs, he⟩ := Indexes.owned h he
      exact ⟨o, ho, by rw [Listing.ofOrder, hm, hs, he]⟩
    · rintro ⟨o, ho, rfl⟩
      exact ⟨Indexes.listed h ho, Indexes.keyed h ho⟩
  cases ho : s.orders[id]? with
  | none =>
    apply List.eq_nil_iff_forall_not_mem.mpr
    intro l hl
    obtain ⟨o, ho', -⟩ := (hmem l).mp hl
    rw [ho] at ho'
    cases ho'
  | some o =>
    apply List.perm_singleton.mp
    apply (List.perm_ext_iff_of_nodup (h.nodup_listings.filter _) (List.nodup_singleton _)).mpr
    intro l
    rw [hmem, ho, List.mem_singleton]
    constructor
    · rintro ⟨p, hp, rfl⟩
      cases hp
      rfl
    · rintro rfl
      exact ⟨o, rfl, rfl⟩

/-- In every reachable store the books are an index of the orders. Each order is stored under its
own id, it has one entry, in the list of its market and side, no other entry is listed, and every
list is strictly in order of priority. -/
theorem Reachable.books_index_orders (h : s.Reachable) :
    (∀ (id : Hash) (o : Order), s.orders[id]? = some o → o.id = id) ∧
      (∀ id, s.listings.filter (fun l => l.entry.id = id) =
        (s.orders[id]?).toList.map Listing.ofOrder) ∧
        ∀ m side, ((s.book m).side side).Pairwise (Before side) :=
  ⟨fun _ _ ho => Indexes.keyed h.indexed ho, h.indexed.listings_of_id, h.indexed.sorted⟩

theorem books_index_orders_of_readded :
    let readded := (empty.add default).add { (default : Order) with market := 1, side := .short }
    readded.Reachable ∧ ∀ id, readded.listings.filter (fun l => l.entry.id = id) =
      (readded.orders[id]?).toList.map Listing.ofOrder := by
  intro readded
  have h : readded.Reachable := (Reachable.empty.add default).add _
  exact ⟨h, h.books_index_orders.2.1⟩

end Store
end PerpExchange
