import PerpExchange.Proofs.Map
import PerpExchange.Proofs.Priority
import PerpExchange.Snapshot.Basic
import PerpExchange.Store.Accept

/-! The books of a store are an index of its orders: they list each order once, under its own market
and side, and nothing else. Every operation on orders keeps them so. -/
namespace PerpExchange
open BookEntry (Before ofOrder)

/-- Books list exactly a set of orders, each side in order of priority. -/
structure Indexes (books : Map MarketId Book) (orders : Map Hash Order) : Prop where
  keyed : ∀ {id : Hash} {o : Order}, orders[id]? = some o → o.id = id
  listed : ∀ {id : Hash} {o : Order}, orders[id]? = some o →
    ofOrder o ∈ (books.getD o.market .empty).side o.side
  owned : ∀ {m : MarketId} {side : Side} {e : BookEntry}, e ∈ (books.getD m .empty).side side →
    ∃ o, orders[e.id]? = some o ∧ o.market = m ∧ o.side = side ∧ ofOrder o = e
  sorted : ∀ m side, ((books.getD m .empty).side side).Pairwise (Before side)

namespace Store

theorem book_listOrder (books : Map MarketId Book) (o : Order) (m : MarketId) :
    (listOrder books o).getD m .empty =
      if o.market = m then (books.getD m .empty).insert o else books.getD m .empty := by
  rw [listOrder, Map.getD_insert_key]
  split
  next h => rw [h]
  next => rfl

theorem book_unlistOrder (books : Map MarketId Book) (o : Order) (m : MarketId) :
    (unlistOrder books o).getD m .empty =
      if o.market = m then (books.getD m .empty).remove o else books.getD m .empty :=
  Map.getD_modify_key (Book.remove_empty o)

theorem side_listOrder (books : Map MarketId Book) (o : Order) (m : MarketId) (side : Side) :
    ((listOrder books o).getD m .empty).side side =
      if o.market = m ∧ o.side = side then
        Book.place side (ofOrder o) ((books.getD m .empty).side side)
      else (books.getD m .empty).side side := by
  rw [book_listOrder]
  by_cases hm : o.market = m
  · rw [if_pos hm, Book.side_insert]
    by_cases hs : side = o.side
    · rw [if_pos hs, if_pos ⟨hm, hs.symm⟩]
    · rw [if_neg hs, if_neg fun h => hs h.2.symm]
  · rw [if_neg hm, if_neg fun h => hm h.1]

end Store

namespace Indexes
open Store
variable {books books' : Map MarketId Book} {orders : Map Hash Order} {o : Order} {id : Hash}

theorem empty : Indexes ∅ ∅ where
  keyed h := by simp at h
  listed h := by simp at h
  owned h := by simp at h
  sorted m side := by simp

theorem nodup (h : Indexes books orders) (m : MarketId) (side : Side) :
    ((books.getD m .empty).side side).Nodup := Book.nodup_of_sorted (h.sorted m side)

theorem insert (h : Indexes books orders) (hn : orders[o.id]? = none) :
    Indexes (listOrder books o) (orders.insert o.id o) := by
  have hfresh : ∀ {m side}, ofOrder o ∉ (books.getD m .empty).side side := by
    intro m side hm
    obtain ⟨p, hp, -⟩ := h.owned hm
    exact absurd (hn.symm.trans hp) (by simp)
  constructor
  · intro id p hp
    rw [Map.getElem?_insert_key] at hp
    split at hp
    next he => cases hp; exact he
    next => exact h.keyed hp
  · intro id p hp
    rw [Map.getElem?_insert_key] at hp
    rw [side_listOrder]
    split at hp
    next => cases hp; rw [if_pos ⟨rfl, rfl⟩]; exact Book.mem_place.mpr (.inl rfl)
    next =>
      split
      · exact Book.mem_place.mpr (.inr (h.listed hp))
      · exact h.listed hp
  · intro m side e he
    have hold : e ∈ (books.getD m .empty).side side → ∃ p, (orders.insert o.id o)[e.id]? = some p ∧
        p.market = m ∧ p.side = side ∧ ofOrder p = e := by
      intro he
      obtain ⟨p, hp, hrest⟩ := h.owned he
      have hne : o.id ≠ e.id := fun h' => absurd (hn.symm.trans (h' ▸ hp)) (by simp)
      exact ⟨p, (Map.getElem?_insert_key.trans (if_neg hne)).trans hp, hrest⟩
    rw [side_listOrder] at he
    split at he
    next hms =>
      rcases Book.mem_place.mp he with rfl | he
      · exact ⟨o, Map.getElem?_insert_key.trans (if_pos rfl), hms.1, hms.2, rfl⟩
      · exact hold he
    next => exact hold he
  · intro m side
    rw [side_listOrder]
    split
    · exact Book.place_sorted (h.sorted m side) hfresh
    · exact h.sorted m side

theorem side_unlistOrder (h : Indexes books orders) (ho : orders[id]? = some o) (m : MarketId)
    (side : Side) :
    ((unlistOrder books o).getD m .empty).side side =
      if o.market = m ∧ o.side = side then ((books.getD m .empty).side side).erase (ofOrder o)
      else (books.getD m .empty).side side := by
  rw [book_unlistOrder]
  by_cases hm : o.market = m
  · subst hm
    rw [if_pos rfl, Book.side_remove (h.listed ho)]
    by_cases hs : side = o.side
    · rw [if_pos hs, if_pos ⟨rfl, hs.symm⟩]
    · rw [if_neg hs, if_neg fun h => hs h.2.symm]
  · rw [if_neg hm, if_neg fun h => hm h.1]

theorem erase (h : Indexes books orders) (ho : orders[id]? = some o) :
    Indexes (unlistOrder books o) (orders.erase id) := by
  have hid := h.keyed ho
  have hmem : ∀ {m side e}, e ∈ ((unlistOrder books o).getD m .empty).side side ↔
      e ∈ (books.getD m .empty).side side ∧ e.id ≠ id := by
    intro m side e
    rw [h.side_unlistOrder ho]
    constructor
    · intro he
      split at he
      next =>
        obtain ⟨hne, he⟩ := (h.nodup m side).mem_erase_iff.mp he
        refine ⟨he, fun h' => hne ?_⟩
        obtain ⟨p, hp, -, -, rfl⟩ := h.owned he
        rw [h', ho] at hp
        cases hp; rfl
      next hms =>
        refine ⟨he, fun h' => hms ?_⟩
        obtain ⟨p, hp, hm, hs, -⟩ := h.owned he
        rw [h', ho] at hp
        cases hp; exact ⟨hm, hs⟩
    · rintro ⟨he, hne⟩
      split
      · exact (h.nodup m side).mem_erase_iff.mpr ⟨fun h' => hne (h' ▸ hid), he⟩
      · exact he
  constructor
  · intro id' p hp
    rw [Map.getElem?_erase_key] at hp
    split at hp
    · cases hp
    · exact h.keyed hp
  · intro id' p hp
    rw [Map.getElem?_erase_key] at hp
    split at hp
    · cases hp
    next hne => exact hmem.mpr ⟨h.listed hp, fun h' => hne (h'.symm.trans (h.keyed hp))⟩
  · intro m side e he
    obtain ⟨he, hne⟩ := hmem.mp he
    obtain ⟨p, hp, hrest⟩ := h.owned he
    exact ⟨p, (Map.getElem?_erase_key.trans (if_neg hne.symm)).trans hp, hrest⟩
  · intro m side
    rw [h.side_unlistOrder ho]
    split
    · exact (h.sorted m side).sublist List.erase_sublist
    · exact h.sorted m side

/-- Overwriting an order by one that is listed in the same place. -/
theorem overwrite {p : Order} (h : Indexes books orders) (ho : orders[id]? = some o)
    (hm : p.market = o.market) (hs : p.side = o.side) (he : ofOrder p = ofOrder o) :
    Indexes books (orders.insert id p) := by
  have hid : p.id = id := (congrArg BookEntry.id he).trans (h.keyed ho)
  refine ⟨?_, ?_, ?_, h.sorted⟩
  · intro id' q hq
    rw [Map.getElem?_insert_key] at hq
    split at hq
    next hi => cases hq; exact hid.trans hi
    next => exact h.keyed hq
  · intro id' q hq
    rw [Map.getElem?_insert_key] at hq
    split at hq
    next => cases hq; rw [hm, hs, he]; exact h.listed ho
    next => exact h.listed hq
  · intro m side e hmem
    obtain ⟨q, hq, hqm, hqs, hqe⟩ := h.owned hmem
    rw [Map.getElem?_insert_key]
    split
    next hi =>
      rw [← hi, ho] at hq
      cases hq
      exact ⟨p, rfl, hm.trans hqm, hs.trans hqs, he.trans hqe⟩
    next => exact ⟨q, hq, hqm, hqs, hqe⟩

/-- The books made from a list of orders under ids of their own. -/
theorem foldl_listOrder (h : Indexes books orders) {entries : List (Hash × Order)}
    (hkey : ∀ e ∈ entries, e.2.id = e.1) (hnew : ∀ e ∈ entries, orders[e.1]? = none)
    (hdis : entries.Pairwise fun a b => a.1 ≠ b.1) :
    Indexes ((entries.map Prod.snd).foldl listOrder books)
      (entries.foldl (fun m e => m.insert e.1 e.2) orders) := by
  induction entries generalizing books orders with
  | nil => exact h
  | cons e rest ih =>
    obtain ⟨he, hdis⟩ := List.pairwise_cons.mp hdis
    obtain ⟨hk, hkey⟩ := List.forall_mem_cons.mp hkey
    obtain ⟨hn, hnew⟩ := List.forall_mem_cons.mp hnew
    rw [List.map_cons, List.foldl_cons, List.foldl_cons]
    rw [← hk] at hn ⊢
    refine ih (h.insert hn) hkey (fun x hx => ?_) hdis
    rw [Map.getElem?_insert_key, if_neg fun h' => he x hx (hk ▸ h')]
    exact hnew x hx

theorem booksOf (hk : ∀ {id : Hash} {o : Order}, orders[id]? = some o → o.id = id) :
    Indexes (booksOf orders) orders := by
  have hkey : ∀ e ∈ orders.toList, e.2.id = e.1 := fun e he =>
    hk (Std.ExtTreeMap.mem_toList_iff_getElem?_eq_some.mp he)
  have h := Indexes.empty.foldl_listOrder hkey (fun e _ => by simp) (Map.distinct_keys orders)
  rwa [Map.foldl_insert_toList, ← Map.values_eq_map_toList] at h

/-- The orders determine what their books list. -/
theorem side_eq (h : Indexes books orders) (h' : Indexes books' orders) (m : MarketId)
    (side : Side) :
    (books.getD m .empty).side side = (books'.getD m .empty).side side := by
  refine Book.eq_of_sorted (h.sorted m side) (h'.sorted m side) fun e =>
    ⟨fun he => ?_, fun he => ?_⟩
  · obtain ⟨o, ho, rfl, rfl, rfl⟩ := h.owned he
    exact h'.listed ho
  · obtain ⟨o, ho, rfl, rfl, rfl⟩ := h'.owned he
    exact h.listed ho

end Indexes

end PerpExchange
