import PerpExchange.Proofs.Bisection

/-! The sides of a book are multisets of entries, written down in order of priority. Nothing is asked
of the orders: an id may come again, and with another price, block or kind than it is listed with. -/
namespace PerpExchange.Book
open BookEntry
variable {b : Book} {o : Order}

/-- What can be done to a book. -/
inductive Operation where
  | insert (o : Order)
  | remove (o : Order)
  | clear

def operate (b : Book) : Operation → Book
  | .insert o => b.insert o
  | .remove o => b.remove o
  | .clear => empty

/-- An operation for which the places of entries are found by halving. -/
def operateByBisection (b : Book) : Operation → Book
  | .insert o => b.insertByBisection o
  | .remove o => (b.removeByBisection? o).getD b
  | .clear => empty

/-- The book that operations make of an empty one. -/
def after (ops : List Operation) : Book := ops.foldl operate empty

def afterByBisection (ops : List Operation) : Book := ops.foldl operateByBisection empty

/-- Both sides are in order of priority. -/
def InOrder (b : Book) : Prop := ∀ side, (b.side side).Pairwise (NotBehind side)

/-- The side of an order has one entry more, that of the order. All others stand as they stood. -/
structure Inserts (b : Book) (o : Order) (b' : Book) : Prop where
  added : ∃ ahead behind, b.side o.side = ahead ++ behind ∧
    b'.side o.side = ahead ++ ofOrder o :: behind
  other : ∀ side, side ≠ o.side → b'.side side = b.side side

/-- An order is found exactly if its side has an entry under its id. One such entry is gone then, its
own if there was one, and all others stand as they stood. -/
structure Removes (b : Book) (o : Order) (found : Bool) (b' : Book) : Prop where
  found_iff : found = true ↔ ∃ e ∈ b.side o.side, e.id = o.id
  removed : found = true → ∃ ahead e behind, b.side o.side = ahead ++ e :: behind ∧
    b'.side o.side = ahead ++ behind ∧ e.id = o.id ∧ (ofOrder o ∈ b.side o.side → e = ofOrder o)
  other : ∀ side, side ≠ o.side → b'.side side = b.side side
  kept : found = false → b' = b

theorem exists_place (side : Side) (e : BookEntry) (entries : List BookEntry) :
    ∃ ahead behind, entries = ahead ++ behind ∧ place side e entries = ahead ++ e :: behind := by
  induction entries with
  | nil => exact ⟨[], [], rfl, rfl⟩
  | cons x rest ih =>
    unfold place
    split
    · exact ⟨[], x :: rest, rfl, rfl⟩
    · obtain ⟨ahead, behind, hrest, hplace⟩ := ih
      exact ⟨x :: ahead, behind, congrArg (x :: ·) hrest, congrArg (x :: ·) hplace⟩

theorem inserts (b : Book) (o : Order) : b.Inserts o (b.insert o) where
  added := by
    rw [side_insert, if_pos rfl]
    exact exists_place o.side (ofOrder o) (b.side o.side)
  other side hside := by rw [side_insert, if_neg hside]

/-- An entry under the id of an order is taken out of the middle of its side. -/
theorem removes_withSide {ahead behind : List BookEntry} {e : BookEntry}
    (hside : b.side o.side = ahead ++ e :: behind) (hid : e.id = o.id)
    (hown : ofOrder o ∈ b.side o.side → e = ofOrder o) :
    b.Removes o true (b.withSide o.side (ahead ++ behind)) where
  found_iff := iff_of_true rfl ⟨e, by rw [hside]; simp, hid⟩
  removed _ := ⟨ahead, e, behind, hside, by rw [side_withSide, if_pos rfl], hid, hown⟩
  other side hne := by rw [side_withSide, if_neg hne]
  kept h := nomatch h

theorem removes (b : Book) (o : Order) : b.Removes o (b.remove? o).isSome (b.remove o) := by
  simp only [remove, remove?]
  split
  next hmem =>
    obtain ⟨ahead, behind, -, hsplit, herase⟩ := List.exists_erase_eq hmem
    rw [herase]
    exact removes_withSide hsplit rfl fun _ => rfl
  next hmem =>
    split
    next hany =>
      obtain ⟨x, hx, hid⟩ := List.any_eq_true.mp hany
      obtain ⟨e, ahead, behind, -, he, hsplit, herase⟩ :=
        List.exists_of_eraseP (p := fun e => e.id = o.id) hx hid
      rw [herase]
      exact removes_withSide hsplit (of_decide_eq_true he) fun h => absurd h hmem
    next hany =>
      have hheld : ¬∃ e ∈ b.side o.side, e.id = o.id := by
        rintro ⟨e, he, hid⟩
        exact hany (List.any_eq_true.mpr ⟨e, he, decide_eq_true hid⟩)
      constructor
      · exact iff_of_false Bool.false_ne_true hheld
      · exact fun h => absurd h Bool.false_ne_true
      · exact fun _ _ => rfl
      · exact fun _ => rfl

theorem inOrder_empty : empty.InOrder := by
  intro side
  rw [side_empty]
  exact List.Pairwise.nil

theorem InOrder.insert (h : b.InOrder) (o : Order) : (b.insert o).InOrder := by
  intro side
  rw [side_insert]
  split
  · exact place_inOrder (h side)
  · exact h side

theorem InOrder.remove (h : b.InOrder) (o : Order) : (b.remove o).InOrder := by
  have hremoves := b.removes o
  cases hfound : (b.remove? o).isSome with
  | false => rwa [hremoves.kept hfound]
  | true =>
    intro side
    by_cases hside : side = o.side
    · obtain ⟨ahead, e, behind, hold, hnew, -⟩ := hremoves.removed hfound
      have hsorted := h o.side
      rw [hold] at hsorted
      rw [hside, hnew]
      exact hsorted.sublist ((List.sublist_cons_self e behind).append_left ahead)
    · rw [hremoves.other side hside]
      exact h side

theorem InOrder.operate (h : b.InOrder) (x : Operation) : (b.operate x).InOrder := by
  cases x with
  | insert o => exact h.insert o
  | remove o => exact h.remove o
  | clear => exact inOrder_empty

theorem InOrder.operateByBisection_eq (h : b.InOrder) (x : Operation) :
    b.operateByBisection x = b.operate x := by
  cases x with
  | insert o => exact insertByBisection_eq (h o.side)
  | remove o => exact congrArg (·.getD b) (removeByBisection?_eq (h o.side))
  | clear => rfl

/-- A book in order stays so, and its places may as well be found by halving all along. -/
theorem InOrder.operations (h : b.InOrder) (ops : List Operation) :
    (ops.foldl Book.operate b).InOrder ∧
      ops.foldl Book.operateByBisection b = ops.foldl Book.operate b := by
  induction ops generalizing b with
  | nil => exact ⟨h, rfl⟩
  | cons x ops ih =>
    rw [List.foldl_cons, List.foldl_cons, h.operateByBisection_eq x]
    exact ih (h.operate x)

/-- Whatever is inserted, removed and cleared, in any sequence, each side stays in order of priority
and changes by the one entry concerned, with the places found by halving or by looking through the
side. What is on a side, and how often, determines the order it stands in, however it came there. -/
theorem operations_keep_sorted_multisets (ops : List Operation) :
    (after ops).InOrder ∧ afterByBisection ops = after ops ∧
      (∀ o, (after ops).insertByBisection o = (after ops).insert o ∧
        (after ops).Inserts o ((after ops).insert o)) ∧
      (∀ o, (after ops).removeByBisection? o = (after ops).remove? o ∧
        (after ops).Removes o ((after ops).remove? o).isSome ((after ops).remove o)) ∧
      ∀ (ops' : List Operation) (side : Side), (after ops').side side = (after ops).side side ↔
        ((after ops').side side).Perm ((after ops).side side) := by
  obtain ⟨horder, hbisection⟩ := inOrder_empty.operations ops
  refine ⟨horder, hbisection, fun o => ?_, fun o => ?_, fun ops' side => ?_⟩
  · exact ⟨insertByBisection_eq (horder o.side), (after ops).inserts o⟩
  · exact ⟨removeByBisection?_eq (horder o.side), (after ops).removes o⟩
  · obtain ⟨horder', -⟩ := inOrder_empty.operations ops'
    exact ⟨fun h => h ▸ List.Perm.refl _, eq_of_inOrder (horder' side) (horder side)⟩

/-- An order that is listed twice and has been moved to another price since is taken off once. -/
example : let o : Order := { (default : Order) with price := 5 }
    let moved : Order := { o with price := 7 }
    (after [.insert o, .insert o, .remove moved]).longs = [ofOrder o] := by decide

end PerpExchange.Book
