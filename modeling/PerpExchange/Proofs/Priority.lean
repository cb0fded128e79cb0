import PerpExchange.Book
import PerpExchange.Proofs.Arithmetic

/-! Priority is a strict total order on the entries of a side, and the operations of a book keep its
sides in that order. -/
namespace PerpExchange

instance : Std.TransCmp (compare : Amount → Amount → Ordering) :=
  inferInstanceAs (Std.TransCmp (compareOn Amount.toInt))

instance : Std.LawfulEqCmp (compare : Amount → Amount → Ordering) where
  compare_self := Std.ReflCmp.compare_self
  eq_of_compare {a b} h :=
    Amount.ext_toInt (Std.LawfulEqCmp.eq_of_compare (show compare a.toInt b.toInt = .eq from h))

namespace BookEntry
variable {side : Side}

theorem comparePrice_long : comparePrice .long = fun a b => compare b a := rfl

theorem comparePrice_short : comparePrice .short = fun a b => compare a b := rfl

instance : Std.TransCmp (comparePrice side) := by
  cases side with
  | long => rw [comparePrice_long]; infer_instance
  | short => rw [comparePrice_short]; infer_instance

theorem eq_of_comparePrice {a b : Amount} (h : comparePrice side a b = .eq) : a = b := by
  cases side with
  | long => exact (Std.LawfulEqCmp.eq_of_compare (show compare b a = .eq from h)).symm
  | short => exact Std.LawfulEqCmp.eq_of_compare (show compare a b = .eq from h)

/-- The keys of an entry are compared one after the other. -/
theorem priority_eq_compareLex (side : Side) :
    priority side =
      compareLex
        (compareLex (fun a b => comparePrice side a.price b.price) (compareOn BookEntry.block))
        (compareLex (fun a b => compare b.isIoc a.isIoc) (compareOn BookEntry.id)) := rfl

instance : Std.TransCmp (fun a b : BookEntry => comparePrice side a.price b.price) where
  eq_swap {_ _} := @Std.OrientedCmp.eq_swap _ (comparePrice side) _ _ _
  isLE_trans {_ _ _} := @Std.TransCmp.isLE_trans _ (comparePrice side) _ _ _ _

instance : Std.TransCmp (fun a b : BookEntry => compare b.isIoc a.isIoc) where
  eq_swap {_ _} := @Std.OrientedCmp.eq_swap _ (fun a b : Bool => compare b a) _ _ _
  isLE_trans {_ _ _} := @Std.TransCmp.isLE_trans _ (fun a b : Bool => compare b a) _ _ _ _

instance : Std.TransCmp (priority side) := by
  rw [priority_eq_compareLex]
  infer_instance

/-- Only an entry itself is level with it: the keys name all its fields. -/
theorem eq_of_priority {a b : BookEntry} (h : priority side a b = .eq) : a = b := by
  simp only [priority, Ordering.then_eq_eq] at h
  rcases h with ⟨⟨hp, hb⟩, hi, hid⟩
  cases a; cases b
  simp only [mk.injEq]
  exact ⟨Std.LawfulEqCmp.eq_of_compare hid, eq_of_comparePrice hp,
    Std.LawfulEqCmp.eq_of_compare hb, (Std.LawfulEqCmp.eq_of_compare hi).symm⟩

/-- One entry of a side trades before another. -/
def Before (side : Side) (a b : BookEntry) : Prop := priority side a b = .lt

instance (side : Side) (a b : BookEntry) : Decidable (Before side a b) :=
  inferInstanceAs (Decidable (priority side a b = .lt))

theorem Before.trans {a b c : BookEntry} (hab : Before side a b) (hbc : Before side b c) :
    Before side a c := Std.TransCmp.lt_trans hab hbc

theorem Before.ne {a b : BookEntry} (h : Before side a b) : a ≠ b := by
  rintro rfl
  have hs : priority side a a = .eq := Std.ReflCmp.compare_self
  exact absurd (h.symm.trans hs) (by decide)

theorem Before.asymm {a b : BookEntry} (h : Before side a b) : ¬ Before side b a :=
  fun h' => (h.trans h').ne rfl

theorem Before.comparePrice_ne_gt {a b : BookEntry} (h : Before side a b) :
    comparePrice side a.price b.price ≠ .gt := by
  intro hgt
  rw [Before, priority, hgt] at h
  cases h

/-- A long that trades first pays no less. -/
theorem Before.price_le {a b : BookEntry} (h : Before .long a b) : b.price ≤ a.price := by
  have hle : ¬ compare b.price.toInt a.price.toInt = .gt := h.comparePrice_ne_gt
  rw [Int.compare_eq_gt] at hle
  exact Int.not_lt.mp hle

/-- A short that trades first asks no more. -/
theorem Before.le_price {a b : BookEntry} (h : Before .short a b) : a.price ≤ b.price := by
  have hle : ¬ compare a.price.toInt b.price.toInt = .gt := h.comparePrice_ne_gt
  rw [Int.compare_eq_gt] at hle
  exact Int.not_lt.mp hle

/-- Of two entries that differ one trades before the other. -/
theorem before_or_before (side : Side) {a b : BookEntry} (h : a ≠ b) :
    Before side a b ∨ Before side b a := by
  cases hp : priority side a b with
  | lt => exact .inl hp
  | eq => exact absurd (eq_of_priority hp) h
  | gt => exact .inr (Std.OrientedCmp.gt_iff_lt.mp hp)

/-- One entry of a side does not trade after another. -/
def NotBehind (side : Side) (a b : BookEntry) : Prop := priority side a b ≠ .gt

instance (side : Side) (a b : BookEntry) : Decidable (NotBehind side a b) :=
  inferInstanceAs (Decidable (priority side a b ≠ .gt))

theorem Before.notBehind {a b : BookEntry} (h : Before side a b) : NotBehind side a b := by
  intro hgt
  rw [h] at hgt
  cases hgt

theorem NotBehind.trans {a b c : BookEntry} (hab : NotBehind side a b) (hbc : NotBehind side b c) :
    NotBehind side a c :=
  Ordering.ne_gt_iff_isLE.mpr (Std.TransCmp.isLE_trans (Ordering.ne_gt_iff_isLE.mp hab)
    (Ordering.ne_gt_iff_isLE.mp hbc))

theorem before_of_priority_eq_gt {a b : BookEntry} (h : priority side a b = .gt) :
    Before side b a := Std.OrientedCmp.gt_iff_lt.mp h

theorem NotBehind.before {a b : BookEntry} (h : NotBehind side a b) (hne : a ≠ b) :
    Before side a b :=
  (before_or_before side hne).resolve_right fun hba => h (Std.OrientedCmp.gt_iff_lt.mpr hba)

/-- Two entries neither of which trades after the other are one. -/
theorem NotBehind.antisymm {a b : BookEntry} (hab : NotBehind side a b)
    (hba : NotBehind side b a) : a = b :=
  Decidable.byContradiction fun hne => (hab.before hne).asymm (hba.before (Ne.symm hne))

end BookEntry

namespace Book
open BookEntry
variable {side : Side} {e : BookEntry} {entries : List BookEntry}

theorem mem_place {x : BookEntry} : x ∈ place side e entries ↔ x = e ∨ x ∈ entries := by
  rw [(perm_place side e entries).mem_iff, List.mem_cons]

/-- A side in order of priority, on which one entry may stand several times, stays so. -/
theorem place_inOrder (h : entries.Pairwise (NotBehind side)) :
    (place side e entries).Pairwise (NotBehind side) := by
  induction entries with
  | nil => simp [place]
  | cons x rest ih =>
    obtain ⟨hx, hrest⟩ := List.pairwise_cons.mp h
    unfold place
    split
    next hgt =>
      have hex : NotBehind side e x := (before_of_priority_eq_gt hgt).notBehind
      refine List.pairwise_cons.mpr ⟨fun y hy => ?_, h⟩
      rcases List.mem_cons.mp hy with rfl | hy
      · exact hex
      · exact hex.trans (hx y hy)
    next hgt =>
      refine List.pairwise_cons.mpr ⟨fun y hy => ?_, ih hrest⟩
      rcases mem_place.mp hy with rfl | hy
      · exact hgt
      · exact hx y hy

theorem nodup_of_sorted (h : entries.Pairwise (Before side)) : entries.Nodup :=
  h.imp Before.ne

theorem place_sorted (h : entries.Pairwise (Before side)) (he : e ∉ entries) :
    (place side e entries).Pairwise (Before side) := by
  have hnodup : (place side e entries).Nodup :=
    (perm_place side e entries).nodup_iff.mpr (List.nodup_cons.mpr ⟨he, nodup_of_sorted h⟩)
  exact (place_inOrder (h.imp Before.notBehind)).imp₂ (fun _ _ => NotBehind.before) hnodup

/-- What is on a side, and how often, determines the order it stands in. -/
theorem eq_of_inOrder {entries' : List BookEntry} (h : entries.Pairwise (NotBehind side))
    (h' : entries'.Pairwise (NotBehind side)) (hp : entries.Perm entries') : entries = entries' :=
  hp.eq_of_pairwise (fun _ _ _ _ => NotBehind.antisymm) h h'

theorem eq_of_sorted {entries' : List BookEntry} (h : entries.Pairwise (Before side))
    (h' : entries'.Pairwise (Before side)) (hm : ∀ e, e ∈ entries ↔ e ∈ entries') :
    entries = entries' :=
  eq_of_inOrder (h.imp Before.notBehind) (h'.imp Before.notBehind)
    ((List.perm_ext_iff_of_nodup (nodup_of_sorted h) (nodup_of_sorted h')).mpr hm)

@[simp] theorem side_empty : empty.side side = [] := by cases side <;> rfl

theorem side_withSide (b : Book) (s side : Side) (es : List BookEntry) :
    (b.withSide s es).side side = if side = s then es else b.side side := by
  cases s <;> cases side <;> rfl

theorem side_insert (b : Book) (o : Order) (side : Side) :
    (b.insert o).side side =
      if side = o.side then place side (ofOrder o) (b.side side) else b.side side := by
  rw [insert, side_withSide]
  split
  next h => rw [h]
  next => rfl

/-- An order that is listed under its own key is taken off, and nothing else. -/
theorem side_remove {b : Book} {o : Order} (h : ofOrder o ∈ b.side o.side) (side : Side) :
    (b.remove o).side side =
      if side = o.side then (b.side side).erase (ofOrder o) else b.side side := by
  rw [remove, remove?, if_pos h, Option.getD_some, side_withSide]
  split
  next h => rw [h]
  next => rfl

@[simp] theorem remove_empty (o : Order) : empty.remove o = empty := by
  simp [remove, remove?]

end Book

end PerpExchange
