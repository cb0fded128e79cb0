import PerpExchange.Bisection
import PerpExchange.Proofs.Priority

/-! What bisection finds in a list whose items come in the order of their comparisons. On a side in
order of priority it leads to the book that looking through the side from the front leads to. -/
namespace PerpExchange

namespace Bisection
variable {α : Type} {f : α → Ordering} {p : α → Bool} {xs : List α}

/-- Items that belong before what is looked for come first, and those that belong behind it last. -/
def Graded (f : α → Ordering) (xs : List α) : Prop :=
  xs.Pairwise fun x y => (f x = .gt → f y = .gt) ∧ (f y = .lt → f x = .lt)

/-- Narrowing ends at the last place that does not lie behind, or at the first of all. -/
theorem narrow_spec {g : Nat → Ordering} {start size : Nat}
    (hg : ∀ i j, i ≤ j → g i = .gt → g j = .gt) (hstart : start = 0 ∨ g start ≠ .gt)
    (hend : ∀ i, start + size ≤ i → g i = .gt) :
    (narrow g start size = 0 ∨ g (narrow g start size) ≠ .gt) ∧
      ∀ i, narrow g start size < i → g i = .gt := by
  fun_induction narrow g start size with
  | case1 start size hsize middle ih =>
    have hmiddle : middle = start + size / 2 := rfl
    apply ih
    · split
      · exact hstart
      next hge => exact .inr hge
    · intro i hi
      split at hi
      next hgt => exact hg middle i (by omega) hgt
      next => exact hend i (by omega)
  | case2 start size hsize => exact ⟨hstart, fun i hi => hend i (by omega)⟩

/-- How the places of a list are divided where a search ends. -/
inductive Finds (f : α → Ordering) : List α → Outcome → Prop
  | present {ahead behind : List α} {x : α} (h : f x = .eq) :
    Finds f (ahead ++ x :: behind) (.present ahead.length)
  | absent {ahead behind : List α} (hahead : ∀ x ∈ ahead, f x = .lt)
    (hbehind : ∀ x ∈ behind, f x = .gt) : Finds f (ahead ++ behind) (.absent ahead.length)

theorem compareAt_of_lt {i : Nat} (h : i < xs.length) : compareAt f xs i = f xs[i] := by
  rw [compareAt, List.getElem?_eq_getElem h]
  rfl

theorem compareAt_of_le {i : Nat} (h : xs.length ≤ i) : compareAt f xs i = .gt := by
  rw [compareAt, List.getElem?_eq_none h]
  rfl

theorem lt_length_of_compareAt {i : Nat} (h : compareAt f xs i ≠ .gt) : i < xs.length :=
  Nat.lt_of_not_le fun hle => h (compareAt_of_le hle)

theorem Graded.gt_compareAt (h : Graded f xs) (i j : Nat) (hij : i ≤ j)
    (hi : compareAt f xs i = .gt) : compareAt f xs j = .gt := by
  rcases Nat.lt_or_ge j xs.length with hj | hj
  · rcases Nat.eq_or_lt_of_le hij with rfl | hlt
    · exact hi
    · rw [compareAt_of_lt (Nat.lt_trans hlt hj)] at hi
      rw [compareAt_of_lt hj]
      exact (List.pairwise_iff_getElem.mp h i j _ hj hlt).1 hi
  · exact compareAt_of_le hj

theorem Graded.lt_compareAt (h : Graded f xs) (i j : Nat) (hij : i ≤ j)
    (hj : compareAt f xs j = .lt) : compareAt f xs i = .lt := by
  have hlength : j < xs.length := lt_length_of_compareAt (by rw [hj]; decide)
  rcases Nat.eq_or_lt_of_le hij with rfl | hlt
  · exact hj
  · rw [compareAt_of_lt hlength] at hj
    rw [compareAt_of_lt (Nat.lt_trans hlt hlength)]
    exact (List.pairwise_iff_getElem.mp h i j _ hlength hlt).2 hj

/-- Where everything before a place belongs before what is looked for, and the rest behind it. -/
theorem finds_absent {place : Nat} (hplace : place ≤ xs.length)
    (hahead : ∀ i, i < place → compareAt f xs i = .lt)
    (hbehind : ∀ i, place ≤ i → compareAt f xs i = .gt) : Finds f xs (.absent place) := by
  have hlength : (xs.take place).length = place := List.length_take_of_le hplace
  have h : Finds f (xs.take place ++ xs.drop place) (.absent (xs.take place).length) := by
    constructor
    · intro x hx
      obtain ⟨i, hi, rfl⟩ := List.mem_take_iff_getElem.mp hx
      have hlength : i < xs.length := by omega
      exact (compareAt_of_lt hlength).symm.trans (hahead i (by omega))
    · intro x hx
      obtain ⟨i, hi, rfl⟩ := List.mem_drop_iff_getElem.mp hx
      have hlength : place + i < xs.length := by omega
      exact (compareAt_of_lt hlength).symm.trans (hbehind (place + i) (by omega))
  rwa [List.take_append_drop, hlength] at h

/-- A search finds what is looked for if it is there, and else the place it would have. -/
theorem finds_search (h : Graded f xs) : Finds f xs (search f xs) := by
  have hend : ∀ i, 0 + xs.length ≤ i → compareAt f xs i = .gt :=
    fun i hi => compareAt_of_le (by omega)
  obtain ⟨hlast, hbehind⟩ := narrow_spec h.gt_compareAt (.inl rfl) hend
  unfold search
  generalize narrow (compareAt f xs) 0 xs.length = place at hlast hbehind
  simp only
  split
  next hlt =>
    have hlength : place < xs.length := lt_length_of_compareAt (by rw [hlt]; decide)
    exact finds_absent hlength (fun i hi => h.lt_compareAt i place (by omega) hlt) hbehind
  next heq =>
    have hlength : place < xs.length := lt_length_of_compareAt (by rw [heq]; decide)
    have hfound : Finds f (xs.take place ++ xs[place] :: xs.drop (place + 1))
        (.present (xs.take place).length) :=
      .present ((compareAt_of_lt hlength).symm.trans heq)
    rwa [List.getElem_cons_drop, List.take_append_drop,
      List.length_take_of_le (Nat.le_of_lt hlength)] at hfound
  next hgt =>
    have hzero : place = 0 := hlast.resolve_right fun hne => hne hgt
    subst hzero
    exact finds_absent (Nat.zero_le _) (fun i hi => absurd hi (Nat.not_lt_zero i))
      fun i hi => h.gt_compareAt 0 i hi hgt

/-- The partition point divides what passes the test from what fails it. -/
theorem exists_partitionPoint (h : xs.Pairwise fun x y => p y = true → p x = true) :
    ∃ ahead behind, xs = ahead ++ behind ∧ partitionPoint p xs = ahead.length ∧
      (∀ x ∈ ahead, p x = true) ∧ ∀ x ∈ behind, p x = false := by
  have hgraded : Graded (fun x => if p x then Ordering.lt else .gt) xs :=
    h.imp fun {x y} hxy => by cases hx : p x <;> cases hy : p y <;> simp_all
  have hfinds := finds_search hgraded
  unfold partitionPoint
  cases hsearch : search (fun x => if p x then Ordering.lt else .gt) xs with
  | present place =>
    rw [hsearch] at hfinds
    cases hfinds with
    | present hx => split at hx <;> cases hx
  | absent place =>
    rw [hsearch] at hfinds
    cases hfinds with
    | absent hahead hbehind =>
      refine ⟨_, _, rfl, rfl, fun x hx => ?_, fun x hx => ?_⟩
      · simpa using hahead x hx
      · simpa using hbehind x hx

end Bisection

namespace Book
open BookEntry Bisection
variable {side : Side} {e : BookEntry} {entries ahead behind : List BookEntry} {b : Book} {o : Order}

theorem graded_priority (h : entries.Pairwise (NotBehind side)) (e : BookEntry) :
    Graded (fun x => priority side x e) entries := by
  refine h.imp fun {x y} hxy => ⟨fun hx => ?_, fun hy => ?_⟩
  · have hex : Before side e x := before_of_priority_eq_gt hx
    exact Std.OrientedCmp.gt_iff_lt.mpr (Std.TransCmp.lt_of_lt_of_isLE hex
      (Ordering.ne_gt_iff_isLE.mp hxy))
  · exact Std.TransCmp.lt_of_isLE_of_lt (Ordering.ne_gt_iff_isLE.mp hxy) hy

/-- An entry is placed where those that trade after it begin. -/
theorem place_append (hahead : ∀ x ∈ ahead, NotBehind side x e)
    (hbehind : ∀ x ∈ behind, ¬NotBehind side x e) :
    place side e (ahead ++ behind) = ahead ++ e :: behind := by
  induction ahead with
  | nil =>
    cases behind with
    | nil => rfl
    | cons x rest =>
      have hgt : priority side x e = .gt := Decidable.not_not.mp (hbehind x List.mem_cons_self)
      exact if_pos hgt
  | cons x rest ih =>
    obtain ⟨hx, hrest⟩ := List.forall_mem_cons.mp hahead
    rw [List.cons_append, place, if_neg hx, ih hrest]
    rfl

/-- Whichever of several equal entries of a side is taken off, the same side is left. -/
theorem erase_eq_of_inOrder (h : (ahead ++ e :: behind).Pairwise (NotBehind side)) :
    (ahead ++ e :: behind).erase e = ahead ++ behind := by
  have hperm : ((ahead ++ e :: behind).erase e).Perm (ahead ++ behind) := by
    have hmiddle : (ahead ++ e :: behind).Perm (e :: (ahead ++ behind)) := List.perm_middle
    have herase := hmiddle.erase e
    rwa [List.erase_cons_head] at herase
  have hsub : (ahead ++ behind).Sublist (ahead ++ e :: behind) :=
    (List.sublist_cons_self e behind).append_left ahead
  exact eq_of_inOrder (h.sublist List.erase_sublist) (h.sublist hsub) hperm

theorem insertIdx_length_append :
    (ahead ++ behind).insertIdx ahead.length e = ahead ++ e :: behind :=
  List.modifyTailIdx_add (List.cons e) 0 ahead behind

theorem eraseIdx_length_append :
    (ahead ++ e :: behind).eraseIdx ahead.length = ahead ++ behind := by
  rw [List.eraseIdx_append_of_length_le (Nat.le_refl _), Nat.sub_self]
  rfl

theorem insertByBisection_eq (h : (b.side o.side).Pairwise (NotBehind o.side)) :
    b.insertByBisection o = b.insert o := by
  have htest : (b.side o.side).Pairwise fun x y =>
      decide (NotBehind o.side y (ofOrder o)) = true →
        decide (NotBehind o.side x (ofOrder o)) = true :=
    h.imp fun hxy hy => decide_eq_true (hxy.trans (of_decide_eq_true hy))
  obtain ⟨ahead, behind, hside, hpoint, hahead, hbehind⟩ := exists_partitionPoint htest
  have hplace := place_append (fun x hx => of_decide_eq_true (hahead x hx))
    fun x hx => of_decide_eq_false (hbehind x hx)
  rw [insert, hside, hplace, ← insertIdx_length_append, ← hpoint, ← hside]
  rfl

theorem removeByBisection?_eq (h : (b.side o.side).Pairwise (NotBehind o.side)) :
    b.removeByBisection? o = b.remove? o := by
  have hfinds := finds_search (graded_priority h (ofOrder o))
  simp only [removeByBisection?, remove?]
  generalize search (fun e => priority o.side e (ofOrder o)) (b.side o.side) = outcome
    at hfinds ⊢
  generalize b.side o.side = entries at h hfinds ⊢
  cases hfinds with
  | @present ahead behind x hx =>
    obtain rfl : x = ofOrder o := eq_of_priority hx
    have hmem : ofOrder o ∈ ahead ++ ofOrder o :: behind := by simp
    simp only [if_pos hmem, erase_eq_of_inOrder h, eraseIdx_length_append]
  | @absent ahead behind hahead hbehind =>
    have hself : priority o.side (ofOrder o) (ofOrder o) = .eq := Std.ReflCmp.compare_self
    have hmem : ofOrder o ∉ ahead ++ behind := by
      rw [List.mem_append]
      rintro (hmem | hmem)
      · have hlt := hahead _ hmem
        rw [hself] at hlt
        cases hlt
      · have hgt := hbehind _ hmem
        rw [hself] at hgt
        cases hgt
    simp only [if_neg hmem, List.eraseP_eq_eraseIdx, ← List.findIdx?_isSome]
    cases (ahead ++ behind).findIdx? fun e => e.id = o.id <;> rfl

end Book
end PerpExchange
