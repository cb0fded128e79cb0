import Mathlib.Data.List.Forall2
import PerpExchange.Proofs.Ranges
import PerpExchange.Proofs.SweepFindings
import PerpExchange.Proofs.WorkingBooks

/-! What the turns of a long make of the orders, each by what is submitted of it, and which orders
come to sit out. -/
namespace PerpExchange

namespace Order

/-- How much of an order is open. -/
def openSize (o : Order) : Int := (o.size.toInt - o.filled.toInt).natAbs

/-- A size that has the sign of a side, and a fill between nothing and all of it. -/
def SizedFor (o : Order) : Side → Prop
  | .long => 0 < o.size ∧ 0 ≤ o.filled ∧ o.filled ≤ o.size
  | .short => o.size < 0 ∧ o.filled ≤ 0 ∧ o.size ≤ o.filled

instance (o : Order) : (side : Side) → Decidable (o.SizedFor side)
  | .long => inferInstanceAs (Decidable (0 < o.size ∧ 0 ≤ o.filled ∧ o.filled ≤ o.size))
  | .short => inferInstanceAs (Decidable (o.size < 0 ∧ o.filled ≤ 0 ∧ o.size ≤ o.filled))

/-- What a stretch of a run makes of an order: it fills it by what the journal says. -/
structure Becomes (side : Side) (journal : List Receipt) (o w : Order) : Prop where
  copy : w = { o with filled := w.filled }
  sized : w.SizedFor side
  openSize_eq : w.openSize = o.openSize - filledBy o.id journal

variable {side : Side} {j j' : List Receipt} {o w v : Order} {a : Amount}

theorem natAbs_eq_openSize (h : o.unfilled = .ok a) : (a.toInt.natAbs : Int) = o.openSize := by
  rw [openSize, Amount.sub_eq_ok_iff.mp h]

theorem openSize_eq_zero (h : o.unfilled = .ok a) : o.openSize = 0 ↔ a = 0 := by
  rw [← natAbs_eq_openSize h, Amount.eq_iff, Amount.toInt_zero]
  omega

theorem openSize_nonneg (o : Order) : 0 ≤ o.openSize := Int.natCast_nonneg _

/-- A fill between nothing and all of a size, which has the sign of a side or is zero. -/
def FilledWithin (o : Order) : Side → Prop
  | .long => 0 ≤ o.filled ∧ o.filled ≤ o.size
  | .short => o.filled ≤ 0 ∧ o.size ≤ o.filled

instance (o : Order) : (side : Side) → Decidable (o.FilledWithin side)
  | .long => inferInstanceAs (Decidable (0 ≤ o.filled ∧ o.filled ≤ o.size))
  | .short => inferInstanceAs (Decidable (o.filled ≤ 0 ∧ o.size ≤ o.filled))

theorem SizedFor.within (h : o.SizedFor side) : o.FilledWithin side := by
  cases side <;> exact h.2

theorem FilledWithin.exists_unfilled (h : o.FilledWithin side) : ∃ a, o.unfilled = .ok a := by
  have hlow := o.size.lower
  have hhigh := o.size.upper
  have hfits : Amount.Fits (o.size.toInt - o.filled.toInt) := by
    cases side <;>
      simp only [FilledWithin, Amount.le_iff, Amount.toInt_zero] at h <;>
      exact ⟨by omega, by omega⟩
  obtain ⟨a, ha, -⟩ := Amount.yields_sub hfits
  exact ⟨a, ha⟩

/-- An order that is filled by no more than what is open of it. -/
theorem FilledWithin.fill (h : o.FilledWithin side) {filled fill : Amount} (h0 : 0 ≤ fill.toInt)
    (hle : fill.toInt ≤ o.openSize)
    (hf : filled.toInt = o.filled.toInt + fill.toInt * side.sign.toInt) :
    ({ o with filled } : Order).FilledWithin side ∧
      ({ o with filled } : Order).openSize = o.openSize - fill.toInt := by
  unfold openSize at hle ⊢
  cases side <;>
    simp only [FilledWithin, Amount.le_iff, Amount.toInt_zero, Side.toInt_sign_long,
      Side.toInt_sign_short] at h hf ⊢ <;> omega

theorem SizedFor.fill (h : o.SizedFor side) {filled fill : Amount} (h0 : 0 ≤ fill.toInt)
    (hle : fill.toInt ≤ o.openSize)
    (hf : filled.toInt = o.filled.toInt + fill.toInt * side.sign.toInt) :
    ({ o with filled } : Order).SizedFor side ∧
      ({ o with filled } : Order).openSize = o.openSize - fill.toInt := by
  obtain ⟨hwithin, hopen⟩ := h.within.fill h0 hle hf
  refine ⟨?_, hopen⟩
  cases side with
  | long => exact ⟨h.1, hwithin⟩
  | short => exact ⟨h.1, hwithin⟩

namespace Becomes

theorem id_eq (h : Becomes side j o w) : w.id = o.id := by
  rw [h.copy]

theorem price_eq (h : Becomes side j o w) : w.price = o.price := by
  rw [h.copy]

theorem of_untouched (h : o.SizedFor side) (h0 : filledBy o.id j = 0) : Becomes side j o o where
  copy := rfl
  sized := h
  openSize_eq := by rw [h0, Int.sub_zero]

theorem append (h : Becomes side j o w) (h' : Becomes side j' w v) :
    Becomes side (j ++ j') o v where
  copy := by rw [h'.copy, h.copy]
  sized := h'.sized
  openSize_eq := by
    rw [h'.openSize_eq, h.openSize_eq, h.id_eq, filledBy_append]
    omega

theorem of_filledBy_eq (h : Becomes side j o w) (hj : filledBy o.id j' = filledBy o.id j) :
    Becomes side j' o w where
  copy := h.copy
  sized := h.sized
  openSize_eq := by rw [hj, h.openSize_eq]

end Becomes
end Order

namespace RunM
variable {σ : Type} {r r' : RunState σ}

theorem count_skipped {c : Counter} {u : Unit} (h : (count c : RunM σ Unit).run r = .ok u r') :
    r'.skipped = r.skipped := by
  cases modify_ok.mp h
  rfl

theorem skip_skipped {id : Hash} {u : Unit} (h : (skip id : RunM σ Unit).run r = .ok u r') :
    r'.skipped = r.skipped.insert id := by
  cases modify_ok.mp h
  rfl

theorem release_skipped {trader : Address} {a : Amount} {u : Unit}
    (h : (release trader a : RunM σ Unit).run r = .ok u r') : r'.skipped = r.skipped := by
  cases releases_of_run h with
  | nothing => rfl
  | credited => rfl

theorem reserve_skipped {terms : MarginTerms} {bound : Option Amount} {o : Order} {fill : Amount}
    {a : Option Amount}
    (h : (reserve terms bound o fill : RunM σ (Option Amount)).run r = .ok a r') :
    r'.skipped = r.skipped := by
  cases reserves_of_run h with
  | exempt => rfl
  | short => rfl
  | debited => rfl

/-- An order that needs no margin of its own is never short of it. -/
theorem reserve_exempt {terms : MarginTerms} {bound : Option Amount} {o : Order} {fill : Amount}
    {a : Option Amount} (he : o.isMarginExempt)
    (h : (reserve terms bound o fill : RunM σ (Option Amount)).run r = .ok a r') : a = some 0 := by
  cases reserves_of_run h with
  | exempt => rfl
  | short hn => exact absurd he hn
  | debited hn => exact absurd he hn

theorem submit_skipped {executor : Executor σ} {s : Submission} {accepted : Bool}
    (h : (submit executor s).run r = .ok accepted r') : r'.skipped = r.skipped := by
  unfold submit at h
  obtain ⟨_, _, hg, h⟩ := bind_ok.mp h
  obtain ⟨rfl, rfl⟩ := get_ok.mp hg
  obtain ⟨_, _, hs, h⟩ := bind_ok.mp h
  cases hs
  obtain ⟨-, rfl⟩ := pure_ok.mp h
  rfl

end RunM

/-- Two orders whose times let them trade, and neither of which needs margin of its own. -/
def Compatible (long short : Order) : Prop :=
  canCrossInTime long short ∧ long.isMarginExempt ∧ short.isMarginExempt

instance (long short : Order) : Decidable (Compatible long short) :=
  inferInstanceAs (Decidable (canCrossInTime long short ∧ _ ∧ _))

/-- A stretch of a run that names only orders of some ids. Orders that sit out go on doing so. -/
structure Names {σ : Type} (ids : List Hash) (journal : List Receipt) (r r' : RunState σ) :
    Prop where
  journal_eq : r'.journal = r.journal ++ journal
  skipped : ∀ id, id ∈ r.skipped → id ∈ r'.skipped
  others : ∀ id, id ∉ ids → ∀ x ∈ journal, x.submission.fillOf id = 0

/-- Orders but for some that are used up. -/
inductive Prunes : List Order → List Order → Prop
  | nil : Prunes [] []
  | keep {orders kept : List Order} (o : Order) (h : Prunes orders kept) :
    Prunes (o :: orders) (o :: kept)
  | drop {orders kept : List Order} {o : Order} (h0 : o.openSize = 0) (h : Prunes orders kept) :
    Prunes (o :: orders) kept

/-- What an accepted match makes of a pair: both are filled by the lesser of what is open of them. -/
structure Fills (fill : Amount) (long short long₁ short₁ : Order) : Prop where
  eq_min : fill.toInt = min long.openSize short.openSize
  long_copy : long₁ = { long with filled := long₁.filled }
  short_copy : short₁ = { short with filled := short₁.filled }
  long_filled : long₁.filled.toInt = long.filled.toInt + fill.toInt * Side.long.sign.toInt
  short_filled : short₁.filled.toInt = short.filled.toInt + fill.toInt * Side.short.sign.toInt

/-- What the turns of a long make of the long and of the shorts. -/
structure Walks {σ : Type} (long long' : Order) (shorts shorts' : List Order)
    (journal : List Receipt) (r r' : RunState σ) : Prop
    extends Names ((long :: shorts).map Order.id) journal r r' where
  long : long.Becomes .long journal long'
  shorts : List.Forall₂ (Order.Becomes .short journal) shorts shorts'

section
variable {σ : Type} {t : MatchTerms σ} {r r₁ r' : RunState σ} {ids ids' all : List Hash}
variable {j j' before after : List Receipt} {x : Receipt} {id : Hash} {side : Side} {o p : Order}
variable {long long₁ long' short short₁ : Order}
  {orders kept longs rest rest' shorts shorts' : List Order}

theorem not_mem_ids (h : ∀ o ∈ orders, o.id ≠ id) : id ∉ orders.map Order.id := by
  rw [List.mem_map]
  rintro ⟨o, ho, hid⟩
  exact h o ho hid

namespace DistinctIds

theorem nodup (h : DistinctIds orders) : (orders.map Order.id).Nodup := List.pairwise_map.mpr h

theorem eq_of_id (h : DistinctIds orders) (ho : o ∈ orders) (hp : p ∈ orders)
    (hid : o.id = p.id) : o = p := List.inj_on_of_nodup_map h.nodup ho hp hid

theorem head_not_mem (h : DistinctIds (o :: orders)) : o.id ∉ orders.map Order.id :=
  (List.nodup_cons.mp h.nodup).1

/-- The first short is neither the long nor one of the rest. -/
theorem short_not_mem (h : DistinctIds (long :: short :: rest)) :
    short.id ∉ (long :: rest).map Order.id := by
  obtain ⟨hlong, h⟩ := List.pairwise_cons.mp h
  refine not_mem_ids fun o ho => ?_
  rcases List.mem_cons.mp ho with rfl | ho
  · exact hlong short List.mem_cons_self
  · exact ((List.pairwise_cons.mp h).1 o ho).symm

/-- None of the rest is the long or the first short. -/
theorem rest_not_mem (h : DistinctIds (long :: short :: rest)) (ho : o ∈ rest) :
    o.id ∉ [long, short].map Order.id := by
  obtain ⟨hlong, h⟩ := List.pairwise_cons.mp h
  refine not_mem_ids fun p hp => ?_
  rcases List.mem_pair.mp hp with rfl | rfl
  · exact hlong o (List.mem_cons_of_mem _ ho)
  · exact (List.pairwise_cons.mp h).1 o ho

end DistinctIds

namespace Names

theorem filledBy_eq_zero (h : Names ids j r r') (hid : id ∉ ids) : filledBy id j = 0 :=
  filledBy_of_unnamed (h.others id hid)

theorem filledBy_before (h : Names ids j r r') (hj : j = before ++ x :: after) (hid : id ∉ ids) :
    filledBy id before = 0 :=
  filledBy_of_unnamed fun y hy => h.others id hid y (hj ▸ List.mem_append_left _ hy)

theorem of_eq (hj : r'.journal = r.journal) (hs : r'.skipped = r.skipped) : Names ids [] r r' where
  journal_eq := by rw [hj, List.append_nil]
  skipped := fun id hid => hs ▸ hid
  others := fun _ _ _ hx => absurd hx List.not_mem_nil

/-- A stretch with the submission of one pair. -/
theorem of_pair {fill : Amount} {accepted : Bool}
    (hj : r'.journal = r.journal ++ [⟨.matchOrders long short fill, accepted⟩])
    (hs : ∀ id, id ∈ r.skipped → id ∈ r'.skipped) :
    Names ([long, short].map Order.id) [⟨.matchOrders long short fill, accepted⟩] r r' where
  journal_eq := hj
  skipped := hs
  others := by
    intro id hid x hx
    rw [List.mem_singleton.mp hx]
    apply if_neg
    rintro (rfl | rfl) <;> simp at hid

theorem mono (h : Names ids j r r') (hsub : ids ⊆ all) : Names all j r r' where
  journal_eq := h.journal_eq
  skipped := h.skipped
  others := fun id hid => h.others id fun hm => hid (hsub hm)

theorem append (h : Names ids j r r₁) (h' : Names ids' j' r₁ r') (hsub : ids ⊆ all)
    (hsub' : ids' ⊆ all) : Names all (j ++ j') r r' where
  journal_eq := by rw [h'.journal_eq, h.journal_eq, List.append_assoc]
  skipped := fun id hs => h'.skipped id (h.skipped id hs)
  others := by
    intro id hid x hx
    rcases List.mem_append.mp hx with hx | hx
    · exact h.others id (fun hm => hid (hsub hm)) x hx
    · exact h'.others id (fun hm => hid (hsub' hm)) x hx

end Names

namespace Fills
variable {fill : Amount}

theorem nonneg (h : Fills fill long short long₁ short₁) : 0 ≤ fill.toInt := by
  rw [h.eq_min]
  exact Int.le_min.mpr ⟨long.openSize_nonneg, short.openSize_nonneg⟩

theorem le_long (h : Fills fill long short long₁ short₁) : fill.toInt ≤ long.openSize := by
  rw [h.eq_min]
  exact Int.min_le_left _ _

theorem le_short (h : Fills fill long short long₁ short₁) : fill.toInt ≤ short.openSize := by
  rw [h.eq_min]
  exact Int.min_le_right _ _

theorem long_within (h : Fills fill long short long₁ short₁) (hl : long.FilledWithin .long) :
    long₁.FilledWithin .long := by
  rw [h.long_copy]
  exact (hl.fill h.nonneg h.le_long h.long_filled).1

theorem short_within (h : Fills fill long short long₁ short₁) (hs : short.FilledWithin .short) :
    short₁.FilledWithin .short := by
  rw [h.short_copy]
  exact (hs.fill h.nonneg h.le_short h.short_filled).1

end Fills

theorem agree_skipped {a : Option Agreement} (h : (agree t long short).run r = .ok a r') :
    r'.skipped = r.skipped := by
  cases agrees_of_run h with
  | apart => rfl
  | untimely => rfl
  | full => rfl
  | longLacks _ _ _ _ _ _ hrl hm => exact (RunM.count_skipped hm).trans (RunM.reserve_skipped hrl)
  | shortLacks _ _ _ _ _ _ hrl hrs hm hb =>
    rw [RunM.release_skipped hb, RunM.count_skipped hm, RunM.reserve_skipped hrs,
      RunM.reserve_skipped hrl]
  | agreed _ _ _ _ _ _ hrl hrs => exact (RunM.reserve_skipped hrs).trans (RunM.reserve_skipped hrl)

/-- Compatible orders that cross fail to agree only if one of them has nothing open. -/
theorem full_of_agree_none (h : (agree t long short).run r = .ok none r')
    (hp : ¬ long.price < short.price) (hc : Compatible long short) :
    long.openSize = 0 ∨ short.openSize = 0 := by
  obtain ⟨htime, hlong, hshort⟩ := hc
  cases agrees_of_run h with
  | apart hp' => exact absurd hp' hp
  | untimely _ hc => exact absurd htime hc
  | full _ _ hl hs hf =>
    have hf := Amount.minAbs_eq_ok hf
    rw [Order.natAbs_eq_openSize hl, Order.natAbs_eq_openSize hs, Amount.toInt_zero] at hf
    omega
  | longLacks _ _ _ _ _ _ hrl => cases RunM.reserve_exempt hlong hrl
  | shortLacks _ _ _ _ _ _ _ hrs => cases RunM.reserve_exempt hshort hrs

namespace Trades

theorem passed_skipped (h : Trades t long short r .passed r₁) : r₁.skipped = r.skipped := by
  cases h with
  | passed h => exact agree_skipped h

theorem filled_skipped (h : Trades t long short r (.filled long₁ short₁) r₁) :
    r₁.skipped = r.skipped := by
  cases h with
  | filled h ht _ _ hc =>
    rw [RunM.count_skipped hc]
    exact (RunM.submit_skipped ht).trans (agree_skipped h)

theorem refused_skipped (h : Trades t long short r .refused r₁) :
    r₁.skipped = (r.skipped.insert long.id).insert short.id := by
  cases h with
  | refused h ht hc hrl hrs hkl hks =>
    rw [RunM.skip_skipped hks, RunM.skip_skipped hkl, RunM.release_skipped hrs,
      RunM.release_skipped hrl, RunM.count_skipped hc, RunM.submit_skipped ht, agree_skipped h]

theorem fills (h : Trades t long short r (.filled long₁ short₁) r₁) :
    ∃ fill, r₁.journal = r.journal ++ [⟨.matchOrders long short fill, true⟩] ∧
      Fills fill long short long₁ short₁ := by
  cases h with
  | @filled a longFilled shortFilled _ _ _ _ h ht hlf hsf hc =>
  obtain ⟨-, -, -, x, y, hx, hy, hf⟩ := agree_some h
  have hf := Amount.minAbs_eq_ok hf
  rw [Order.natAbs_eq_openSize hx, Order.natAbs_eq_openSize hy] at hf
  refine ⟨a.fill, ?_, ⟨hf, rfl, rfl, ?_, ?_⟩⟩
  · rw [RunM.count_journal hc, RunM.submit_journal ht, agree_journal h]
  · rw [Amount.add_eq_ok_iff.mp hlf, Side.toInt_sign_long, Int.mul_one]
  · rw [Amount.sub_eq_ok_iff.mp hsf, Side.toInt_sign_short]
    omega

/-- A pair that is passed over stays as it was. If it is compatible, one of its orders has nothing
open. -/
theorem of_passed (h : Trades t long short r .passed r₁) (hl : long.SizedFor .long)
    (hs : short.SizedFor .short) (hp : ¬ long.price < short.price) :
    Walks long long [short] [short] [] r r₁ ∧
      (Compatible long short → long.openSize = 0 ∨ short.openSize = 0) := by
  have hskipped := h.passed_skipped
  cases h with
  | passed h =>
  refine ⟨?_, full_of_agree_none h hp⟩
  exact ⟨.of_eq (agree_journal h) hskipped, .of_untouched hl rfl,
    .cons (.of_untouched hs rfl) .nil⟩

/-- A pair that trades uses up one of its orders. -/
theorem of_filled (h : Trades t long short r (.filled long₁ short₁) r₁) (hl : long.SizedFor .long)
    (hs : short.SizedFor .short) :
    ∃ fill, Walks long long₁ [short] [short₁] [⟨.matchOrders long short fill, true⟩] r r₁ ∧
      (long₁.openSize = 0 ∨ short₁.openSize = 0) := by
  obtain ⟨fill, hj, hf⟩ := h.fills
  have hleast := hf.eq_min
  obtain ⟨hlsized, hlopen⟩ := hl.fill hf.nonneg hf.le_long hf.long_filled
  obtain ⟨hssized, hsopen⟩ := hs.fill hf.nonneg hf.le_short hf.short_filled
  rw [← hf.long_copy] at hlsized hlopen
  rw [← hf.short_copy] at hssized hsopen
  refine ⟨fill, ⟨.of_pair hj fun id hid => h.filled_skipped ▸ hid, ⟨hf.long_copy, hlsized, ?_⟩,
    .cons ⟨hf.short_copy, hssized, ?_⟩ .nil⟩, ?_⟩
  · simp [hlopen, filledBy, Submission.fillOf]
  · simp [hsopen, filledBy, Submission.fillOf]
  · rw [hlopen, hsopen]
    omega

/-- A pair that is refused stays as it was and sits out. -/
theorem of_refused (h : Trades t long short r .refused r₁) (hl : long.SizedFor .long)
    (hs : ∀ o ∈ short :: rest, o.SizedFor .short) :
    ∃ fill, Walks long long (short :: rest) (short :: rest)
      [⟨.matchOrders long short fill, false⟩] r r₁ ∧ long.id ∈ r₁.skipped := by
  have hskipped := h.refused_skipped
  obtain ⟨a, _, -, hj⟩ := h.refused_journal
  have hgrows : ∀ id, id ∈ r.skipped → id ∈ r₁.skipped := by
    intro id hid
    rw [hskipped, Std.ExtTreeSet.mem_insert, Std.ExtTreeSet.mem_insert]
    exact .inr (.inr hid)
  have h0 (id : Hash) : filledBy id [⟨.matchOrders long short a.fill, false⟩] = 0 := by
    simp [filledBy]
  refine ⟨a.fill, ⟨(Names.of_pair hj hgrows).mono (List.Sublist.subset (by simp)),
    .of_untouched hl (h0 _), ?_⟩, ?_⟩
  · rw [List.forall₂_same]
    exact fun o ho => .of_untouched (hs o ho) (h0 _)
  · rw [hskipped]
    exact Std.ExtTreeSet.mem_insert.mpr (.inr Std.ExtTreeSet.mem_insert_self)

end Trades

namespace Walks

theorem refl (hl : long.SizedFor .long) (hs : ∀ o ∈ shorts, o.SizedFor .short) (r : RunState σ) :
    Walks long long shorts shorts [] r r where
  toNames := .of_eq rfl rfl
  long := .of_untouched hl rfl
  shorts := by
    rw [List.forall₂_same]
    exact fun o ho => .of_untouched (hs o ho) rfl

theorem distinctIds (h : Walks long long₁ [short] [short₁] j r r₁)
    (hid : DistinctIds (long :: short :: rest)) : DistinctIds (long₁ :: rest) := by
  obtain ⟨hlong, hid⟩ := List.pairwise_cons.mp hid
  refine List.pairwise_cons.mpr ⟨fun o ho => ?_, (List.pairwise_cons.mp hid).2⟩
  rw [h.long.id_eq]
  exact hlong o (List.mem_cons_of_mem _ ho)

/-- The first short, and then the rest. -/
theorem cons (h : Walks long long₁ [short] [short₁] j r r₁)
    (h' : Walks long₁ long' rest rest' j' r₁ r') (hid : DistinctIds (long :: short :: rest)) :
    Walks long long' (short :: rest) (short₁ :: rest') (j ++ j') r r' := by
  have hnames := h'.toNames
  rw [List.map_cons, h.long.id_eq, ← List.map_cons] at hnames
  refine ⟨h.toNames.append hnames ?_ ?_, h.long.append h'.long, .cons ?_ ?_⟩
  · simp
  · simp
  · refine (List.forall₂_cons.mp h.shorts).1.of_filledBy_eq ?_
    rw [filledBy_append, hnames.filledBy_eq_zero hid.short_not_mem, Int.add_zero]
  · have hrest : ∀ o ∈ rest, filledBy o.id j = 0 := fun o ho =>
      h.filledBy_eq_zero (hid.rest_not_mem ho)
    refine ((List.forall₂_and_left _ _).mpr ⟨hrest, h'.shorts⟩).imp ?_
    rintro o w ⟨h0, hw⟩
    exact hw.of_filledBy_eq (by rw [filledBy_append, h0, Int.zero_add])

theorem sized (h : Walks long long' shorts shorts' j r r') : ∀ w ∈ shorts', w.SizedFor .short := by
  intro w hw
  obtain ⟨o, -, how⟩ := exists_of_forall₂ h.shorts hw
  exact how.sized

theorem sorted (h : Walks long long' shorts shorts' j r r')
    (hs : shorts.Pairwise fun o p => o.price ≤ p.price) :
    shorts'.Pairwise fun o p => o.price ≤ p.price :=
  pairwise_of_forall₂ h.shorts hs fun ho hp hle => by rwa [ho.price_eq, hp.price_eq]

theorem map_id (h : Walks long long' shorts shorts' j r r') :
    shorts'.map Order.id = shorts.map Order.id := by
  have hshorts := h.shorts
  clear h
  induction hshorts with
  | nil => rfl
  | cons hw _ ih => rw [List.map_cons, List.map_cons, hw.id_eq, ih]

/-- Working copies keep their ids, so those that are kept have some of the ids there were. -/
theorem kept_ids (h : Walks long long' shorts shorts' j r r') (hsub : kept.Sublist shorts')
    (longs : List Order) :
    ((longs ++ kept).map Order.id).Sublist ((longs ++ shorts).map Order.id) := by
  rw [List.map_append, List.map_append, ← h.map_id]
  exact (List.Sublist.refl _).append (hsub.map _)

/-- A short that is used up is not among the orders that later longs and the kept shorts make up. -/
theorem used_up_not_mem (h : Walks long long' shorts shorts' j r r')
    (hid : DistinctIds ((long :: longs) ++ shorts)) (ho : o ∈ shorts)
    (hop : o.Becomes .short j p) (hp : p ∈ shorts') (hused : p.openSize = 0) :
    o.id ∉ (longs ++ shorts'.filter fun w => w.openSize ≠ 0).map Order.id := by
  obtain ⟨-, hshorts, hfar⟩ := List.pairwise_append.mp hid
  apply not_mem_ids
  intro w hw he
  rcases List.mem_append.mp hw with hw | hw
  · exact hfar w (List.mem_cons_of_mem _ hw) o ho he
  · have hids : DistinctIds shorts' := pairwise_of_forall₂ h.shorts hshorts
      fun hv hv' hne => by rwa [hv.id_eq, hv'.id_eq]
    obtain ⟨hw, hopen⟩ := List.mem_filter.mp hw
    have hsame := hids.eq_of_id hw hp (he.trans hop.id_eq.symm)
    exact of_decide_eq_true hopen (hsame ▸ hused)

end Walks

/-- A long with nothing open takes no turn. -/
theorem CrossesLong.of_full (h : CrossesLong t long shorts r long' shorts' r')
    (h0 : long.openSize = 0) : long' = long ∧ shorts' = shorts ∧ r' = r := by
  cases h with
  | nil => exact ⟨rfl, rfl, rfl⟩
  | full => exact ⟨rfl, rfl, rfl⟩
  | beyond => exact ⟨rfl, rfl, rfl⟩
  | skipped hu hne => exact absurd ((Order.openSize_eq_zero hu).mp h0) hne
  | passed hu hne => exact absurd ((Order.openSize_eq_zero hu).mp h0) hne
  | filled hu hne => exact absurd ((Order.openSize_eq_zero hu).mp h0) hne
  | refused hu hne => exact absurd ((Order.openSize_eq_zero hu).mp h0) hne

/-- The turns of a long fill no short beyond its size. -/
theorem CrossesLong.shorts_within (h : CrossesLong t long shorts r long' shorts' r')
    (hs : ∀ o ∈ shorts, o.FilledWithin .short) : ∀ o ∈ shorts', o.FilledWithin .short := by
  induction h with
  | nil | full | beyond | refused => exact hs
  | skipped _ _ _ _ _ ih | passed _ _ _ _ _ _ ih =>
    obtain ⟨hshort, hrest⟩ := List.forall_mem_cons.mp hs
    exact List.forall_mem_cons.mpr ⟨hshort, ih hrest⟩
  | filled _ _ _ _ ht _ ih =>
    obtain ⟨hshort, hrest⟩ := List.forall_mem_cons.mp hs
    obtain ⟨fill, -, hfills⟩ := ht.fills
    exact List.forall_mem_cons.mpr ⟨hfills.short_within hshort, ih hrest⟩

/-- Orders whose open sizes are amounts are sorted out by them. -/
theorem openOrders_of_unfilled (hu : ∀ o ∈ orders, ∃ a, o.unfilled = .ok a) :
    openOrders orders = .ok (orders.filter fun o => o.openSize ≠ 0) := by
  have hyields : ∀ o ∈ orders, Checked.Yields
      (do return decide ((← o.unfilled) ≠ 0) : Checked Bool) fun _ => True := by
    intro o ho
    obtain ⟨a, ha⟩ := hu o ho
    exact ⟨_, by rw [ha]; rfl, trivial⟩
  obtain ⟨kept, hkept, -⟩ := Checked.yields_filterM hyields
  have hfilter : kept = orders.filter fun o => o.openSize ≠ 0 := by
    rw [Checked.filterM_eq_ok hkept]
    refine List.filter_congr fun o ho => ?_
    obtain ⟨a, ha⟩ := hu o ho
    rw [ha, decide_eq_decide.mpr (not_congr (Order.openSize_eq_zero ha))]
    rfl
  rw [← hfilter]
  exact hkept

/-- The open ones of orders that are filled within their sizes. -/
theorem openOrders_of_within (hs : ∀ o ∈ orders, o.FilledWithin side) :
    openOrders orders = .ok (orders.filter fun o => o.openSize ≠ 0) :=
  openOrders_of_unfilled fun o ho => (hs o ho).exists_unfilled

namespace Prunes

theorem refl : (orders : List Order) → Prunes orders orders
  | [] => .nil
  | o :: orders => .keep o (refl orders)

theorem sublist (h : Prunes orders kept) : kept.Sublist orders := by
  induction h with
  | nil => exact .slnil
  | keep o _ ih => exact ih.cons_cons o
  | drop _ _ ih => exact ih.cons _

theorem trans {kept' : List Order} (h : Prunes orders kept) (h' : Prunes kept kept') :
    Prunes orders kept' := by
  induction h generalizing kept' with
  | nil => exact h'
  | drop h0 _ ih => exact .drop h0 (ih h')
  | keep o _ ih =>
    cases h' with
    | keep _ h' => exact .keep o (ih h')
    | drop h0 h' => exact .drop h0 (ih h')

theorem filter (h : Prunes orders kept) :
    Prunes orders (kept.filter fun o => o.openSize ≠ 0) := by
  induction h with
  | nil => exact .nil
  | keep o h ih =>
    rw [List.filter_cons]
    split
    next => exact .keep o ih
    next h0 => exact .drop (by simpa using h0) ih
  | drop h0 _ ih => exact .drop h0 ih

/-- What is open is kept. -/
theorem filter_eq (h : Prunes orders kept) :
    (kept.filter fun o => o.openSize ≠ 0) = orders.filter fun o => o.openSize ≠ 0 := by
  induction h with
  | nil => rfl
  | keep o _ ih => rw [List.filter_cons, List.filter_cons, ih]
  | drop h0 _ ih => simpa [h0] using ih

/-- An order that is not used up is kept. -/
theorem mem (h : Prunes orders kept) {o : Order} (ho : o ∈ orders) (h0 : o.openSize ≠ 0) :
    o ∈ kept := by
  have hopen : o ∈ orders.filter fun o => o.openSize ≠ 0 :=
    List.mem_filter.mpr ⟨ho, decide_eq_true h0⟩
  rw [← h.filter_eq] at hopen
  exact (List.mem_filter.mp hopen).1

end Prunes

theorem openOrders_eq_ok (h : openOrders orders = .ok kept)
    (hs : ∀ o ∈ orders, o.SizedFor side) : kept = orders.filter fun o => o.openSize ≠ 0 :=
  Except.ok.inj (h.symm.trans (openOrders_of_within fun o ho => (hs o ho).within))

end
end PerpExchange
