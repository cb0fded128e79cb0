import PerpExchange.Proofs.Acceptance
import PerpExchange.Proofs.Ranges
import PerpExchange.Proofs.WorkingBooks

/-! Which orders may trade, said of the orders of the store alone: the walk along one side of a
book, which ends at the bound, finds exactly these, in order of priority. -/
namespace PerpExchange
open Checked
open BookEntry (Before ofOrder)

/-- A status lets an order trade if it is placed, or if execution failed and at least ten blocks
have passed to a block that is known. -/
def Lifecycle.Permits (l : Lifecycle) (block : Option BlockNumber) : Prop :=
  l.status = .placed ∨
    l.status = .executionFailed ∧ ∃ b, block = some b ∧ l.block.toNat + 10 ≤ b.toNat

/-- A copy of an order that is cut down to a position: no less is filled, and what is left goes the
same way and is as much as was left, or as there is of the position if that is less. -/
structure Order.CutTo (o : Order) (position : Amount) (w : Order) : Prop where
  copy : w = { o with filled := w.filled }
  filled_le : o.filled.toInt.natAbs ≤ w.filled.toInt.natAbs
  sign_eq : (w.size.toInt - w.filled.toInt).sign = (o.size.toInt - o.filled.toInt).sign
  natAbs_eq : (w.size.toInt - w.filled.toInt).natAbs =
    min (o.size.toInt - o.filled.toInt).natAbs position.toInt.natAbs

/-- A walk that picks from some items answers exactly if it does so at each of them. -/
theorem Checked.filterMapM_answers_iff {α β : Type} {f : α → Checked (Option β)} {xs : List α} :
    (∃ ys, xs.filterMapM f = .ok ys) ↔ ∀ x ∈ xs, ∃ y, f x = .ok y := by
  constructor
  · intro h
    induction xs with
    | nil => exact fun x hx => absurd hx List.not_mem_nil
    | cons x xs ih =>
      rcases h with ⟨ys, h⟩
      rw [List.filterMapM_cons] at h
      obtain ⟨y, hy, h⟩ := bind_eq_ok.mp h
      refine List.forall_mem_cons.mpr ⟨⟨y, hy⟩, ih ?_⟩
      cases y with
      | none => exact ⟨ys, h⟩
      | some y =>
        obtain ⟨rest, hrest, -⟩ := bind_eq_ok.mp h
        exact ⟨rest, hrest⟩
  · intro h
    obtain ⟨ys, hys, -⟩ := yields_filterMapM (Q := fun _ => True) fun x hx => by
      obtain ⟨y, hy⟩ := h x hx
      exact ⟨y, hy, fun _ _ => trivial⟩
    exact ⟨ys, hys⟩

namespace Store

/-- The stored orders a query asks for: of a market and a side, at prices within the bound. -/
structure Asked (s : Store) (m : MarketId) (side : Side) (bound : Option Amount) (o : Order) :
    Prop where
  stored : s.orders[o.id]? = some o
  market_eq : o.market = m
  side_eq : o.side = side
  lower_le : ∀ lower, side = .long → bound = some lower → lower ≤ o.price
  le_upper : ∀ upper, side = .short → bound = some upper → o.price ≤ upper

/-- An order may trade if its current status permits it, it has not expired, and there is a position
to reduce if it only reduces. -/
structure MayTrade (s : Store) (block : Option BlockNumber) (now : Timestamp) (o : Order) :
    Prop where
  status : ∃ l, o.status? = some l ∧ l.Permits block
  alive : o.isExpired now = false
  reduces : o.reduceOnly = true → s.positionSize o.trader o.market ≠ 0 ∧
    (s.positionSize o.trader o.market).toInt.sign ≠ o.size.toInt.sign

/-- The order itself, or the copy that is cut down to the position it reduces. -/
structure Copies (s : Store) (o w : Order) : Prop where
  whole : o.reduceOnly = false → w = o
  cut : o.reduceOnly = true → o.CutTo (s.positionSize o.trader o.market) w

/-- Nothing leaves the range when an order is looked at: neither the block at which a failed order
comes back, nor the magnitudes that decide how far an order is cut down. -/
structure Countable (s : Store) (block : Option BlockNumber) (now : Timestamp) (o : Order) :
    Prop where
  retry : ∀ l, o.status? = some l → l.status = .executionFailed → block ≠ none →
    l.block.toNat + 10 < UInt64.size
  magnitudes : o.reduceOnly = true → s.MayTrade block now o →
    o.size.toInt - o.filled.toInt ≠ Amount.least.toInt ∧
      s.positionSize o.trader o.market ≠ Amount.least

end Store

namespace Order
variable {o w w' : Order} {size : Amount}

/-- There is only one way to cut an order down. -/
theorem CutTo.unique (h : o.CutTo size w) (h' : o.CutTo size w') : w = w' := by
  have hsize : w.size = w'.size := by rw [h.copy, h'.copy]
  have hleft : w.size.toInt - w.filled.toInt = w'.size.toInt - w'.filled.toInt := by
    rw [← Int.sign_mul_natAbs (w.size.toInt - w.filled.toInt), h.sign_eq, h.natAbs_eq,
      ← h'.sign_eq, ← h'.natAbs_eq, Int.sign_mul_natAbs]
  have hfilled : w.filled = w'.filled := by
    rw [hsize] at hleft
    apply Amount.ext_toInt
    omega
  rw [h.copy, h'.copy, hfilled]

/-- What is left of an order that is cut down is between nothing and what was left. -/
theorem CutTo.between (h : o.CutTo size w) :
    (0 ≤ o.size.toInt - o.filled.toInt → 0 ≤ w.size.toInt - w.filled.toInt ∧
        w.size.toInt - w.filled.toInt ≤ o.size.toInt - o.filled.toInt) ∧
      (o.size.toInt - o.filled.toInt ≤ 0 → w.size.toInt - w.filled.toInt ≤ 0 ∧
        o.size.toInt - o.filled.toInt ≤ w.size.toInt - w.filled.toInt) := by
  have hleft := Int.sign_mul_natAbs (w.size.toInt - w.filled.toInt)
  rw [h.sign_eq, h.natAbs_eq] at hleft
  rcases Int.lt_trichotomy (o.size.toInt - o.filled.toInt) 0 with hx | hx | hx
  · rw [Int.sign_eq_neg_one_of_neg hx] at hleft
    omega
  · rw [hx, Int.sign_zero] at hleft
    omega
  · rw [Int.sign_eq_one_of_pos hx] at hleft
    omega

end Order

namespace Store
variable {s : Store} {o w : Order} {size : Amount} {block : Option BlockNumber} {now : Timestamp}

theorem statusPermits_eq_ok {l : Lifecycle} {permits : Bool}
    (h : statusPermits l block = .ok permits) :
    (l.status = .executionFailed → block ≠ none → l.block.toNat + 10 < UInt64.size) ∧
      (permits = true ↔ l.Permits block) := by
  unfold statusPermits at h
  cases hs : l.status with
  | executionFailed =>
    cases block with
    | none =>
      rw [hs] at h
      cases h
      simp [Lifecycle.Permits, hs]
    | some b =>
      rw [hs] at h
      obtain ⟨back, hback, h⟩ := bind_eq_ok.mp h
      cases h
      unfold BlockNumber.later at hback
      split at hback
      next hroom =>
        cases hback
        have hsum : (l.block + retryAfterBlocks).toNat = l.block.toNat + 10 := by
          rw [UInt64.toNat_add]
          exact Nat.mod_eq_of_lt hroom
        refine ⟨fun _ _ => hroom, ?_⟩
        simp [Lifecycle.Permits, hs, UInt64.le_iff_toNat_le, hsum]
      next => cases hback
  | _ =>
    rw [hs] at h
    cases h
    simp [Lifecycle.Permits, hs]

/-- An order has one copy that may trade. -/
theorem Copies.unique {w' : Order} (h : s.Copies o w) (h' : s.Copies o w') : w = w' := by
  cases hr : o.reduceOnly with
  | false => rw [h.whole hr, h'.whole hr]
  | true => exact (h.cut hr).unique (h'.cut hr)

theorem Copies.copy (h : s.Copies o w) : w = { o with filled := w.filled } := by
  by_cases hr : o.reduceOnly = true
  · exact (h.cut hr).copy
  · obtain rfl := h.whole (Bool.eq_false_iff.mpr hr)
    rfl

/-- A copy stands in the same place as the order. -/
theorem Copies.ofOrder_eq (h : s.Copies o w) : ofOrder w = ofOrder o := by
  rw [h.copy]
  rfl

/-- What is cut down by the rules of the book is cut down to the position. -/
theorem Clips.cutTo (h : Clips o size w) (ho : o.InBounds) : o.CutTo size w := by
  have hcopy := h.copy
  have hleft : ∀ {unfilled : Amount}, o.unfilled = .ok unfilled →
      unfilled.toInt = o.size.toInt - o.filled.toInt := Amount.sub_eq_ok_iff.mp
  cases h with
  | @cut unfilled openSize held signed filled h0 hs hu ha hh hlt hm hf =>
    have hunfilled := hleft hu
    have hopen := Amount.abs_eq_ok.mp ha
    have hheld := Amount.abs_eq_ok.mp hh
    have hsigned := Amount.mul_eq_ok_iff.mp hm
    have hfilled := Amount.sub_eq_ok_iff.mp hf
    have hpos : size.toInt ≠ 0 := fun hz => h0 (Amount.ext_toInt hz)
    rw [Amount.lt_iff] at hlt
    rcases Order.inBounds_iff.mp ho with ⟨hl, hz, hle⟩ | ⟨hl, hneg, hz, hle⟩ <;>
      simp only [hl, Side.toInt_sign_long, Side.toInt_sign_short] at hsigned
    · refine ⟨hcopy, by simp only; omega, ?_, by simp only; omega⟩
      rw [Int.sign_eq_one_of_pos (by simp only; omega), Int.sign_eq_one_of_pos (by omega)]
    · refine ⟨hcopy, by simp only; omega, ?_, by simp only; omega⟩
      rw [Int.sign_eq_neg_one_of_neg (by simp only; omega), Int.sign_eq_neg_one_of_neg (by omega)]
  | @whole unfilled openSize held h0 hs hu ha hh hle =>
    have hunfilled := hleft hu
    have hopen := Amount.abs_eq_ok.mp ha
    have hheld := Amount.abs_eq_ok.mp hh
    rw [Amount.lt_iff] at hle
    exact ⟨hcopy, Nat.le_refl _, rfl, by omega⟩

theorem Clips.magnitudes (h : Clips o size w) :
    o.size.toInt - o.filled.toInt ≠ Amount.least.toInt ∧ size ≠ Amount.least := by
  have hmagnitude : ∀ {a b : Amount}, a.abs = .ok b → a ≠ Amount.least := by
    rintro a b hab rfl
    cases hab
  have hboth : ∀ {unfilled openSize held : Amount}, o.unfilled = .ok unfilled →
      unfilled.abs = .ok openSize → size.abs = .ok held →
        o.size.toInt - o.filled.toInt ≠ Amount.least.toInt ∧ size ≠ Amount.least := by
    intro unfilled openSize held hu ha hh
    rw [← Amount.sub_eq_ok_iff.mp hu]
    exact ⟨fun hl => hmagnitude ha (Amount.ext_toInt hl), hmagnitude hh⟩
  cases h with
  | cut _ _ hu ha hh => exact hboth hu ha hh
  | whole _ _ hu ha hh => exact hboth hu ha hh

/-- Nothing is left to reduce of no position, or of one that the order would add to. -/
theorem clipToPosition_eq_none (h : clipToPosition o size = .ok none) :
    ¬(size ≠ 0 ∧ size.toInt.sign ≠ o.size.toInt.sign) := by
  unfold clipToPosition at h
  split at h
  next hfaces =>
    rw [Amount.eq_iff (a := size.signum), Amount.toInt_signum, Amount.toInt_signum] at hfaces
    exact fun hne => hfaces.elim hne.1 hne.2
  next =>
    obtain ⟨unfilled, -, h⟩ := bind_eq_ok.mp h
    obtain ⟨openSize, -, h⟩ := bind_eq_ok.mp h
    obtain ⟨held, -, h⟩ := bind_eq_ok.mp h
    split at h
    · obtain ⟨signed, -, h⟩ := bind_eq_ok.mp h
      obtain ⟨filled, -, h⟩ := bind_eq_ok.mp h
      cases h
    · cases h

theorem Clips.faces_sign (h : Clips o size w) : size ≠ 0 ∧ size.toInt.sign ≠ o.size.toInt.sign := by
  obtain ⟨h0, hs⟩ := h.faces
  rw [Ne, Amount.eq_iff, Amount.toInt_signum, Amount.toInt_signum] at hs
  exact ⟨h0, hs⟩

/-- What looking at an order comes to, if it comes to anything. -/
inductive Looked (s : Store) (block : Option BlockNumber) (now : Timestamp) (o : Order) :
    Option Order → Prop
  | bare (hl : o.status? = none) : Looked s block now o none
  | refused {l : Lifecycle} (hl : o.status? = some l) (hp : statusPermits l block = .ok false) :
    Looked s block now o none
  | expired {l : Lifecycle} (hl : o.status? = some l) (hp : statusPermits l block = .ok true)
    (he : o.isExpired now = true) : Looked s block now o none
  | clipped {l : Lifecycle} {found : Option Order} (hl : o.status? = some l)
    (hp : statusPermits l block = .ok true) (he : o.isExpired now = false)
    (hr : o.reduceOnly = true)
    (hc : clipToPosition o (s.positionSize o.trader o.market) = .ok found) :
    Looked s block now o found
  | whole {l : Lifecycle} (hl : o.status? = some l) (hp : statusPermits l block = .ok true)
    (he : o.isExpired now = false) (hr : o.reduceOnly = false) : Looked s block now o (some o)

theorem looked_of_ok {found : Option Order} (h : s.tradeable o block now = .ok found) :
    Looked s block now o found := by
  unfold tradeable at h
  cases hl : o.status? with
  | none =>
    rw [hl] at h
    cases h
    exact .bare hl
  | some l =>
    rw [hl] at h
    obtain ⟨permits, hp, h⟩ := bind_eq_ok.mp h
    cases permits with
    | false =>
      cases h
      exact .refused hl hp
    | true =>
      cases he : o.isExpired now with
      | true =>
        rw [he] at h
        cases h
        exact .expired hl hp he
      | false =>
        rw [he] at h
        cases hr : o.reduceOnly with
        | true =>
          rw [hr] at h
          exact .clipped hl hp he hr h
        | false =>
          rw [hr] at h
          cases h
          exact .whole hl hp he hr

theorem permits_iff {l : Lifecycle} {permits : Bool} (hl : o.status? = some l)
    (hp : statusPermits l block = .ok permits) :
    (∃ l, o.status? = some l ∧ l.Permits block) ↔ permits = true := by
  rw [(statusPermits_eq_ok hp).2, hl]
  constructor
  · rintro ⟨l', ⟨⟩, hpermits⟩
    exact hpermits
  · exact fun hpermits => ⟨l, rfl, hpermits⟩

theorem Looked.retry {found : Option Order} (h : Looked s block now o found) :
    ∀ l, o.status? = some l → l.status = .executionFailed → block ≠ none →
      l.block.toNat + 10 < UInt64.size := by
  have hroom : ∀ {l : Lifecycle} {permits : Bool}, o.status? = some l →
      statusPermits l block = .ok permits → ∀ l', o.status? = some l' →
        l'.status = .executionFailed → block ≠ none → l'.block.toNat + 10 < UInt64.size := by
    intro l permits hl hp l' hl'
    rw [hl] at hl'
    cases hl'
    exact (statusPermits_eq_ok hp).1
  cases h with
  | bare hl =>
    intro l hl'
    rw [hl] at hl'
    cases hl'
  | refused hl hp => exact hroom hl hp
  | expired hl hp => exact hroom hl hp
  | clipped hl hp => exact hroom hl hp
  | whole hl hp => exact hroom hl hp

theorem Looked.not_mayTrade (h : Looked s block now o none) : ¬ s.MayTrade block now o := by
  intro hmay
  cases h with
  | bare hl =>
    obtain ⟨l, hl', -⟩ := hmay.status
    rw [hl] at hl'
    cases hl'
  | refused hl hp => exact absurd ((permits_iff hl hp).mp hmay.status) (by simp)
  | expired hl hp he => exact absurd hmay.alive (by simp [he])
  | clipped hl hp he hr hc => exact clipToPosition_eq_none hc (hmay.reduces hr)

theorem Looked.mayTrade (h : Looked s block now o (some w)) (ho : o.InBounds) :
    s.MayTrade block now o ∧ s.Copies o w := by
  cases h with
  | clipped hl hp he hr hc =>
    have hclips := clips_of_ok hc
    exact ⟨⟨(permits_iff hl hp).mpr rfl, he, fun _ => hclips.faces_sign⟩,
      fun hf => absurd hf (by simp [hr]), fun _ => hclips.cutTo ho⟩
  | whole hl hp he hr =>
    exact ⟨⟨(permits_iff hl hp).mpr rfl, he, fun hr' => absurd hr' (by simp [hr])⟩,
      fun _ => rfl, fun hr' => absurd hr' (by simp [hr])⟩

theorem Looked.countable {found : Option Order} (h : Looked s block now o found) :
    s.Countable block now o where
  retry := h.retry
  magnitudes hr hmay := by
    cases found with
    | none => exact absurd hmay h.not_mayTrade
    | some w =>
      cases h with
      | clipped hl hp he hr hc => exact (clips_of_ok hc).magnitudes
      | whole hl hp he hr' => exact absurd hr (by simp [hr'])

/-- An order is cut down where the magnitudes that decide on it exist. -/
theorem yields_clipToPosition (ho : o.InBounds)
    (hopen : o.size.toInt - o.filled.toInt ≠ Amount.least.toInt) (hsize : size ≠ Amount.least) :
    Yields (clipToPosition o size) fun _ => True := by
  unfold clipToPosition
  split
  · exact yields_ok trivial
  apply ho.yields_unfilled.bind
  intro unfilled hunfilled
  have hne : unfilled ≠ Amount.least := by
    rintro rfl
    exact hopen hunfilled.symm
  apply (Amount.yields_abs hne).bind
  intro openSize hopenSize
  apply (Amount.yields_abs hsize).bind
  intro held hheld
  split
  next hlt =>
    rw [Amount.lt_iff] at hlt
    have hlow := o.size.lower
    have hhigh := o.size.upper
    have hfits : Amount.Fits (held.toInt * o.side.sign.toInt) ∧
        Amount.Fits (o.size.toInt - held.toInt * o.side.sign.toInt) := by
      rcases Order.inBounds_iff.mp ho with ⟨hs, h0, hle⟩ | ⟨hs, hz, h0, hle⟩ <;>
        simp only [hs, Side.toInt_sign_long, Side.toInt_sign_short] <;>
        exact ⟨⟨by omega, by omega⟩, ⟨by omega, by omega⟩⟩
    apply (Amount.yields_mul hfits.1).bind
    intro signed hsigned
    apply (Amount.yields_sub (by rw [hsigned]; exact hfits.2)).bind
    intro filled _
    exact yields_ok trivial
  next => exact yields_ok trivial

theorem yields_statusPermits {l : Lifecycle}
    (h : l.status = .executionFailed → block ≠ none → l.block.toNat + 10 < UInt64.size) :
    Yields (statusPermits l block) fun permits => permits = true → l.Permits block := by
  have hyields : Yields (statusPermits l block) fun _ => True := by
    unfold statusPermits
    split
    next => exact yields_ok trivial
    next => exact yields_ok trivial
    next => exact yields_ok trivial
    next hs =>
      split
      next => exact yields_ok trivial
      next b =>
        have hroom : l.block.toNat + retryAfterBlocks.toNat < UInt64.size := h hs (by simp)
        rw [BlockNumber.later, if_pos hroom]
        exact yields_ok trivial
  rcases hyields with ⟨permits, hp, -⟩
  exact ⟨permits, hp, (statusPermits_eq_ok hp).2.mp⟩

theorem yields_tradeable_of_countable (ho : o.InBounds) (h : s.Countable block now o) :
    Yields (s.tradeable o block now) fun _ => True := by
  unfold tradeable
  split
  next => exact yields_ok trivial
  next l hl =>
    apply (yields_statusPermits (h.retry l hl)).bind
    intro permits hp
    split
    · exact yields_ok trivial
    next hyes =>
      split
      · exact yields_ok trivial
      next halive =>
        split
        next hr =>
          by_cases hfaces : s.positionSize o.trader o.market ≠ 0 ∧
              (s.positionSize o.trader o.market).toInt.sign ≠ o.size.toInt.sign
          · have hmay : s.MayTrade block now o :=
              ⟨⟨l, hl, hp (by simpa using hyes)⟩, Bool.eq_false_iff.mpr halive, fun _ => hfaces⟩
            obtain ⟨hopen, hsize⟩ := h.magnitudes hr hmay
            exact yields_clipToPosition ho hopen hsize
          · unfold clipToPosition
            rw [if_pos]
            · exact yields_ok trivial
            · rw [Amount.eq_iff (a := Amount.signum _), Amount.toInt_signum, Amount.toInt_signum]
              tauto
        next => exact yields_ok trivial

/-- An order is looked at without leaving the range exactly if it is countable. -/
theorem tradeable_answers_iff (ho : o.InBounds) :
    (∃ found, s.tradeable o block now = .ok found) ↔ s.Countable block now o := by
  constructor
  · rintro ⟨found, h⟩
    exact (looked_of_ok h).countable
  · intro h
    obtain ⟨found, hfound, -⟩ := yields_tradeable_of_countable ho h
    exact ⟨found, hfound⟩

theorem tradeable_eq_some_iff (ho : o.InBounds) {found : Option Order}
    (h : s.tradeable o block now = .ok found) :
    found = some w ↔ s.MayTrade block now o ∧ s.Copies o w := by
  have hlooked := looked_of_ok h
  cases found with
  | none => exact ⟨fun hw => (by cases hw), fun hmay => absurd hmay.1 hlooked.not_mayTrade⟩
  | some w' =>
    obtain ⟨hmay, hcopies⟩ := hlooked.mayTrade ho
    constructor
    · rintro ⟨⟩
      exact ⟨hmay, hcopies⟩
    · rintro ⟨-, hcopies'⟩
      rw [hcopies.unique hcopies']

variable {m : MarketId} {side : Side} {bound : Option Amount} {orders : List Order}

/-- What trades before a price within the bound is within the bound. -/
theorem within_of_before {e e' : BookEntry} (h : Before side e e')
    (he' : (!beyond side bound e'.price) = true) : (!beyond side bound e.price) = true := by
  cases bound with
  | none => cases side <;> rfl
  | some b =>
    cases side with
    | long =>
      have hle := h.price_le
      simp only [beyond, Bool.not_eq_true', decide_eq_false_iff_not, Amount.lt_iff] at he' ⊢
      rw [Amount.le_iff] at hle
      omega
    | short =>
      have hle := h.le_price
      simp only [beyond, Bool.not_eq_true', decide_eq_false_iff_not, Amount.lt_iff] at he' ⊢
      rw [Amount.le_iff] at hle
      omega

theorem not_beyond_iff {price : Amount} : (!beyond side bound price) = true ↔
    (∀ lower, side = .long → bound = some lower → lower ≤ price) ∧
      ∀ upper, side = .short → bound = some upper → price ≤ upper := by
  cases bound <;> cases side <;> simp [beyond, Amount.lt_iff, Amount.le_iff]

/-- The entries up to the bound are those of the orders that are asked for. -/
theorem Indexed.mem_takeWhile_side (h : s.Indexed) {e : BookEntry} :
    e ∈ ((s.book m).side side).takeWhile (fun e => !beyond side bound e.price) ↔
      ∃ o, s.Asked m side bound o ∧ ofOrder o = e := by
  have hsorted : ((s.book m).side side).Pairwise (Before side) := Indexes.sorted h m side
  rw [mem_takeWhile_of_pairwise (p := fun e : BookEntry => !beyond side bound e.price)
    within_of_before hsorted, not_beyond_iff]
  constructor
  · rintro ⟨he, hlower, hupper⟩
    obtain ⟨o, ho, hm, hs, rfl⟩ := Indexes.owned h he
    exact ⟨o, ⟨ho, hm, hs, hlower, hupper⟩, rfl⟩
  · rintro ⟨o, ⟨ho, rfl, rfl, hlower, hupper⟩, rfl⟩
    exact ⟨Indexes.listed h ho, hlower, hupper⟩

theorem Asked.tradeableEntry_eq (h : s.Asked m side bound o) :
    s.tradeableEntry block now (ofOrder o) = s.tradeable o block now := by
  have hstored : s.orders[(ofOrder o).id]? = some o := h.stored
  rw [tradeableEntry, hstored]

/-- A query answers exactly if each order it asks for can be looked at. -/
theorem eligibleOrders_answers_iff (hi : s.Indexed) (hb : s.InBounds) :
    (∃ orders, s.eligibleOrders m side bound block now = .ok orders) ↔
      ∀ o, s.Asked m side bound o → s.Countable block now o := by
  unfold eligibleOrders
  rw [filterMapM_answers_iff]
  constructor
  · intro h o ho
    have hentry := h (ofOrder o) (hi.mem_takeWhile_side.mpr ⟨o, ho, rfl⟩)
    rw [ho.tradeableEntry_eq] at hentry
    exact (tradeable_answers_iff (hb ho.stored)).mp hentry
  · intro h e he
    obtain ⟨o, ho, rfl⟩ := hi.mem_takeWhile_side.mp he
    rw [ho.tradeableEntry_eq]
    exact (tradeable_answers_iff (hb ho.stored)).mpr (h o ho)

theorem Asked.tradeableEntry_eq_some (h : s.Asked m side bound o) (hb : s.InBounds)
    (hc : s.Countable block now o) :
    (s.tradeableEntry block now (ofOrder o)).toOption.join = some w ↔
      s.MayTrade block now o ∧ s.Copies o w := by
  obtain ⟨found, hfound⟩ := (tradeable_answers_iff (hb h.stored)).mpr hc
  rw [h.tradeableEntry_eq, hfound]
  exact tradeable_eq_some_iff (hb h.stored) hfound

theorem mem_eligibleOrders (hi : s.Indexed) (hb : s.InBounds)
    (h : s.eligibleOrders m side bound block now = .ok orders) :
    w ∈ orders ↔ ∃ o, s.Asked m side bound o ∧ s.MayTrade block now o ∧ s.Copies o w := by
  have hcount := (eligibleOrders_answers_iff hi hb).mp ⟨orders, h⟩
  rw [filterMapM_eq_ok h, List.mem_filterMap]
  constructor
  · rintro ⟨e, he, hw⟩
    obtain ⟨o, ho, rfl⟩ := hi.mem_takeWhile_side.mp he
    exact ⟨o, ho, (ho.tradeableEntry_eq_some hb (hcount o ho)).mp hw⟩
  · rintro ⟨o, ho, hw⟩
    exact ⟨ofOrder o, hi.mem_takeWhile_side.mpr ⟨o, ho, rfl⟩,
      (ho.tradeableEntry_eq_some hb (hcount o ho)).mpr hw⟩

/-- Copies keep the order of the entries they come from. -/
theorem sorted_eligibleOrders (hi : s.Indexed) (hb : s.InBounds)
    (h : s.eligibleOrders m side bound block now = .ok orders) :
    orders.Pairwise fun w w' => Before side (ofOrder w) (ofOrder w') := by
  have hcount := (eligibleOrders_answers_iff hi hb).mp ⟨orders, h⟩
  rw [filterMapM_eq_ok h]
  apply List.pairwise_filterMap.mpr
  have hentries : ((s.book m).side side).Pairwise (Before side) := Indexes.sorted hi m side
  apply (hentries.sublist (List.takeWhile_sublist _)).imp_of_mem
  intro e e' he he' hbefore w hw w' hw'
  obtain ⟨o, ho, rfl⟩ := hi.mem_takeWhile_side.mp he
  obtain ⟨o', ho', rfl⟩ := hi.mem_takeWhile_side.mp he'
  rw [((ho.tradeableEntry_eq_some hb (hcount o ho)).mp hw).2.ofOrder_eq,
    ((ho'.tradeableEntry_eq_some hb (hcount o' ho')).mp hw').2.ofOrder_eq]
  exact hbefore

/-- Two copies that were one order would be the same copy. -/
theorem distinctIds_eligibleOrders (hi : s.Indexed) (hb : s.InBounds)
    (h : s.eligibleOrders m side bound block now = .ok orders) : DistinctIds orders := by
  apply (sorted_eligibleOrders hi hb h).imp_of_mem
  intro w w' hw hw' hbefore hid
  obtain ⟨o, ho, -, hcopies⟩ := (mem_eligibleOrders hi hb h).mp hw
  obtain ⟨o', ho', -, hcopies'⟩ := (mem_eligibleOrders hi hb h).mp hw'
  have hkey : o.id = o'.id := by
    rw [hcopies.copy, hcopies'.copy] at hid
    exact hid
  have hstored := ho.stored
  rw [hkey, ho'.stored] at hstored
  obtain rfl := Option.some.inj hstored
  obtain rfl := hcopies.unique hcopies'
  exact hbefore.ne rfl

/-- The query for the orders that may trade, said of the orders of the store alone. In every store
whose books index its orders, and whose fills are in bounds, it answers exactly if nothing leaves
the range at any order of the market and the side that is within the bound. The answer then has a
copy of each of these that may trade and of no other order, each of them once, strictly in order of
priority; and the copies are the orders themselves, save that those which only reduce a position are
cut down to it. -/
theorem eligibleOrders_eq_filter (hi : s.Indexed) (hb : s.InBounds) :
    ((∃ orders, s.eligibleOrders m side bound block now = .ok orders) ↔
      ∀ o, s.Asked m side bound o → s.Countable block now o) ∧
    ∀ orders, s.eligibleOrders m side bound block now = .ok orders →
      orders.Pairwise (fun w w' => Before side (ofOrder w) (ofOrder w')) ∧
      DistinctIds orders ∧
      ∀ w, w ∈ orders ↔ ∃ o, s.Asked m side bound o ∧ s.MayTrade block now o ∧ s.Copies o w := by
  refine ⟨eligibleOrders_answers_iff hi hb, fun orders horders => ?_⟩
  have hsorted := sorted_eligibleOrders hi hb horders
  have hdistinct := distinctIds_eligibleOrders hi hb horders
  exact ⟨hsorted, hdistinct, fun w => mem_eligibleOrders hi hb horders⟩

/-- Three sales of one trader: of five units, as far as they reduce a position; one whose execution
failed in the fourth block; and one above the rest. -/
def threeSales : Store :=
  let sell (id : Hash) (size price : Int) (reduceOnly : Bool) : Order :=
    .place id (.limit { (default : LimitOrder) with
      size := .clamp size, price := .clamp price, reduceOnly }) 1
  ((empty.add (sell default (-5) 10 true)).add
    ((sell (Bytes.ofWord 32 1) (-1) 9 false).pushStatus ⟨4, .executionFailed, ""⟩)).add
      (sell (Bytes.ofWord 32 2) (-1) 30 false)

/-- The trader holds two units. -/
def sellerOfTwo : Store :=
  let two : Position := { (default : Position) with size := 2 }
  let trader : Trader :=
    { (default : Trader) with positions := (∅ : Map MarketId Position).insert 0 two }
  { threeSales with traders := (∅ : Map Address Trader).insert default trader }

theorem eligibleOrders_of_sellerOfTwo :
    sellerOfTwo.Indexed ∧ sellerOfTwo.InBounds ∧
      ∃ orders, sellerOfTwo.eligibleOrders 0 .short (some 20) (some 14) 7 = .ok orders ∧
        orders.map (fun w => (w.id, w.size.toInt, w.filled.toInt)) =
          [(Bytes.ofWord 32 1, -1, 0), (default, -5, -3)] ∧
        (∀ o, sellerOfTwo.Asked 0 .short (some 20) o → sellerOfTwo.Countable (some 14) 7 o) ∧
        ∀ w, w ∈ orders ↔ ∃ o, sellerOfTwo.Asked 0 .short (some 20) o ∧
          sellerOfTwo.MayTrade (some 14) 7 o ∧ sellerOfTwo.Copies o w := by
  have hi : threeSales.Indexed := (((Reachable.empty.add _).add _).add _).indexed
  have hpushed : ∀ {o : Order} (l : Lifecycle), o.InBounds → (o.pushStatus l).InBounds :=
    fun _ h => ⟨h.side_eq, h.fill_nonneg, h.fill_le⟩
  have hb : threeSales.InBounds := InBounds.add (InBounds.add (InBounds.add inBounds_empty
    (Order.inBounds_place _ _ _)) (hpushed _ (Order.inBounds_place _ _ _)))
      (Order.inBounds_place _ _ _)
  have hrun : (sellerOfTwo.eligibleOrders 0 .short (some 20) (some 14) 7).toOption.map
      (fun orders => orders.map fun w => (w.id, w.size.toInt, w.filled.toInt)) =
        some [(Bytes.ofWord 32 1, -1, 0), (default, -5, -3)] := by
    decide +kernel
  cases horders : sellerOfTwo.eligibleOrders 0 .short (some 20) (some 14) 7 with
  | error fault =>
    rw [horders] at hrun
    cases hrun
  | ok orders =>
    rw [horders] at hrun
    obtain ⟨hcount, hfilter⟩ := eligibleOrders_eq_filter (s := sellerOfTwo) hi hb
    obtain ⟨-, -, hmem⟩ := hfilter orders horders
    exact ⟨hi, hb, orders, rfl, Option.some.inj hrun, hcount.mp ⟨orders, horders⟩, hmem⟩

end Store
end PerpExchange
