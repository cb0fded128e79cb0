import PerpExchange.Proofs.Histories
import Mathlib.Data.List.Nodup
import Mathlib.Logic.Function.Iterate

/-! Logs of a branch that leaves the chain are taken back exactly: the orders are then as they were
before the branch. -/
namespace PerpExchange

namespace Order
variable {o : Order} {a b : Amount} {block : BlockNumber}

/-- An order is called filled only when nothing is left to fill. -/
def FilledIsFull (o : Order) : Prop := o.hasStatus .filled → o.remaining = 0

theorem popStatus_pushStatus (h : o.WellFormed) (l : Lifecycle) :
    (o.pushStatus l).popStatus = o := by
  obtain ⟨rest, hr⟩ := h.opened
  have hlen : 1 < (o.pushStatus l).lifecycle.length := by
    show 1 < (o.lifecycle ++ [l]).length
    rw [hr, List.length_append, List.length_cons, List.length_singleton]
    omega
  rw [popStatus, if_pos hlen]
  simp [pushStatus]

theorem filledIsFull_pushStatus {l : Lifecycle} (h : l.status ≠ .filled) :
    (o.pushStatus l).FilledIsFull := by
  intro hf
  simp [pushStatus, hasStatus, status?, h] at hf

theorem fillBy_eq (block : BlockNumber) (h : o.InBounds)
    (hlow : -(o.filled.toInt * o.side.sign.toInt) ≤ a.toInt)
    (hhigh : a.toInt ≤ o.remaining) (hmin : a ≠ Amount.least) :
    ∃ f : Amount, f.toInt = o.filled.toInt + a.toInt * o.side.sign.toInt ∧
      o.fillBy a block =
        { o with filled := f, lifecycle := o.lifecycleAfterFill a f block } := by
  obtain ⟨f, hf, hsome⟩ := fillBy?_eq_some block h hlow hhigh hmin
  exact ⟨f, hf, by rw [fillBy, hsome]; rfl⟩

theorem fillBy_zero (h : o.InBounds) (h0 : a.toInt = 0) : o.fillBy a block = o := by
  have hz : a = 0 := Amount.eq_iff.mpr h0
  have hnn := h.fill_nonneg
  have hrem := h.remaining_nonneg
  obtain ⟨f, hf, he⟩ := fillBy_eq block h (a := a) (by omega) (by omega)
    (by rw [hz]; decide)
  have hfilled : f = o.filled := Amount.eq_iff.mpr (by rw [hf, h0]; omega)
  rw [he, hfilled, hz, lifecycleAfterFill, if_neg (by decide),
    if_neg fun h => absurd h.1 (by decide)]

theorem lifecycleAfterFill_of_pos (block : BlockNumber) (ha : 0 < a)
    (hs : ¬ o.hasStatus .filled) (f : Amount) :
    o.lifecycleAfterFill a f block =
      if f = o.size then o.lifecycle ++ [⟨block, .filled, ""⟩] else o.lifecycle := by
  have hneg : ¬ a < 0 := by
    rw [Amount.lt_iff] at *
    omega
  rw [lifecycleAfterFill, if_neg hneg]
  simp [ha, hs]

/-- The status tells whether a fill completed the order. -/
theorem lifecycleAfterFill_back (block : BlockNumber) (ha : 0 < a) (hb : b < 0)
    (hs : ¬ o.hasStatus .filled) (f g : Amount) :
    ({ o with filled := f, lifecycle := o.lifecycleAfterFill a f block } :
      Order).lifecycleAfterFill b g block = o.lifecycle := by
  rw [lifecycleAfterFill, if_pos hb, lifecycleAfterFill_of_pos block ha hs]
  by_cases hf : f = o.size
  · simp only [hf, if_true]
    rw [if_pos (by simp [hasStatus, status?]), List.dropLast_concat]
  · simp only [hf, if_false]
    rw [if_neg]
    exact hs

/-- What is taken back of a fill that fits leaves the fill that was before it. -/
theorem fillBy_back (block : BlockNumber) (hw : o.WellFormed) {f : Amount}
    (h0 : 0 ≤ a.toInt) (hf : f.toInt = o.filled.toInt + a.toInt * o.side.sign.toInt)
    (he : o.fillBy a block = { o with filled := f, lifecycle := o.lifecycleAfterFill a f block })
    (hb : b.toInt = -a.toInt) :
    (o.fillBy a block).fillBy b block =
      { o with lifecycle := (o.fillBy a block).lifecycleAfterFill b o.filled block } := by
  have hin := (hw.fillBy a block).inBounds
  have hnn := hw.inBounds.fill_nonneg
  have hrem := hin.remaining_nonneg
  have hupper := a.upper
  have hside : (o.fillBy a block).side = o.side := by rw [he]
  have hfilled : (o.fillBy a block).filled = f := by rw [he]
  have hmin : b ≠ Amount.least := by
    intro h
    rw [h] at hb
    have hleast : Amount.least.toInt = -170141183460469231731687303715884105728 := rfl
    omega
  have hlow : -((o.fillBy a block).filled.toInt * (o.fillBy a block).side.sign.toInt) ≤
      b.toInt := by
    rw [hside, hfilled, hf]
    cases hs : o.side <;> simp only [hs, Side.toInt_sign_long, Side.toInt_sign_short] at hnn ⊢ <;>
      omega
  obtain ⟨g, hg, heg⟩ := fillBy_eq block hin hlow (by omega) hmin
  have hsame : g = o.filled := by
    apply Amount.eq_iff.mpr
    rw [hg, hside, hfilled, hf, hb]
    cases o.side <;> simp only [Side.toInt_sign_long, Side.toInt_sign_short] <;> omega
  rw [heg, hsame, he]

/-- A fill that fits is taken back exactly, since an order that is called filled has nothing left to
fill. -/
theorem fillBy_fits (block : BlockNumber) (hw : o.WellFormed) (hfull : o.FilledIsFull)
    (h0 : 0 ≤ a.toInt) (hle : a.toInt ≤ o.remaining) (hb : b.toInt = -a.toInt) :
    (o.fillBy a block).remaining = o.remaining - a.toInt ∧ (o.fillBy a block).FilledIsFull ∧
      (o.fillBy a block).fillBy b block = o := by
  have hnn := hw.inBounds.fill_nonneg
  by_cases hz : a.toInt = 0
  · rw [fillBy_zero hw.inBounds hz, fillBy_zero hw.inBounds (by omega)]
    exact ⟨by omega, hfull, rfl⟩
  have hmin : a ≠ Amount.least := fun h => absurd (h ▸ h0) (by decide)
  have ha : 0 < a := by rw [Amount.lt_iff, Amount.toInt_zero]; omega
  have hneg : b < 0 := by rw [Amount.lt_iff, Amount.toInt_zero]; omega
  have hstatus : ¬ o.hasStatus .filled := by
    intro h
    have := hfull h
    omega
  obtain ⟨f, hf, he⟩ := fillBy_eq block hw.inBounds (by omega) hle hmin
  refine ⟨?_, ?_, ?_⟩
  · rw [he]
    exact remaining_fill hf
  · intro hfilled
    by_cases hsize : f = o.size
    · rw [he, hsize]
      simp [remaining]
    · rw [he, lifecycleAfterFill_of_pos block ha hstatus, if_neg hsize] at hfilled
      exact absurd hfilled hstatus
  · rw [fillBy_back block hw h0 hf he hb, he,
      lifecycleAfterFill_back block ha hneg hstatus]

end Order
/-- Whether an action can be taken back: a placement is of a new order, and a fill fits what the
order has left, as often as the log repeats it. -/
def OrderAction.Fits (a : OrderAction) (times : Nat) (o : Option Order) : Prop :=
  match a with
  | .place _ => o = none
  | .setStatus _ _ => True
  | .fill amount => ∀ p, o = some p → 0 ≤ amount ∧ amount.toInt * times ≤ p.remaining

/-- A log all of whose actions fit, counting how often it names each order. -/
def Log.Fits (contracts : ContractAddresses) (orders : Map Hash Order) (l : Log) : Prop :=
  ∀ x ∈ l.actions contracts,
    x.2.Fits (((l.actions contracts).map Prod.fst).count x.1) orders[x.1]?

/-- Logs that fit when they are applied one after the other. -/
def Log.AllFit (contracts : ContractAddresses) : Map Hash Order → List Log → Prop
  | _, [] => True
  | orders, l :: logs =>
    l.Fits contracts orders ∧ AllFit contracts (Log.actHead contracts orders l) logs

/-- Well-formed orders of which only those that have nothing left are called filled. -/
structure Settled (orders : Map Hash Order) : Prop where
  wellFormed : AllWellFormed orders
  full : ∀ (id : Hash) (o : Order), orders[id]? = some o → o.FilledIsFull

/-- The fills of a log, each order by how often it is named. -/
theorem Log.getElem?_act_fills (l : Log) (orders : Map Hash Order) (ids : List Hash)
    (amount : Amount) (id : Hash) :
    (l.act orders (ids.map fun id => (id, .fill amount)))[id]? =
      ((OrderAction.fill amount).effect id l)^[ids.count id] orders[id]? := by
  induction ids generalizing orders with
  | nil => rfl
  | cons i ids ih =>
    rw [Log.act, List.map_cons, List.foldl_cons]
    apply (ih _).trans
    rw [Map.getElem?_alter_key, List.count_cons]
    by_cases h : i = id
    · subst h
      simp [Function.iterate_succ_apply]
    · simp [h]

/-- An amount that is not negative is taken back by its negation. -/
theorem signedAmount_true {amount : Amount} (h : 0 ≤ amount) :
    ∃ b, signedAmount true amount = .ok b ∧ b.toInt = -amount.toInt := by
  rw [Amount.le_iff, Amount.toInt_zero] at h
  have hupper := amount.upper
  have hfits : -170141183460469231731687303715884105728 ≤ -amount.toInt ∧
      -amount.toInt < 170141183460469231731687303715884105728 := by omega
  have hneg : amount.neg? = some ⟨-amount.toInt, hfits.1, hfits.2⟩ := dif_pos hfits
  exact ⟨⟨-amount.toInt, hfits.1, hfits.2⟩, by simp [signedAmount, hneg], rfl⟩

namespace OrderAction
variable {amount : Amount} {id : Hash} {l : Log}

theorem effect_fill_none : (fill amount).effect id l none = none := by
  simp only [effect]
  split <;> rfl

theorem effect_fill (hl : l.removed = false) (o : Order) :
    (fill amount).effect id l (some o) = some (o.fillBy amount l.block) := by
  simp [effect, hl, signedAmount]

theorem effect_fill_takenBack {back : Amount} (h : signedAmount true amount = .ok back)
    (o : Order) :
    (fill amount).effect id l.takenBack (some o) = some (o.fillBy back l.block) := by
  have htaken : l.takenBack.removed = true := rfl
  have hblock : l.takenBack.block = l.block := rfl
  simp [effect, htaken, hblock, h]

/-- Fills of an order that fit together are taken back together. -/
theorem iterate_fill (hl : l.removed = false) (n : Nat) {o : Option Order}
    (hw : ∀ p, o = some p → p.WellFormed ∧ p.FilledIsFull) (hfit : (fill amount).Fits n o) :
    (∀ p, ((fill amount).effect id l)^[n] o = some p → p.FilledIsFull) ∧
      ((fill amount).effect id l.takenBack)^[n] (((fill amount).effect id l)^[n] o) = o := by
  induction n generalizing o with
  | zero => exact ⟨fun p hp => (hw p hp).2, rfl⟩
  | succ n ih =>
    rw [Function.iterate_succ_apply, Function.iterate_succ_apply']
    cases o with
    | none =>
      obtain ⟨hfull, hback⟩ := ih (o := none) (fun p hp => by cases hp) fun p hp => by cases hp
      rw [effect_fill_none, hback]
      exact ⟨hfull, effect_fill_none⟩
    | some p =>
      obtain ⟨h0, hle⟩ := hfit p rfl
      obtain ⟨hp, hpfull⟩ := hw p rfl
      obtain ⟨b, hb, hbneg⟩ := signedAmount_true h0
      rw [Amount.le_iff, Amount.toInt_zero] at h0
      have htimes : amount.toInt * ((n + 1 : Nat) : Int) = amount.toInt * n + amount.toInt := by
        rw [Int.natCast_succ, Int.mul_add, Int.mul_one]
      have hrest : 0 ≤ amount.toInt * (n : Int) := Int.mul_nonneg h0 (Int.natCast_nonneg n)
      obtain ⟨hrem, hfull, hundo⟩ :=
        Order.fillBy_fits l.block hp hpfull h0 (by omega) hbneg
      obtain ⟨hfulls, hback⟩ := ih (o := some (p.fillBy amount l.block))
        (by rintro q ⟨⟩; exact ⟨hp.fillBy amount l.block, hfull⟩)
        (by rintro q ⟨⟩; exact ⟨h0, by omega⟩)
      rw [effect_fill hl, hback, effect_fill_takenBack hb, hundo]
      exact ⟨hfulls, rfl⟩

end OrderAction

theorem ContractEvent.actions_cases (e : ContractEvent) :
    (∃ (ids : List Hash) (amount : Amount), e.actions = ids.map fun id => (id, .fill amount)) ∨
      (∃ id raw, e.actions = [(id, .place raw)]) ∨
        ∃ id status info, status ≠ .filled ∧ e.actions = [(id, .setStatus status info)] := by
  cases e with
  | orderBook e =>
    cases e with
    | orderPlaced _ id order => exact .inr (.inl ⟨id, .limit order, rfl⟩)
    | orderAccepted _ id order => exact .inr (.inl ⟨id, .signed order, rfl⟩)
    | orderCancelled _ id => exact .inr (.inr ⟨id, .cancelled, "", by decide, rfl⟩)
    | cancelAccepted _ id => exact .inr (.inr ⟨id, .cancelled, "", by decide, rfl⟩)
    | ordersMatched long short amount => exact .inl ⟨[long, short], amount, rfl⟩
    | liquidationMatched _ id amount => exact .inl ⟨[id], amount, rfl⟩
    | matchingError id info => exact .inr (.inr ⟨id, .executionFailed, info, by decide, rfl⟩)
  | iocOrderBook e =>
    cases e with
    | orderPlaced _ id order => exact .inr (.inl ⟨id, .ioc order, rfl⟩)
  | marginAccount e => exact .inl ⟨[], 0, rfl⟩
  | clearingHouse e => exact .inl ⟨[], 0, rfl⟩

/-- A log fills some orders, places one, or begins a status of one. -/
theorem Log.actions_cases (contracts : ContractAddresses) (l : Log) :
    (∃ (ids : List Hash) (amount : Amount), l.actions contracts =
        ids.map fun id => (id, .fill amount)) ∨
      (∃ id raw, l.actions contracts = [(id, .place raw)]) ∨
        ∃ id status info, status ≠ .filled ∧
          l.actions contracts = [(id, .setStatus status info)] := by
  unfold Log.actions
  cases readLog contracts l Intake.isOrderBook with
  | ok e => exact e.actions_cases
  | error _ => exact .inl ⟨[], 0, rfl⟩

theorem Log.actions_takenBack (contracts : ContractAddresses) (l : Log) :
    l.takenBack.actions contracts = l.actions contracts := rfl

section
variable {contracts : ContractAddresses} {orders : Map Hash Order} {l : Log}

theorem Settled.act_fills (hs : Settled orders) (hl : l.removed = false) {ids : List Hash}
    {amount : Amount}
    (hfit : ∀ id ∈ ids, (OrderAction.fill amount).Fits (ids.count id) orders[id]?) :
    Settled (l.act orders (ids.map fun id => (id, .fill amount))) ∧
      l.takenBack.act (l.act orders (ids.map fun id => (id, .fill amount)))
        (ids.map fun id => (id, .fill amount)) = orders := by
  have hstep : ∀ id, (∀ p, ((OrderAction.fill amount).effect id l)^[ids.count id] orders[id]? =
      some p → p.FilledIsFull) ∧
      ((OrderAction.fill amount).effect id l.takenBack)^[ids.count id]
        (((OrderAction.fill amount).effect id l)^[ids.count id] orders[id]?) = orders[id]? := by
    intro id
    have hkept : ∀ p, orders[id]? = some p → p.WellFormed ∧ p.FilledIsFull := fun p hp =>
      ⟨hs.wellFormed id p hp, hs.full id p hp⟩
    by_cases hmem : id ∈ ids
    · exact OrderAction.iterate_fill hl _ hkept (hfit id hmem)
    · rw [List.count_eq_zero.mpr hmem]
      exact ⟨fun p hp => (hkept p hp).2, rfl⟩
  refine ⟨⟨hs.wellFormed.act l _, fun id o ho => ?_⟩, ?_⟩
  · rw [Log.getElem?_act_fills] at ho
    exact (hstep id).1 o ho
  · apply Std.ExtTreeMap.ext_getElem?
    intro id
    rw [Log.getElem?_act_fills, Log.getElem?_act_fills]
    exact (hstep id).2

theorem Settled.act_place (hs : Settled orders) (hl : l.removed = false) {id : Hash}
    {raw : RawOrder} (hnew : orders[id]? = none) :
    Settled (l.act orders [(id, .place raw)]) ∧
      l.takenBack.act (l.act orders [(id, .place raw)]) [(id, .place raw)] = orders := by
  refine ⟨⟨hs.wellFormed.act l _, fun id' o ho => ?_⟩, ?_⟩
  · rw [Log.act, List.foldl_cons, List.foldl_nil, Map.getElem?_alter_key] at ho
    split at ho
    · simp only [OrderAction.effect, hl] at ho
      cases ho
      intro hf
      simp [Order.place, Order.hasStatus, Order.status?] at hf
    · exact hs.full id' o ho
  · simp only [Log.act, List.foldl_cons, List.foldl_nil, Map.alter_alter]
    apply Map.alter_eq_self
    rw [hnew]
    rfl

theorem Settled.act_setStatus (hs : Settled orders) (hl : l.removed = false) {id : Hash}
    {status : OrderStatus} {info : String} (hne : status ≠ .filled) :
    Settled (l.act orders [(id, .setStatus status info)]) ∧
      l.takenBack.act (l.act orders [(id, .setStatus status info)])
        [(id, .setStatus status info)] = orders := by
  refine ⟨⟨hs.wellFormed.act l _, fun id' o ho => ?_⟩, ?_⟩
  · rw [Log.act, List.foldl_cons, List.foldl_nil, Map.getElem?_alter_key] at ho
    split at ho
    · simp only [OrderAction.effect, hl] at ho
      obtain ⟨p, -, rfl⟩ := Option.map_eq_some_iff.mp ho
      exact Order.filledIsFull_pushStatus hne
    · exact hs.full id' o ho
  · simp only [Log.act, List.foldl_cons, List.foldl_nil, Map.alter_alter]
    apply Map.alter_eq_self
    have htaken : l.takenBack.removed = true := rfl
    cases ho : orders[id]? with
    | none => simp [OrderAction.effect, hl]
    | some o =>
      simp [OrderAction.effect, hl, htaken, Order.popStatus_pushStatus (hs.wellFormed id o ho)]

/-- A log that fits leaves the orders settled, and is taken back exactly. -/
theorem Settled.actHead (hs : Settled orders) (hl : l.removed = false)
    (hfit : l.Fits contracts orders) :
    Settled (Log.actHead contracts orders l) ∧
      Log.actHead contracts (Log.actHead contracts orders l) l.takenBack = orders := by
  unfold Log.Fits at hfit
  unfold Log.actHead
  rw [Log.actions_takenBack]
  rcases l.actions_cases contracts with
    ⟨ids, amount, ha⟩ | ⟨id, raw, ha⟩ | ⟨id, status, info, hne, ha⟩
  · rw [ha] at hfit ⊢
    apply hs.act_fills hl
    intro id hmem
    have hx := hfit (id, .fill amount) (List.mem_map_of_mem hmem)
    simp only [List.map_map, Function.comp_def, List.map_id'] at hx
    exact hx
  · rw [ha] at hfit ⊢
    exact hs.act_place hl (hfit (id, .place raw) (List.mem_singleton_self _))
  · rw [ha]
    exact hs.act_setStatus hl hne

theorem Settled.foldl_actHead {logs : List Log} (hs : Settled orders)
    (hl : ∀ l ∈ logs, l.removed = false) (hfit : Log.AllFit contracts orders logs) :
    (logs.reverse.map Log.takenBack).foldl (Log.actHead contracts)
      (logs.foldl (Log.actHead contracts) orders) = orders := by
  induction logs generalizing orders with
  | nil => rfl
  | cons l logs ih =>
    obtain ⟨hl, hls⟩ := List.forall_mem_cons.mp hl
    obtain ⟨hs', hback⟩ := hs.actHead hl hfit.1
    rw [List.reverse_cons, List.map_append, List.foldl_append, List.foldl_cons, ih hs' hls hfit.2]
    exact hback

end

namespace Log

def position (l : Log) : BlockNumber × UInt64 := (l.block, l.index)

/-- Logs of which no two stand at the same place of the chain. -/
def DistinctPositions (logs : List Log) : Prop := (logs.map position).Nodup

theorem before_iff {a b : Log} :
    a.before b ↔ a.block < b.block ∨ a.block = b.block ∧ a.index ≤ b.index := by
  simp [before]

theorem before_trans (a b c : Log) (hab : a.before b) (hbc : b.before c) : a.before c := by
  rw [before_iff, UInt64.lt_iff_toNat_lt, ← UInt64.toNat_inj, UInt64.le_iff_toNat_le] at *
  omega

theorem before_total (a b : Log) : (a.before b || b.before a) = true := by
  rw [Bool.or_eq_true, before_iff, before_iff]
  simp only [UInt64.lt_iff_toNat_lt, ← UInt64.toNat_inj, UInt64.le_iff_toNat_le]
  omega

theorem position_eq {a b : Log} (hab : a.before b) (hba : b.before a) :
    a.position = b.position := by
  rw [before_iff] at hab hba
  simp only [position, Prod.mk.injEq, UInt64.lt_iff_toNat_lt, ← UInt64.toNat_inj,
    UInt64.le_iff_toNat_le] at *
  omega

/-- Logs at different places stand in one order only. -/
theorem eq_of_sorted {as bs : List Log} (le : Log → Log → Prop)
    (hle : ∀ {a b}, le a b → le b a → a.position = b.position) (hd : DistinctPositions as)
    (hp : as.Perm bs) (ha : as.Pairwise le) (hb : bs.Pairwise le) : as = bs := by
  refine List.Perm.eq_of_pairwise (fun a b hma hmb hab hba => ?_) ha hb hp
  exact List.inj_on_of_nodup_map hd hma (hp.mem_iff.mpr hmb) (hle hab hba)

theorem DistinctPositions.perm {as bs : List Log} (h : DistinctPositions as) (hp : as.Perm bs) :
    DistinctPositions bs :=
  (hp.map position).nodup_iff.mp h

theorem sorted_mergeSort (logs : List Log) :
    (logs.mergeSort before).Pairwise fun a b => a.before b :=
  List.pairwise_mergeSort before_trans before_total logs

end Log

namespace Intake

/-- Logs that are all new are applied by their places. -/
theorem headOrder_of_new {logs logs' : List Log} (hl : ∀ l ∈ logs, l.removed = false)
    (hd : Log.DistinctPositions logs) (hp : logs'.Perm logs) :
    headOrder logs' = logs.mergeSort Log.before := by
  have hl' : ∀ l ∈ logs', l.removed = false := fun l h => hl l (hp.mem_iff.mp h)
  have hremoved : logs'.filter Log.removed = [] :=
    List.filter_eq_nil_iff.mpr fun l h => by simp [hl' l h]
  have hnew : (logs'.filter fun l => !l.removed) = logs' :=
    List.filter_eq_self.mpr fun l h => by simp [hl' l h]
  rw [headOrder, hremoved, hnew, List.mergeSort_nil, List.nil_append]
  refine Log.eq_of_sorted (fun a b => a.before b) Log.position_eq ?_ ?_
    (Log.sorted_mergeSort _) (Log.sorted_mergeSort _)
  · exact hd.perm (hp.symm.trans (List.mergeSort_perm _ _).symm)
  · exact (List.mergeSort_perm _ _).trans (hp.trans (List.mergeSort_perm _ _).symm)

/-- Logs of a branch that is taken back come before those of the branch that replaces it, and in the
opposite order. -/
theorem headOrder_of_reorg {old new logs : List Log} (hn : ∀ l ∈ new, l.removed = false)
    (hdo : Log.DistinctPositions old) (hdn : Log.DistinctPositions new)
    (hp : logs.Perm (old.map Log.takenBack ++ new)) :
    headOrder logs =
      (old.mergeSort Log.before).reverse.map Log.takenBack ++ new.mergeSort Log.before := by
  have hremoved : (logs.filter Log.removed).Perm (old.map Log.takenBack) := by
    have h := hp.filter Log.removed
    have hold : (old.map Log.takenBack).filter Log.removed = old.map Log.takenBack :=
      List.filter_eq_self.mpr fun l h => by
        obtain ⟨k, -, rfl⟩ := List.mem_map.mp h
        rfl
    have hnew : new.filter Log.removed = [] :=
      List.filter_eq_nil_iff.mpr fun l h => by simp [hn l h]
    rwa [List.filter_append, hold, hnew, List.append_nil] at h
  have hkept : (logs.filter fun l => !l.removed).Perm new := by
    have h := hp.filter fun l => !l.removed
    have hold : ((old.map Log.takenBack).filter fun l => !l.removed) = [] :=
      List.filter_eq_nil_iff.mpr fun l h => by
        obtain ⟨k, -, rfl⟩ := List.mem_map.mp h
        simp [Log.takenBack]
    have hnew : (new.filter fun l => !l.removed) = new :=
      List.filter_eq_self.mpr fun l h => by simp [hn l h]
    rwa [List.filter_append, hold, hnew, List.nil_append] at h
  have hback : ((logs.filter Log.removed).mergeSort fun a b => b.before a) =
      (old.mergeSort Log.before).reverse.map Log.takenBack := by
    have hperm : ((old.mergeSort Log.before).reverse.map Log.takenBack).Perm
        (old.map Log.takenBack) :=
      ((List.reverse_perm _).trans (List.mergeSort_perm _ _)).map _
    have hd : Log.DistinctPositions (old.map Log.takenBack) := by
      rwa [Log.DistinctPositions, List.map_map]
    refine Log.eq_of_sorted (fun a b => b.before a) (fun h h' => Log.position_eq h' h)
      (hd.perm (hremoved.symm.trans (List.mergeSort_perm _ _).symm))
      ((List.mergeSort_perm _ _).trans (hremoved.trans hperm.symm)) ?_ ?_
    · exact List.pairwise_mergeSort (fun a b c h h' => Log.before_trans c b a h' h)
        (fun a b => Log.before_total b a) _
    · exact List.pairwise_map.mpr (List.pairwise_reverse.mpr (Log.sorted_mergeSort old))
  rw [headOrder, hback]
  congr 1
  refine Log.eq_of_sorted (fun a b => a.before b) Log.position_eq ?_ ?_
    (Log.sorted_mergeSort _) (Log.sorted_mergeSort _)
  · exact hdn.perm (hkept.symm.trans (List.mergeSort_perm _ _).symm)
  · exact (List.mergeSort_perm _ _).trans (hkept.trans (List.mergeSort_perm _ _).symm)

end Intake

namespace Store

/-- A branch of logs that reaches the head of the chain and leaves it again, as another one takes
its place, leaves nothing behind: the orders and the lists of every book are those the other branch
makes alone. The logs of each branch may come in any order, and those that are taken back along with
those that take their place. -/
theorem reorg_leaves_nothing_behind {contracts : ContractAddresses} {i : Intake}
    (hs : i.store.Ingested)
    (hfull : ∀ (id : Hash) (o : Order), i.store.orders[id]? = some o → o.hasStatus .filled →
      o.remaining = 0)
    {old new firsts thens : List Log} (ho : ∀ l ∈ old, l.removed = false)
    (hn : ∀ l ∈ new, l.removed = false) (hdo : Log.DistinctPositions old)
    (hdn : Log.DistinctPositions new)
    (hfit : Log.AllFit contracts i.store.orders (old.mergeSort Log.before))
    (hfirsts : firsts.Perm old) (hthens : thens.Perm (old.map Log.takenBack ++ new)) :
    let after := ((i.headLogs contracts firsts).headLogs contracts thens).store
    let direct := (i.headLogs contracts new).store
    after.orders = direct.orders ∧
      ∀ m side, (after.book m).side side = (direct.book m).side side := by
  intro after direct
  obtain ⟨hi, hw⟩ := hs.invariant
  have hfirst := i.headLogs_reorders contracts firsts
  have hthen := (i.headLogs contracts firsts).headLogs_reorders contracts thens
  have hdirect := i.headLogs_reorders contracts new
  have horders : after.orders = direct.orders := by
    have hsettled : Settled i.store.orders := ⟨hw, hfull⟩
    have hback := hsettled.foldl_actHead (fun l h => ho l (List.mem_mergeSort.mp h)) hfit
    rw [hthen.orders_eq, hdirect.orders_eq, hfirst.orders_eq,
      Intake.headOrder_of_new ho hdo hfirsts, Intake.headOrder_of_new hn hdn (.refl _),
      Intake.headOrder_of_reorg hn hdo hdn hthens, List.foldl_append, hback]
  have hafter : Indexes after.books after.orders := hthen.2 (hfirst.2 hi)
  have hdir : Indexes direct.books direct.orders := hdirect.2 hi
  constructor
  · exact horders
  · intro m side
    rw [horders] at hafter
    exact hafter.side_eq hdir m side

end Store

def unknownId : Hash := Bytes.ofWord 32 1

/-- The log by which the order under the default id is matched. -/
def matchLog (shortId : Hash) (amount : Amount) (block : BlockNumber) : Log :=
  (default : ContractAddresses).orderBookLog (.ordersMatched default shortId amount 0 0) block 0

/-- The log by which that order is cancelled. -/
def cancelLog (block : BlockNumber) : Log :=
  (default : ContractAddresses).orderBookLog (.orderCancelled default default 0) block 1

namespace Intake

/-- An intake that has seen an order of ten be placed, and three of it be filled. -/
def partlyFilled : Intake :=
  let placed := (⟨.empty, default, default, default⟩ : Intake).headLogs default
    [(default : ContractAddresses).orderBookLog
      (.orderPlaced default default { (default : LimitOrder) with size := 10 } 0) 1 0]
  placed.headLogs default [matchLog unknownId 3 1]

/-- That order. -/
def partlyFilledOrder : Order :=
  (Order.place default (.limit { (default : LimitOrder) with size := 10 }) 1).fillBy 3 1

theorem ingested_partlyFilled : partlyFilled.store.Ingested :=
  .head (.head .empty _ _) _ _

theorem getElem?_partlyFilled (id : Hash) :
    partlyFilled.store.orders[id]? = if default = id then some partlyFilledOrder else none := by
  have hempty : ∀ i : Hash, (Store.empty.orders)[i]? = none := by simp [Store.empty]
  rw [partlyFilled, orders_headLogs_singleton, orders_headLogs_singleton]
  simp only [Log.actHead, matchLog, ContractAddresses.actions_orderBookLog, ContractEvent.actions,
    Log.act, List.foldl_cons, List.foldl_nil, Map.getElem?_alter_key, hempty]
  by_cases h : default = id
  · subst h
    have h' : ¬ unknownId = default := by decide
    simp only [h', if_false, if_true]
    rfl
  · simp [h, OrderAction.effect_fill_none]

theorem eq_of_partlyFilled {id : Hash} {o : Order} (h : partlyFilled.store.orders[id]? = some o) :
    id = default ∧ o = partlyFilledOrder := by
  rw [getElem?_partlyFilled] at h
  split at h
  next hid => exact ⟨hid.symm, (Option.some.inj h).symm⟩
  next => cases h

theorem remaining_of_partlyFilled {id : Hash} {o : Order}
    (h : partlyFilled.store.orders[id]? = some o) (hf : o.hasStatus .filled) : o.remaining = 0 := by
  obtain ⟨-, rfl⟩ := eq_of_partlyFilled h
  exact absurd hf (by decide)

end Intake

namespace Store
open Intake

/-- The match that completes the order, and its cancellation. -/
def orphanedLogs : List Log := [matchLog unknownId 7 2, cancelLog 2]

theorem allFit_orphanedLogs :
    Log.AllFit default partlyFilled.store.orders (orphanedLogs.mergeSort Log.before) := by
  rw [List.mergeSort_of_pairwise (by simp [orphanedLogs, matchLog, cancelLog, Log.before])]
  refine ⟨fun x hx => ?_, fun x hx => ?_, trivial⟩
  · simp only [matchLog, ContractAddresses.actions_orderBookLog, ContractEvent.actions,
      List.mem_cons, List.not_mem_nil, or_false] at hx ⊢
    rcases hx with rfl | rfl
    · intro p hp
      obtain ⟨-, rfl⟩ := eq_of_partlyFilled hp
      decide
    · intro p hp
      exact absurd (eq_of_partlyFilled hp).1 (by decide)
  · simp only [cancelLog, ContractAddresses.actions_orderBookLog, ContractEvent.actions,
      List.mem_singleton] at hx
    subst hx
    exact trivial

theorem reorg_of_completed_order :
    partlyFilled.store.Ingested ∧
      (∀ (id : Hash) (o : Order), partlyFilled.store.orders[id]? = some o → o.hasStatus .filled →
        o.remaining = 0) ∧
      Log.AllFit default partlyFilled.store.orders (orphanedLogs.mergeSort Log.before) ∧
        let after := ((partlyFilled.headLogs default orphanedLogs.reverse).headLogs default
          ([matchLog unknownId 2 2] ++ orphanedLogs.map Log.takenBack)).store
        let direct := (partlyFilled.headLogs default [matchLog unknownId 2 2]).store
        after.orders = direct.orders ∧
          ∀ m side, (after.book m).side side = (direct.book m).side side := by
  have hfull : ∀ (id : Hash) (o : Order), partlyFilled.store.orders[id]? = some o →
      o.hasStatus .filled → o.remaining = 0 := fun _ _ => remaining_of_partlyFilled
  refine ⟨ingested_partlyFilled, hfull, allFit_orphanedLogs, ?_⟩
  apply reorg_leaves_nothing_behind ingested_partlyFilled hfull
    (by simp [orphanedLogs, matchLog, cancelLog]) (by simp [matchLog])
    (by simp [orphanedLogs, matchLog, cancelLog, Log.DistinctPositions, Log.position])
    (by simp [Log.DistinctPositions]) allFit_orphanedLogs (List.reverse_perm _)
    List.perm_append_comm

/-- A match of an order against itself names it twice. With seven of ten left, five fit; but the
second five are cut to two, and both are taken back whole. -/
theorem self_match_not_taken_back :
    partlyFilled.store.Ingested ∧
      (∀ (id : Hash) (o : Order), partlyFilled.store.orders[id]? = some o → o.hasStatus .filled →
        o.remaining = 0) ∧
      (matchLog default 5 2).removed = false ∧ Log.DistinctPositions [matchLog default 5 2] ∧
        (∀ x ∈ (matchLog default 5 2).actions default,
          x.2.Fits 1 partlyFilled.store.orders[x.1]?) ∧
          ((partlyFilled.headLogs default [matchLog default 5 2]).headLogs default
            ([matchLog default 5 2].map Log.takenBack ++ [])).store.orders ≠
              (partlyFilled.headLogs default []).store.orders := by
  have hback : signedAmount true 5 = .ok ⟨-5, by decide, by decide⟩ := rfl
  refine ⟨ingested_partlyFilled, fun _ _ => remaining_of_partlyFilled, rfl,
    by simp [Log.DistinctPositions], fun x hx => ?_, fun heq => ?_⟩
  · simp only [matchLog, ContractAddresses.actions_orderBookLog, ContractEvent.actions,
      List.mem_cons, List.not_mem_nil, or_false, or_self] at hx
    subst hx
    intro p hp
    obtain ⟨-, rfl⟩ := eq_of_partlyFilled hp
    decide
  · have hfilled := congrArg (fun orders => (orders[(default : Hash)]?).map Order.filled) heq
    rw [List.append_nil, List.map_singleton, orders_headLogs_singleton, orders_headLogs_singleton,
      (headLogs_reorders _ _ _).orders_eq, headOrder_nil, List.foldl_nil, Log.actHead, Log.actHead,
      Log.actions_takenBack, matchLog, ContractAddresses.actions_orderBookLog] at hfilled
    simp only [ContractEvent.actions, Log.act, List.foldl_cons, List.foldl_nil,
      Map.getElem?_alter_key, if_true, getElem?_partlyFilled] at hfilled
    rw [OrderAction.effect_fill rfl, OrderAction.effect_fill rfl,
      OrderAction.effect_fill_takenBack hback, OrderAction.effect_fill_takenBack hback] at hfilled
    revert hfilled
    decide

end Store
end PerpExchange
