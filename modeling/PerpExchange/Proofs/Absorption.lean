import PerpExchange.Proofs.Acceptance

/-! A later acceptance absorbs an earlier one, also when more logs have come to the head of the
chain in between: orders that left early would have left anyway. -/
namespace PerpExchange

namespace Order
variable {o o' p p' : Order} {accepted accepted' : BlockNumber} {time time' : Timestamp}

/-- An order goes if it has ended by then, or has expired and is no limit order. -/
theorem acceptDecision_eq_remove : o.acceptDecision accepted time = .remove ↔
    (∃ l ∈ o.lifecycle, l.status.isTerminal = true ∧ l.block ≤ accepted) ∨
      (o.kind ≠ .limit ∧ o.isExpired time = true) := by
  have hany : (o.lifecycle.any fun l => l.status.isTerminal && l.block ≤ accepted) = true ↔
      ∃ l ∈ o.lifecycle, l.status.isTerminal = true ∧ l.block ≤ accepted := by
    simp [List.any_eq_true]
  unfold acceptDecision
  rw [← hany]
  split
  next h => simp [h]
  next h =>
    split
    next hk => simp [h, hk]
    next hk =>
      split
      next he => simp [hk, he]
      next he => split <;> simp [h, he]

/-- An order stays only while it can be matched if it does not go, is no limit order, and is not
newer than the block. -/
theorem acceptDecision_eq_keepIfMatcheable :
    o.acceptDecision accepted time = .keepIfMatcheable ↔
      o.acceptDecision accepted time ≠ .remove ∧ o.kind ≠ .limit ∧ o.block ≤ accepted := by
  unfold acceptDecision
  split
  next => simp
  next =>
    split
    next hk => simp [hk]
    next hk =>
      split
      next => simp
      next =>
        split
        next hlt => simp [UInt64.not_le.mpr hlt]
        next hlt => simp [hk, UInt64.not_lt.mp hlt]

/-- An order stays for good if it does not go, and is a limit order or newer than the block. -/
theorem acceptDecision_eq_keep : o.acceptDecision accepted time = .keep ↔
    o.acceptDecision accepted time ≠ .remove ∧ (o.kind = .limit ∨ accepted < o.block) := by
  unfold acceptDecision
  split
  next => simp
  next =>
    split
    next hk => simp [hk]
    next hk =>
      split
      next => simp
      next => split <;> simp [*]

theorem isExpired_mono (h : time ≤ time') (ho : o.isExpired time = true) :
    o.isExpired time' = true := by
  unfold isExpired at ho ⊢
  cases he : o.raw.expireAt? with
  | none => simp [he] at ho
  | some expiry =>
    simp only [he, Option.any_some, decide_eq_true_eq] at ho ⊢
    exact ⟨ho.1, UInt64.lt_of_lt_of_le ho.2 h⟩

theorem acceptDecision_mono (ha : accepted ≤ accepted') (ht : time ≤ time')
    (h : o.acceptDecision accepted time = .remove) :
    o.acceptDecision accepted' time' = .remove := by
  rw [acceptDecision_eq_remove] at h ⊢
  rcases h with ⟨l, hl, hterminal, hblock⟩ | ⟨hk, hexpired⟩
  · exact .inl ⟨l, hl, hterminal, UInt64.le_trans hblock ha⟩
  · exact .inr ⟨hk, isExpired_mono ht hexpired⟩

/-- An order after more has been logged about it: all it was placed with is the same, and it has not
come back from an end. -/
structure Continues (o o' : Order) : Prop where
  raw_eq : o'.raw = o.raw
  size_eq : o'.size = o.size
  market_eq : o'.market = o.market
  side_eq : o'.side = o.side
  price_eq : o'.price = o.price
  block_eq : o'.block = o.block
  ended : ∀ l ∈ o.lifecycle, l.status.isTerminal = true → l ∈ o'.lifecycle

theorem Continues.refl (o : Order) : o.Continues o := ⟨rfl, rfl, rfl, rfl, rfl, rfl, fun _ h _ => h⟩

theorem continues_pushStatus (o : Order) (l : Lifecycle) : o.Continues (o.pushStatus l) :=
  ⟨rfl, rfl, rfl, rfl, rfl, rfl, fun _ h _ => List.mem_append_left _ h⟩

theorem continues_fillBy (o : Order) {delta : Amount} (h : 0 ≤ delta) (block : BlockNumber) :
    o.Continues (o.fillBy delta block) := by
  unfold fillBy
  cases hf : o.fillBy? delta block with
  | none => exact .refl o
  | some r =>
    simp only [fillBy?, Option.bind_eq_bind, Option.bind_eq_some_iff] at hf
    rcases hf with ⟨d, -, f, -, hf⟩
    cases hf
    refine ⟨rfl, rfl, rfl, rfl, rfl, rfl, fun l hl _ => ?_⟩
    have hneg : ¬ delta < 0 := by
      rw [Amount.le_iff] at h
      rw [Amount.lt_iff]
      omega
    simp only [Option.map_some, Option.getD_some, lifecycleAfterFill, if_neg hneg]
    split
    · exact List.mem_append_left _ hl
    · exact hl

theorem Continues.remove (h : o.Continues o') (ho : o.acceptDecision accepted time = .remove) :
    o'.acceptDecision accepted time = .remove := by
  rw [acceptDecision_eq_remove] at ho ⊢
  rcases ho with ⟨l, hl, hterminal, hblock⟩ | ⟨hk, hexpired⟩
  · exact .inl ⟨l, h.ended l hl hterminal, hterminal, hblock⟩
  · exact .inr ⟨by rwa [kind, h.raw_eq], by rwa [isExpired, h.raw_eq]⟩

theorem Continues.backs (h : o.Continues o') (hp : p.Continues p') (hb : p'.Backs o') :
    p.Backs o := by
  rcases hb with ⟨hm, hs, hcross, hblock⟩
  rw [hp.market_eq, h.market_eq] at hm
  rw [hp.side_eq, h.side_eq] at hs
  rw [hp.block_eq, h.block_eq] at hblock
  refine ⟨hm, hs, ?_, hblock⟩
  unfold Book.crosses at hcross ⊢
  rwa [h.side_eq, h.price_eq, hp.price_eq] at hcross

end Order

variable {orders full thinned : Map Hash Order} {accepted accepted' : BlockNumber}
  {time time' : Timestamp} {id : Hash} {l : Log}

theorem Consistent.earlier {K : Hash → Prop} (h : Consistent orders accepted' time' K)
    (ha : accepted ≤ accepted') (ht : time ≤ time') : Consistent orders accepted time K := by
  intro id hid
  obtain ⟨o, ho, hstays, hbacked⟩ := h id hid
  refine ⟨o, ho, fun hremove => hstays (Order.acceptDecision_mono ha ht hremove), fun hkeep => ?_⟩
  obtain ⟨-, hk, hblock⟩ := Order.acceptDecision_eq_keepIfMatcheable.mp hkeep
  exact hbacked (Order.acceptDecision_eq_keepIfMatcheable.mpr
    ⟨hstays, hk, UInt64.le_trans hblock ha⟩)

theorem Survives.earlier (h : Survives orders accepted' time' id) (ha : accepted ≤ accepted')
    (ht : time ≤ time') : Survives orders accepted time id := by
  rcases h with ⟨K, hK, hid⟩
  exact ⟨K, hK.earlier ha ht, hid⟩

/-- Orders without some of those that cannot stay at a block. -/
def Thinned (accepted : BlockNumber) (time : Timestamp) (full thinned : Map Hash Order) : Prop :=
  ∀ id : Hash, thinned[id]? = full[id]? ∨
    (thinned[id]? = none ∧ ¬ Survives full accepted time id)

namespace Thinned

theorem refl (orders : Map Hash Order) : Thinned accepted time orders orders := fun _ => .inl rfl

theorem later (h : Thinned accepted time full thinned) (ha : accepted ≤ accepted')
    (ht : time ≤ time') : Thinned accepted' time' full thinned := by
  intro id
  rcases h id with heq | ⟨hnone, hno⟩
  · exact .inl heq
  · exact .inr ⟨hnone, fun hs => hno (hs.earlier ha ht)⟩

theorem eq_of_some (h : Thinned accepted time full thinned) {o : Order}
    (ho : thinned[id]? = some o) : full[id]? = some o := by
  rcases h id with heq | ⟨hnone, -⟩
  · rw [← heq, ho]
  · rw [hnone] at ho
    cases ho

theorem eq_of_survives (h : Thinned accepted time full thinned)
    (hs : Survives full accepted time id) : thinned[id]? = full[id]? := by
  rcases h id with heq | ⟨-, hno⟩
  · exact heq
  · exact absurd hs hno

/-- Whether an order stays does not depend on those that cannot. -/
theorem survives_iff (h : Thinned accepted time full thinned) :
    Survives thinned accepted time id ↔ Survives full accepted time id := by
  constructor
  · rintro ⟨K, hK, hid⟩
    refine ⟨K, fun id hid => ?_, hid⟩
    obtain ⟨o, ho, hstays, hbacked⟩ := hK id hid
    refine ⟨o, h.eq_of_some ho, hstays, fun hkeep => ?_⟩
    obtain ⟨id', p, hp, hp', hbacks⟩ := hbacked hkeep
    exact ⟨id', p, hp, h.eq_of_some hp', hbacks⟩
  · rintro ⟨K, hK, hid⟩
    refine ⟨K, fun id hid => ?_, hid⟩
    obtain ⟨o, ho, hstays, hbacked⟩ := hK id hid
    refine ⟨o, (h.eq_of_survives ⟨K, hK, hid⟩).trans ho, hstays, fun hkeep => ?_⟩
    obtain ⟨id', p, hp, hp', hbacks⟩ := hbacked hkeep
    exact ⟨id', p, hp, (h.eq_of_survives ⟨K, hK, hp⟩).trans hp', hbacks⟩

end Thinned

theorem OrderAction.exists_continues {a : OrderAction} (hl : l.removed = false)
    (hnew : ∀ raw, a ≠ .place raw) (hfill : ∀ amount, a = .fill amount → 0 ≤ amount)
    {o : Option Order} {o' : Order} (h : a.effect id l o = some o') :
    ∃ p, o = some p ∧ p.Continues o' := by
  cases a with
  | place raw => exact absurd rfl (hnew raw)
  | setStatus status info =>
    rw [effect, if_neg (by simp [hl])] at h
    obtain ⟨p, hp, rfl⟩ := Option.map_eq_some_iff.mp h
    exact ⟨p, hp, p.continues_pushStatus _⟩
  | fill amount =>
    have hsigned : signedAmount l.removed amount = .ok amount := by simp [signedAmount, hl]
    rw [effect, hsigned] at h
    obtain ⟨p, hp, rfl⟩ := Option.map_eq_some_iff.mp h
    exact ⟨p, hp, p.continues_fillBy (hfill amount rfl) l.block⟩

/-- What stays after a log of a later block would have stayed before it, unless it is new. -/
theorem Survives.of_alter {a : OrderAction} {target : Hash} (hl : l.removed = false)
    (hblock : accepted < l.block) (hfill : ∀ amount, a = .fill amount → 0 ≤ amount)
    (hold : ∀ raw, a = .place raw → id ≠ target)
    (h : Survives (full.alter target (a.effect target l)) accepted time id) :
    Survives full accepted time id := by
  rcases h with ⟨K, hK, hid⟩
  refine ⟨fun id => K id ∧ ∀ raw, a = .place raw → id ≠ target, ?_, hid, hold⟩
  have hbefore : ∀ {id : Hash} {o' : Order}, (∀ raw, a = .place raw → id ≠ target) →
      (full.alter target (a.effect target l))[id]? = some o' →
        ∃ o, full[id]? = some o ∧ o.Continues o' := by
    intro id o' hid ho'
    rw [Map.getElem?_alter_key] at ho'
    split at ho'
    next heq =>
      subst heq
      exact a.exists_continues hl (fun raw h => hid raw h rfl) hfill ho'
    next => exact ⟨o', ho', .refl o'⟩
  rintro id ⟨hKid, hid⟩
  obtain ⟨o', ho', hstays, hbacked⟩ := hK id hKid
  obtain ⟨o, ho, hcontinues⟩ := hbefore hid ho'
  refine ⟨o, ho, fun hremove => hstays (hcontinues.remove hremove), fun hkeep => ?_⟩
  obtain ⟨-, hk, hle⟩ := Order.acceptDecision_eq_keepIfMatcheable.mp hkeep
  have hkeep' := Order.acceptDecision_eq_keepIfMatcheable.mpr
    ⟨hstays, by rwa [Order.kind, hcontinues.raw_eq], by rwa [hcontinues.block_eq]⟩
  obtain ⟨id', p', hKp, hp', hbacks⟩ := hbacked hkeep'
  -- A new order is newer than any that has to be matched, so it backs none of them.
  have hnotnew : ∀ raw, a = .place raw → id' ≠ target := by
    rintro raw rfl rfl
    rw [Map.getElem?_alter_key, if_pos rfl, OrderAction.effect, if_neg (by simp [hl])] at hp'
    cases hp'
    have hlate : l.block ≤ o'.block := hbacks.2.2.2
    rw [hcontinues.block_eq] at hlate
    exact absurd (UInt64.le_trans hlate hle) (UInt64.not_le.mpr hblock)
  obtain ⟨p, hp, hpcontinues⟩ := hbefore hnotnew hp'
  exact ⟨id', p, ⟨hKp, hnotnew⟩, hp, hcontinues.backs hpcontinues hbacks⟩

/-- A log that stays on the chain, of a block after a given one, and that takes no fill back. -/
structure Log.Forward (contracts : ContractAddresses) (accepted : BlockNumber) (l : Log) :
    Prop where
  kept : l.removed = false
  later : accepted < l.block
  fills : ∀ {id : Hash} {amount : Amount}, (id, .fill amount) ∈ l.actions contracts → 0 ≤ amount

namespace Thinned

/-- An order that could not stay is new after an action, or still cannot stay. -/
theorem alter {a : OrderAction} (h : Thinned accepted time full thinned) (hl : l.removed = false)
    (hblock : accepted < l.block) (hfill : ∀ amount, a = .fill amount → 0 ≤ amount)
    (target : Hash) :
    Thinned accepted time (full.alter target (a.effect target l))
      (thinned.alter target (a.effect target l)) := by
  intro id
  rw [Map.getElem?_alter_key, Map.getElem?_alter_key]
  rcases h id with heq | ⟨hnone, hno⟩
  · left
    split
    next htarget =>
      subst htarget
      rw [heq]
    next => exact heq
  · by_cases hplaced : ∃ raw, a = .place raw ∧ id = target
    · rcases hplaced with ⟨raw, rfl, rfl⟩
      left
      rw [if_pos rfl, if_pos rfl]
      rfl
    · right
      refine ⟨?_, fun hs => hno (hs.of_alter hl hblock hfill fun raw ha htarget =>
        hplaced ⟨raw, ha, htarget⟩)⟩
      split
      next htarget =>
        subst htarget
        rw [hnone]
        cases a with
        | place raw => exact absurd ⟨raw, rfl, rfl⟩ hplaced
        | setStatus status info => simp [OrderAction.effect]
        | fill amount => simp [OrderAction.effect, signedAmount, hl]
      next => exact hnone

theorem actHead {contracts : ContractAddresses} (h : Thinned accepted time full thinned)
    (hl : l.Forward contracts accepted) :
    Thinned accepted time (l.actHead contracts full) (l.actHead contracts thinned) := by
  have hall : ∀ (actions : List (Hash × OrderAction)) {full thinned : Map Hash Order},
      (∀ a ∈ actions, a ∈ l.actions contracts) → Thinned accepted time full thinned →
        Thinned accepted time (l.act full actions) (l.act thinned actions) := by
    intro actions
    induction actions with
    | nil => exact fun _ h => h
    | cons a actions ih =>
      intro full thinned hmem h
      have hfill : ∀ amount, a.2 = .fill amount → 0 ≤ amount := by
        intro amount ha
        have hmem : (a.1, a.2) ∈ l.actions contracts := hmem a List.mem_cons_self
        rw [ha] at hmem
        exact hl.fills hmem
      exact ih (fun b hb => hmem b (List.mem_cons_of_mem _ hb))
        (h.alter hl.kept hl.later hfill a.1)
  exact hall _ (fun a ha => ha) h

/-- Logs of later blocks at the head of the chain do not bring back what could not stay. -/
theorem foldl_actHead {contracts : ContractAddresses} {logs : List Log}
    (h : Thinned accepted time full thinned) (hl : ∀ l ∈ logs, l.Forward contracts accepted) :
    Thinned accepted time (logs.foldl (Log.actHead contracts) full)
      (logs.foldl (Log.actHead contracts) thinned) := by
  induction logs generalizing full thinned with
  | nil => exact h
  | cons l logs ih =>
    exact ih (h.actHead (hl l List.mem_cons_self)) fun l hl' => hl l (List.mem_cons_of_mem _ hl')

end Thinned

namespace Store
variable {s : Store}

/-- Acceptance leaves of a thinned store what it would have left of the full one. -/
theorem Indexed.accept_thinned (hi : s.Indexed) (h : Thinned accepted time full s.orders)
    (ha : accepted ≤ accepted') (ht : time ≤ time') {o : Order} :
    (s.accept accepted' time').1.orders[id]? = some o ↔
      full[id]? = some o ∧ Survives full accepted' time' id := by
  have hlater := h.later ha ht
  rw [hi.accept_orders, hlater.survives_iff]
  constructor
  · rintro ⟨ho, hs⟩
    exact ⟨hlater.eq_of_some ho, hs⟩
  · rintro ⟨ho, hs⟩
    exact ⟨(hlater.eq_of_survives hs).trans ho, hs⟩

theorem Indexed.thinned_accept (hi : s.Indexed) (h : Thinned accepted time full s.orders)
    (ha : accepted ≤ accepted') (ht : time ≤ time') :
    Thinned accepted' time' full (s.accept accepted' time').1.orders := by
  intro id
  by_cases hs : Survives full accepted' time' id
  · left
    apply Option.ext
    intro o
    rw [hi.accept_thinned h ha ht]
    exact and_iff_left hs
  · right
    constructor
    · apply Option.eq_none_iff_forall_ne_some.mpr
      intro o ho
      exact hs ((hi.accept_thinned h ha ht).mp ho).2
    · exact hs

end Store

end PerpExchange
