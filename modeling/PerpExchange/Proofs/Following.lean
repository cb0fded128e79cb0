import PerpExchange.Node
import PerpExchange.Proofs.Absorption
import PerpExchange.Proofs.Histories

/-! What a store is like that follows a chain: the logs of so many blocks have come to its head, and
so many of those are accepted. -/
namespace PerpExchange

/-- A log of a block that stays on the chain, takes no fill back, and places only orders whose size
has a magnitude. -/
structure Log.Orderly (contracts : ContractAddresses) (block : BlockNumber) (l : Log) : Prop where
  kept : l.removed = false
  block_eq : l.block = block
  fills : ∀ {id : Hash} {amount : Amount}, (id, .fill amount) ∈ l.actions contracts → 0 ≤ amount
  sizes : ∀ {id : Hash} {raw : RawOrder}, (id, .place raw) ∈ l.actions contracts →
    raw.terms.size ≠ Amount.least

/-- The accepted batches of a chain that is never reorganized: its blocks are numbered from one, and
their times do not decrease. -/
structure OrderlyChain (contracts : ContractAddresses) (chain : List ChainBatch) : Prop where
  accepted : ∀ b ∈ chain, b.accepted = true
  numbered : ∀ {i : Nat} {b : ChainBatch}, chain[i]? = some b → b.block.toNat = i + 1
  timely : ∀ {i j : Nat} {b c : ChainBatch}, i ≤ j → chain[i]? = some b → chain[j]? = some c →
    b.time ≤ c.time
  logs : ∀ b ∈ chain, ∀ l ∈ b.logs, l.Orderly contracts b.block

variable (contracts : ContractAddresses) (params : ProtocolParams)

/-- Orders after the logs of some blocks have come to the head of the chain, if none is accepted. -/
def fullAfter (orders : Map Hash Order) (blocks : List ChainBatch) : Map Hash Order :=
  blocks.foldl (fun orders b => (Intake.headOrder b.logs).foldl (Log.actHead contracts) orders)
    orders

/-- What a store holds apart from its orders, and from how far the chain is accepted. -/
def Store.ledgerData (s : Store) : StoreData :=
  { s.toStoreData with orders := ∅, lastAcceptedBlock := 0 }

theorem Store.withLedgersOf_of_ledgerData {s t : Store} (h : s.ledgerData = t.ledgerData) :
    s.withLedgersOf t = s := by
  rcases s with ⟨data, books⟩
  rcases t with ⟨data', books'⟩
  simp only [ledgerData, StoreData.mk.injEq] at h
  rcases h with ⟨-, htraders, hprice, hpremium, hfunding, hsample, hattempted, -⟩
  simp [withLedgersOf, ← htraders, ← hprice, ← hpremium, ← hfunding, ← hsample, ← hattempted]

theorem Store.ledgerData_accept (s : Store) (accepted : BlockNumber) (time : Timestamp) :
    (s.accept accepted time).1.ledgerData = s.ledgerData := by
  unfold accept ledgerData
  simp only
  rw [(s.deleteAll_reorders _).1]

def Store.afterBlock (s : Store) (b : ChainBatch) : Checked Store :=
  (b.logs.mergeSort Log.before).foldlM (Store.afterAccepted contracts params) s

/-- The number and the time of the last of the first blocks of a chain. -/
def acceptedUpTo (chain : List ChainBatch) (accepts : Nat) : BlockNumber × Timestamp :=
  ((chain.take accepts).getLast?.map fun b => (b.block, b.time)).getD (0, 0)

/-- Orders that are exactly those of a fuller set that can stay together. -/
def SettledBy (chain : List ChainBatch) (accepts : Nat) (full orders : Map Hash Order) : Prop :=
  ∀ (id : Hash) (o : Order), orders[id]? = some o ↔ full[id]? = some o ∧
    Survives full (acceptedUpTo chain accepts).1 (acceptedUpTo chain accepts).2 id

/-- A store that has accepted the first blocks of a chain, and of whose orders only some are missing
that cannot stay. -/
structure Follows (chain : List ChainBatch) (full : Map Hash Order) (accepts : Nat) (s : Store) :
    Prop where
  indexed : s.Indexed
  thinned : Thinned (acceptedUpTo chain accepts).1 (acceptedUpTo chain accepts).2 full s.orders
  ledgers : ∃ ledger : Store,
    (chain.take accepts).foldlM (Store.afterBlock contracts params) .empty = .ok ledger ∧
      s.ledgerData = ledger.ledgerData
  last_eq : s.lastAcceptedBlock = (acceptedUpTo chain accepts).1

theorem follows_empty (chain : List ChainBatch) :
    Follows contracts params chain ∅ 0 .empty where
  indexed := Store.indexed_empty
  thinned := .refl _
  ledgers := ⟨.empty, rfl, rfl⟩
  last_eq := rfl

variable {contracts params} {chain : List ChainBatch} {full : Map Hash Order} {accepts : Nat}
  {s s' : Store} {b : ChainBatch}

theorem acceptedUpTo_succ (hb : chain[accepts]? = some b) :
    acceptedUpTo chain (accepts + 1) = (b.block, b.time) := by
  simp [acceptedUpTo, List.take_add_one, hb]

def AllSized (orders : Map Hash Order) : Prop :=
  ∀ (id : Hash) (o : Order), orders[id]? = some o → o.size ≠ Amount.least

theorem AllSized.actHead {orders : Map Hash Order} {l : Log} {block : BlockNumber}
    (h : AllSized orders) (hl : l.Orderly contracts block) :
    AllSized (l.actHead contracts orders) := by
  have hall : ∀ (actions : List (Hash × OrderAction)) {orders : Map Hash Order},
      (∀ a ∈ actions, a ∈ l.actions contracts) → AllSized orders →
        AllSized (l.act orders actions) := by
    intro actions
    induction actions with
    | nil => exact fun _ h => h
    | cons a actions ih =>
      intro orders hmem h
      rcases a with ⟨target, action⟩
      have hmem' := hmem _ List.mem_cons_self
      apply ih (fun b hb => hmem b (List.mem_cons_of_mem _ hb))
      intro id o ho
      rw [Map.getElem?_alter_key] at ho
      split at ho
      next =>
        by_cases hplace : ∃ raw, action = .place raw
        · rcases hplace with ⟨raw, rfl⟩
          rw [OrderAction.effect, if_neg (by simp [hl.kept])] at ho
          cases ho
          exact hl.sizes hmem'
        · obtain ⟨p, hp, hcontinues⟩ := action.exists_continues hl.kept
            (fun raw ha => hplace ⟨raw, ha⟩) (fun amount ha => hl.fills (ha ▸ hmem')) ho
          rw [hcontinues.size_eq]
          exact h _ p hp
      next => exact h id o ho
  exact hall _ (fun a ha => ha) h

theorem AllSized.fullAfter {orders : Map Hash Order} {blocks : List ChainBatch}
    (h : AllSized orders) (hlogs : ∀ b ∈ blocks, ∀ l ∈ b.logs, l.Orderly contracts b.block) :
    AllSized (fullAfter contracts orders blocks) := by
  have hblock : ∀ (logs : List Log) (block : BlockNumber) {orders : Map Hash Order},
      (∀ l ∈ logs, l.Orderly contracts block) → AllSized orders →
        AllSized (logs.foldl (Log.actHead contracts) orders) := by
    intro logs
    induction logs with
    | nil => exact fun _ _ _ h => h
    | cons l logs ih =>
      intro block orders hl h
      exact ih block (fun m hm => hl m (List.mem_cons_of_mem _ hm))
        (h.actHead (hl l List.mem_cons_self))
  induction blocks generalizing orders with
  | nil => exact h
  | cons b blocks ih =>
    refine ih (hblock _ b.block (fun l hl => ?_) h) fun c hc => hlogs c (List.mem_cons_of_mem _ hc)
    exact hlogs b List.mem_cons_self l ((Intake.perm_headOrder _).mem_iff.mp hl)

theorem AllWellFormed.fullAfter {orders : Map Hash Order} (h : AllWellFormed orders)
    (blocks : List ChainBatch) : AllWellFormed (fullAfter contracts orders blocks) := by
  induction blocks generalizing orders with
  | nil => exact h
  | cons b blocks ih => exact ih (h.foldl_actHead contracts _)

namespace OrderlyChain

theorem acceptedUpTo_le (h : OrderlyChain contracts chain) {i : Nat} (hi : accepts ≤ i)
    (hb : chain[i]? = some b) :
    (acceptedUpTo chain accepts).1.toNat ≤ accepts ∧ (acceptedUpTo chain accepts).2 ≤ b.time := by
  cases accepts with
  | zero =>
    have hzero : acceptedUpTo chain 0 = (0, 0) := by simp [acceptedUpTo]
    rw [hzero]
    exact ⟨Nat.le_refl _, UInt64.le_iff_toNat_le.mpr (Nat.zero_le _)⟩
  | succ j =>
    have hlt : i < chain.length := (List.getElem?_eq_some_iff.mp hb).1
    obtain ⟨c, hc⟩ : ∃ c, chain[j]? = some c := ⟨_, List.getElem?_eq_getElem (by omega)⟩
    rw [acceptedUpTo_succ hc]
    exact ⟨Nat.le_of_eq (h.numbered hc), h.timely (by omega) hc hb⟩

theorem acceptedUpTo_eq (h : OrderlyChain contracts chain) (hle : accepts ≤ chain.length) :
    (acceptedUpTo chain accepts).1.toNat = accepts := by
  cases accepts with
  | zero => simp [acceptedUpTo]
  | succ j =>
    obtain ⟨c, hc⟩ : ∃ c, chain[j]? = some c := ⟨_, List.getElem?_eq_getElem (by omega)⟩
    rw [acceptedUpTo_succ hc]
    exact h.numbered hc

/-- The logs of a block come after all blocks that are accepted before it. -/
theorem forward (h : OrderlyChain contracts chain) {i : Nat} (hi : accepts ≤ i)
    (hb : chain[i]? = some b) :
    ∀ l ∈ Intake.headOrder b.logs, l.Forward contracts (acceptedUpTo chain accepts).1 := by
  intro l hl
  have hl := h.logs b (List.mem_of_getElem? hb) l ((Intake.perm_headOrder _).mem_iff.mp hl)
  refine ⟨hl.kept, UInt64.lt_iff_toNat_lt.mpr ?_, hl.fills⟩
  rw [hl.block_eq, h.numbered hb]
  exact Nat.lt_succ_of_le (Nat.le_trans (h.acceptedUpTo_le hi hb).1 hi)

end OrderlyChain

namespace Follows

theorem of_data (h : Follows contracts params chain full accepts s) (hi : s'.Indexed)
    (hdata : s'.toStoreData = s.toStoreData) : Follows contracts params chain full accepts s' where
  indexed := hi
  thinned := hdata ▸ h.thinned
  ledgers := by
    rw [Store.ledgerData, hdata]
    exact h.ledgers
  last_eq := hdata ▸ h.last_eq

theorem head {i : Intake} (h : Follows contracts params chain full accepts i.store)
    (hchain : OrderlyChain contracts chain) {heads : Nat} (hle : accepts ≤ heads)
    (hb : chain[heads]? = some b) :
    Follows contracts params chain (fullAfter contracts full [b]) accepts
      (i.headLogs contracts b.logs).store := by
  obtain ⟨hdata, hindexed⟩ := i.headLogs_reorders contracts b.logs
  constructor
  · exact hindexed h.indexed
  · rw [hdata]
    exact h.thinned.foldl_actHead (hchain.forward hle hb)
  · rw [Store.ledgerData, hdata]
    exact h.ledgers
  · rw [hdata]
    exact h.last_eq

theorem store_acceptedLogs {i : Intake} (h : Follows contracts params chain full accepts i.store)
    (hb : chain[accepts]? = some b) (replaying : Bool) :
    ∃ ledger : Store,
      (chain.take (accepts + 1)).foldlM (Store.afterBlock contracts params) .empty =
          ledger.afterBlock contracts params b ∧
        (i.acceptedLogs contracts params b.logs replaying).map Intake.store =
          (ledger.afterBlock contracts params b).map (i.store.withLedgersOf ·) := by
  obtain ⟨ledger, hledger, hsame⟩ := h.ledgers
  have hlogs := i.store_acceptedLogs contracts params b.logs replaying
  have hframe := i.store.foldlM_afterAccepted_withLedgersOf ledger contracts params
    (b.logs.mergeSort Log.before)
  rw [Store.withLedgersOf_of_ledgerData hsame, ← hlogs] at hframe
  refine ⟨ledger, ?_, hframe⟩
  rw [List.take_add_one, hb, Option.toList_some, List.foldlM_append, hledger, Checked.ok_bind,
    List.foldlM_cons]
  cases ledger.afterBlock contracts params b <;> rfl

/-- The logs of the next accepted block can be taken if the ledgers go as far. -/
theorem acceptedLogs_eq_ok {i : Intake} (h : Follows contracts params chain full accepts i.store)
    (hb : chain[accepts]? = some b) (replaying : Bool) {ledger : Store}
    (hledger : (chain.take (accepts + 1)).foldlM (Store.afterBlock contracts params) .empty =
      .ok ledger) :
    ∃ i', i.acceptedLogs contracts params b.logs replaying = .ok i' := by
  obtain ⟨before, hbefore, hlogs⟩ := h.store_acceptedLogs hb replaying
  rw [← hbefore, hledger] at hlogs
  cases hi : i.acceptedLogs contracts params b.logs replaying with
  | ok i' => exact ⟨i', rfl⟩
  | error f =>
    rw [hi] at hlogs
    cases hlogs

/-- The next block is accepted. Of the orders exactly those are left that can stay together. -/
theorem accept {i i' : Intake} (h : Follows contracts params chain full accepts i.store)
    (hchain : OrderlyChain contracts chain) (hb : chain[accepts]? = some b) {replaying : Bool}
    (hi : i.acceptedLogs contracts params b.logs replaying = .ok i') :
    Follows contracts params chain full (accepts + 1) (i'.store.accept b.block b.time).1 ∧
      SettledBy chain (accepts + 1) full (i'.store.accept b.block b.time).1.orders := by
  obtain ⟨before, hbefore, hlogs⟩ := h.store_acceptedLogs hb replaying
  obtain ⟨hblock, htime⟩ := hchain.acceptedUpTo_le (Nat.le_refl _) hb
  have hle : (acceptedUpTo chain accepts).1 ≤ b.block := by
    rw [UInt64.le_iff_toNat_le, hchain.numbered hb]
    omega
  have hsame := Store.acceptedLogs_eq_withLedgersOf hi
  have hindexed : i'.store.Indexed := by
    rw [hsame]
    exact h.indexed
  have hthinned : Thinned (acceptedUpTo chain accepts).1 (acceptedUpTo chain accepts).2 full
      i'.store.orders := by
    rw [hsame]
    exact h.thinned
  refine ⟨⟨hindexed.accept _ _, ?_, ?_, ?_⟩, ?_⟩
  · rw [acceptedUpTo_succ hb]
    exact hindexed.thinned_accept hthinned hle htime
  · rw [hi] at hlogs
    cases hafter : before.afterBlock contracts params b with
    | error f =>
      rw [hafter] at hlogs
      cases hlogs
    | ok ledger =>
      rw [hafter] at hlogs
      have hstore : i'.store = i.store.withLedgersOf ledger := Except.ok.inj hlogs
      refine ⟨ledger, hbefore.trans hafter, ?_⟩
      rw [Store.ledgerData_accept, hstore]
      rfl
  · rw [acceptedUpTo_succ hb]
    have hlast : (i'.store.accept b.block b.time).1.lastAcceptedBlock =
        max i'.store.lastAcceptedBlock b.block := rfl
    have hsame' : i'.store.lastAcceptedBlock = (acceptedUpTo chain accepts).1 := by
      rw [hsame]
      exact h.last_eq
    rw [hlast, hsame']
    exact if_pos hle
  · intro id o
    rw [acceptedUpTo_succ hb]
    exact hindexed.accept_thinned hthinned hle htime

/-- Two stores that have followed a chain to its end and kept the orders that can stay together hold
the same. -/
theorem data_eq {s t : Store} (hs : Follows contracts params chain full accepts s)
    (ht : Follows contracts params chain full accepts t)
    (hs' : SettledBy chain accepts full s.orders) (ht' : SettledBy chain accepts full t.orders) :
    s.toStoreData = t.toStoreData := by
  have horders : s.orders = t.orders := by
    apply Std.ExtTreeMap.ext_getElem?
    intro id
    apply Option.ext
    intro o
    rw [hs' id o, ht' id o]
  have hlast : s.lastAcceptedBlock = t.lastAcceptedBlock := hs.last_eq.trans ht.last_eq.symm
  obtain ⟨ledger, hledger, hsame⟩ := hs.ledgers
  obtain ⟨ledger', hledger', hsame'⟩ := ht.ledgers
  rw [hledger] at hledger'
  cases hledger'
  have hdata := hsame.trans hsame'.symm
  rcases s with ⟨data, books⟩
  rcases t with ⟨data', books'⟩
  rcases data with ⟨orders, traders, price, premium, funding, sample, attempted, last⟩
  rcases data' with ⟨orders', traders', price', premium', funding', sample', attempted', last'⟩
  simp only [Store.ledgerData, StoreData.mk.injEq] at hdata horders hlast ⊢
  exact ⟨horders, hdata.2.1, hdata.2.2.1, hdata.2.2.2.1, hdata.2.2.2.2.1, hdata.2.2.2.2.2.1,
    hdata.2.2.2.2.2.2.1, hlast⟩

end Follows

end PerpExchange
