import PerpExchange.Proofs.Bootstrap
import PerpExchange.Service

/-! A snapshot that is taken while later blocks have already come to the head of the chain holds
what their logs did, and a node that starts from it does the same once more. -/
namespace PerpExchange

/-- The log by which an order is placed. -/
def placementLog (contracts : ContractAddresses) (block : BlockNumber) : Log :=
  contracts.orderBookLog (.orderPlaced default default default 0) block 0

/-- The log by which matching that order failed. -/
def failureLog (contracts : ContractAddresses) (block : BlockNumber) : Log :=
  contracts.orderBookLog (.matchingError default "") block 0

/-- A block of a chain on which an order is placed at one block and fails at the next. -/
def failingBlock (contracts : ContractAddresses) (k i : Nat) : ChainBatch where
  accepted := true
  block := UInt64.ofNat (i + 1)
  time := 0
  logs :=
    if i = k then [placementLog contracts (UInt64.ofNat (i + 1))]
    else if i = k + 1 then [failureLog contracts (UInt64.ofNat (i + 1))]
    else []

def failingChain (contracts : ContractAddresses) (n k : Nat) : List ChainBatch :=
  (List.range n).map (failingBlock contracts k)

def placedOrder (k : Nat) : Order := .place default (.limit default) (UInt64.ofNat (k + 1))

def Order.failAt (k : Nat) (o : Order) : Order :=
  o.pushStatus ⟨UInt64.ofNat (k + 2), .executionFailed, ""⟩

/-- What a block of the chain makes of the order. -/
def failingStep (k : Nat) (o : Option Order) (i : Nat) : Option Order :=
  if i = k then some (placedOrder k) else if i = k + 1 then o.map (Order.failAt k) else o

section
variable (contracts : ContractAddresses) (params : ProtocolParams) (n k : Nat)

theorem actions_placementLog (block : BlockNumber) :
    (placementLog contracts block).actions contracts = [(default, .place (.limit default))] :=
  contracts.actions_orderBookLog _ block 0

theorem actions_failureLog (block : BlockNumber) :
    (failureLog contracts block).actions contracts = [(default, .setStatus .executionFailed "")] :=
  contracts.actions_orderBookLog _ block 0

theorem orderlyChain_failingChain (hn : n < UInt64.size) :
    OrderlyChain contracts (failingChain contracts n k) := by
  have hmem : ∀ b ∈ failingChain contracts n k, ∃ i, b = failingBlock contracts k i := by
    intro b hb
    obtain ⟨i, -, rfl⟩ := List.mem_map.mp hb
    exact ⟨i, rfl⟩
  have hget : ∀ {i : Nat} {b : ChainBatch}, (failingChain contracts n k)[i]? = some b →
      i < n ∧ b = failingBlock contracts k i := by
    intro i b hb
    simp only [failingChain, List.getElem?_map, Option.map_eq_some_iff] at hb
    rcases hb with ⟨j, hj, rfl⟩
    obtain ⟨hlt, rfl⟩ := List.getElem?_eq_some_iff.mp hj
    simp only [List.length_range] at hlt
    exact ⟨hlt, by rw [List.getElem_range]⟩
  refine ⟨fun b hb => ?_, fun {i b} hb => ?_, fun {i j b c} _ hb hc => ?_, fun b hb l hl => ?_⟩
  · obtain ⟨i, rfl⟩ := hmem b hb
    rfl
  · obtain ⟨hlt, rfl⟩ := hget hb
    exact UInt64.toNat_ofNat_of_lt' (by omega)
  · obtain ⟨-, rfl⟩ := hget hb
    obtain ⟨-, rfl⟩ := hget hc
    exact UInt64.le_refl _
  · obtain ⟨i, rfl⟩ := hmem b hb
    unfold failingBlock at hl
    simp only at hl
    split at hl
    · cases List.mem_singleton.mp hl
      refine ⟨rfl, rfl, fun {id amount} ha => ?_, fun {id raw} ha => ?_⟩ <;>
        rw [actions_placementLog, List.mem_singleton] at ha <;> cases ha
      decide
    · split at hl
      · cases List.mem_singleton.mp hl
        refine ⟨rfl, rfl, fun {id amount} ha => ?_, fun {id raw} ha => ?_⟩ <;>
          rw [actions_failureLog, List.mem_singleton] at ha <;> cases ha
      · cases hl

/-- The logs of the chain concern no ledger. -/
theorem foldlM_afterBlock_failingBlock (is : List Nat) (s : Store) :
    (is.map (failingBlock contracts k)).foldlM (Store.afterBlock contracts params) s = .ok s := by
  have hlog : ∀ (e : OrderBookEvent) (block : BlockNumber),
      s.afterAccepted contracts params (contracts.orderBookLog e block 0) = .ok s := by
    intro e block
    rw [Store.afterAccepted, contracts.readLog_orderBookLog e block 0 rfl]
    rfl
  have hblock : ∀ i, s.afterBlock contracts params (failingBlock contracts k i) = .ok s := by
    intro i
    unfold Store.afterBlock failingBlock
    simp only
    split
    · rw [List.mergeSort_singleton, List.foldlM_cons, placementLog, hlog]
      rfl
    · split
      · rw [List.mergeSort_singleton, List.foldlM_cons, failureLog, hlog]
        rfl
      · rw [List.mergeSort_nil]
        rfl
  induction is with
  | nil => rfl
  | cons i is ih =>
    rw [List.map_cons, List.foldlM_cons, hblock, Checked.ok_bind]
    exact ih

theorem fullAfter_failingBlock (is : List Nat) (orders : Map Hash Order) :
    (fullAfter contracts orders (is.map (failingBlock contracts k)))[(default : Hash)]? =
      is.foldl (failingStep k) orders[(default : Hash)]? := by
  induction is generalizing orders with
  | nil => rfl
  | cons i is ih =>
    have hstep : (fullAfter contracts orders [failingBlock contracts k i])[(default : Hash)]? =
        failingStep k orders[(default : Hash)]? i := by
      unfold fullAfter failingBlock failingStep
      simp only [List.foldl_cons, List.foldl_nil]
      split
      next hi =>
        subst hi
        rw [Intake.headOrder_singleton, List.foldl_cons, List.foldl_nil, Log.actHead,
          actions_placementLog, Log.act, List.foldl_cons, List.foldl_nil, Map.getElem?_alter_key,
          if_pos rfl]
        rfl
      next =>
        split
        next hi =>
          subst hi
          rw [Intake.headOrder_singleton, List.foldl_cons, List.foldl_nil, Log.actHead,
            actions_failureLog, Log.act, List.foldl_cons, List.foldl_nil, Map.getElem?_alter_key,
            if_pos rfl]
          rfl
        next =>
          rw [Intake.headOrder_nil]
          rfl
    rw [List.map_cons, List.foldl_cons, ← hstep, ← ih]
    rfl

theorem foldl_failingStep_of_lt {is : List Nat} (h : ∀ i ∈ is, k + 1 < i) (o : Option Order) :
    is.foldl (failingStep k) o = o := by
  induction is with
  | nil => rfl
  | cons i is ih =>
    have hi := h i List.mem_cons_self
    rw [List.foldl_cons, failingStep, if_neg (by omega), if_neg (by omega)]
    exact ih fun j hj => h j (List.mem_cons_of_mem _ hj)

theorem foldl_failingStep_range' (m : Nat) (o : Option Order) :
    (List.range' (k + 1) (m + 1)).foldl (failingStep k) o = o.map (Order.failAt k) := by
  rw [List.range'_succ, List.foldl_cons, failingStep, if_neg (by omega), if_pos rfl,
    foldl_failingStep_of_lt]
  intro i hi
  rw [List.mem_range'_1] at hi
  omega

/-- Once the block after the placement has come, the order has been placed and has failed. -/
theorem fullAfter_take_failingChain {h : Nat} (hk : k + 2 ≤ h) (hh : h ≤ n) :
    (fullAfter contracts ∅ ((failingChain contracts n k).take h))[(default : Hash)]? =
      some ((placedOrder k).failAt k) := by
  have hsplit : List.range h = List.range' 0 k ++ k :: List.range' (k + 1) (h - (k + 2) + 1) := by
    have happend := List.range'_append_1 (s := 0) (m := k) (n := h - (k + 2) + 1 + 1)
    rw [Nat.zero_add] at happend
    rw [← List.range'_succ, List.range_eq_range', happend]
    congr 1
    omega
  rw [failingChain, ← List.map_take, List.take_range, Nat.min_eq_left hh, fullAfter_failingBlock,
    hsplit, List.foldl_append, List.foldl_cons, foldl_failingStep_range', failingStep, if_pos rfl]
  rfl

theorem fullAfter_drop_failingChain (hk : k + 2 ≤ n) (orders : Map Hash Order) :
    (fullAfter contracts orders ((failingChain contracts n k).drop (k + 1)))[(default : Hash)]? =
      orders[(default : Hash)]?.map (Order.failAt k) := by
  have hdrop : (List.range n).drop (k + 1) = List.range' (k + 1) (n - (k + 2) + 1) := by
    rw [List.range_eq_range', List.drop_range']
    congr 1 <;> omega
  rw [failingChain, ← List.map_drop, hdrop, fullAfter_failingBlock, foldl_failingStep_range']

end

/-- A limit order that has not ended stays. -/
theorem survives_of_limit {orders : Map Hash Order} {id : Hash} {o : Order}
    (ho : orders[id]? = some o) (hk : o.kind = .limit)
    (hlife : ∀ l ∈ o.lifecycle, l.status.isTerminal = false) (accepted : BlockNumber)
    (time : Timestamp) : Survives orders accepted time id := by
  apply survives_of_keep ho
  refine Order.acceptDecision_eq_keep.mpr ⟨fun hremove => ?_, .inl hk⟩
  rcases Order.acceptDecision_eq_remove.mp hremove with ⟨l, hl, hterminal, -⟩ | ⟨hne, -⟩
  · rw [hlife l hl] at hterminal
    cases hterminal
  · exact hne hk

theorem not_terminal_failAt {o : Order} (h : ∀ l ∈ o.lifecycle, l.status.isTerminal = false)
    (k : Nat) : ∀ l ∈ (o.failAt k).lifecycle, l.status.isTerminal = false := by
  intro l hl
  rcases List.mem_append.mp hl with hl | hl
  · exact h l hl
  · cases List.mem_singleton.mp hl
    rfl

theorem not_terminal_placedOrder (k : Nat) :
    ∀ l ∈ (placedOrder k).lifecycle, l.status.isTerminal = false := by
  intro l hl
  cases List.mem_singleton.mp hl
  rfl

theorem failAt_ne_self (k : Nat) (o : Order) : o.failAt k ≠ o := by
  intro h
  have hlength := congrArg (fun o => o.lifecycle.length) h
  simp [Order.failAt, Order.pushStatus] at hlength

section
variable {contracts : ContractAddresses} {params : ProtocolParams} {n k : Nat}

/-- Once the block after the placement has reached a node, the order has failed there. -/
theorem Follower.OnChain.getElem?_failingChain {f : Follower}
    (h : f.OnChain contracts params (failingChain contracts n k)) (hk : k + 2 ≤ f.heads)
    (hn : f.heads ≤ n) :
    f.node.store.orders[(default : Hash)]? = some ((placedOrder k).failAt k) := by
  have hfull := fullAfter_take_failingChain contracts n k hk hn
  have hsurvives := survives_of_limit hfull rfl (not_terminal_failAt (not_terminal_placedOrder k) k)
  rw [h.follows.thinned.eq_of_survives (hsurvives _ _)]
  exact hfull

/-- A node that has accepted the placement replays the block in which the order fails. -/
theorem Follows.getElem?_replay_failingChain {fresh booted : Node} {restored : Store}
    {full : Map Hash Order} {replayed : Nat} {o : Order}
    (h : Follows fresh.contracts fresh.params (failingChain fresh.contracts n k) full (k + 1)
      restored) (hn : n < UInt64.size) (hk : k + 2 ≤ n)
    (ho : restored.orders[(default : Hash)]? = some o) (hlimit : o.kind = .limit)
    (hlife : ∀ l ∈ o.lifecycle, l.status.isTerminal = false)
    (hreplay : (fresh.withStore restored).replay (failingChain fresh.contracts n k)
      (some restored.lastAcceptedBlock) = .ok (booted, replayed)) :
    booted.store.orders[(default : Hash)]? = some (o.failAt k) := by
  have hchain := orderlyChain_failingChain fresh.contracts n k hn
  have hlength : (failingChain fresh.contracts n k).length = n := by simp [failingChain]
  have hledger := foldlM_afterBlock_failingBlock fresh.contracts fresh.params k (List.range n)
    .empty
  obtain ⟨booted', replayed', hreplay', -, -, hsettled⟩ := Node.replay_of_follows
    ⟨h.indexed, .refl _, h.ledgers, h.last_eq⟩ hchain (by omega) hledger
  rw [hreplay] at hreplay'
  cases hreplay'
  have hfull : (fullAfter fresh.contracts restored.orders
      ((failingChain fresh.contracts n k).drop (k + 1)))[(default : Hash)]? =
        some (o.failAt k) := by
    rw [fullAfter_drop_failingChain _ _ _ hk, ho]
    rfl
  have hsurvives := survives_of_limit hfull hlimit (not_terminal_failAt hlife k)
  exact (hsettled (by omega) _ _).mpr ⟨hfull, hsurvives _ _⟩

end

/-- A snapshot of a node that a later block has reached makes a node that disagrees, on a chain
where an order fails in that block. -/
theorem not_bootstrapAgrees_of_ahead {fresh : Node} (hfresh : fresh.store = .empty) {n : Nat}
    (hn : n < UInt64.size) {before after : List Arrival}
    (hpaced : Paced n 0 0 (before ++ .accepted :: after))
    (hahead : before.count .head ≠ before.count .accepted + 1) :
    ¬BootstrapAgrees fresh (failingChain fresh.contracts n (before.count .accepted)) before
      after := by
  intro hagrees
  have hlength : (failingChain fresh.contracts n (before.count .accepted)).length = n := by
    simp [failingChain]
  have hchain := orderlyChain_failingChain fresh.contracts n (before.count .accepted) hn
  rw [← hlength] at hpaced
  obtain ⟨taken, live, htaken, hlive⟩ := Follower.exists_snapshotRun hfresh hchain hpaced
    (foldlM_afterBlock_failingBlock fresh.contracts fresh.params _ (List.range n) .empty)
  obtain ⟨hon, hon', ⟨hheads, haccepts⟩, ⟨hle, hle'⟩, hend, -⟩ :=
    Follower.onChain_snapshotRun hfresh hchain hpaced htaken hlive
  have hfailed := hon.getElem?_failingChain (by omega) (by omega)
  have hfailed' := hon'.getElem?_failingChain (by omega) (by omega)
  obtain ⟨restored, booted, replayed, hrecover, hreplay, hdata, -⟩ :=
    hagrees taken live htaken hlive _ (Storage.latest_singleton ⟨_, _⟩)
  obtain ⟨restored', hrecover', hindexed, hdata'⟩ :=
    hon.recover hchain (Storage.latest_singleton ⟨_, _⟩)
  rw [hrecover'] at hrecover
  cases hrecover
  have hstart := hon.follows.of_data hindexed hdata'
  rw [haccepts] at hstart
  have horders : restored.orders = taken.node.store.orders := congrArg StoreData.orders hdata'
  have hlast : restored.lastAcceptedBlock = taken.node.store.lastAcceptedBlock :=
    congrArg StoreData.lastAcceptedBlock hdata'
  rw [← hlast] at hreplay
  rw [← horders] at hfailed
  have hbooted := hstart.getElem?_replay_failingChain hn (by omega) hfailed rfl
    (not_terminal_failAt (not_terminal_placedOrder _) _) hreplay
  rw [congrArg StoreData.orders hdata, hfailed'] at hbooted
  exact failAt_ne_self _ _ (Option.some.inj hbooted).symm

/-- A node that starts from a snapshot agrees with the node that took it, on every orderly chain,
just when no later block had come to the head of the chain by then. -/
theorem bootstrap_agrees_iff_head_abreast {fresh : Node} (hfresh : fresh.store = .empty) {n : Nat}
    (hn : n < UInt64.size) {before after : List Arrival}
    (hpaced : Paced n 0 0 (before ++ .accepted :: after)) :
    (∀ chain, OrderlyChain fresh.contracts chain → chain.length = n →
      BootstrapAgrees fresh chain before after) ↔
        before.count .head = before.count .accepted + 1 := by
  constructor
  · intro hall
    by_contra hahead
    refine not_bootstrapAgrees_of_ahead hfresh hn hpaced hahead (hall _ ?_ ?_)
    · exact orderlyChain_failingChain _ _ _ hn
    · simp [failingChain]
  · rintro habreast chain hchain rfl
    exact Follower.bootstrapAgrees_of_abreast hfresh hpaced hchain habreast

/-- The node of a service with default settings. -/
def defaultNode : Node := Service.freshNode default (.memory ∅)

theorem bootstrap_agrees_in_lockstep :
    defaultNode.store = .empty ∧ 2 < UInt64.size ∧
      Paced 2 0 0 ([.head] ++ .accepted :: [.head, .accepted]) ∧
        ∀ chain, OrderlyChain defaultNode.contracts chain → chain.length = 2 →
          BootstrapAgrees defaultNode chain [.head] [.head, .accepted] := by
  have hpaced : Paced 2 0 0 ([.head] ++ .accepted :: [.head, .accepted]) := by
    simp [Paced]
  exact ⟨rfl, by decide, hpaced,
    (bootstrap_agrees_iff_head_abreast rfl (by decide) hpaced).mpr rfl⟩

/-- Two blocks come to the head of the chain before the first is accepted. The order that is placed
in the first fails in the second, and fails once more when the second is replayed. -/
theorem bootstrap_repeats_failure :
    OrderlyChain defaultNode.contracts (failingChain defaultNode.contracts 2 0) ∧
      Paced 2 0 0 ([.head, .head] ++ .accepted :: [.accepted]) ∧
        ¬BootstrapAgrees defaultNode (failingChain defaultNode.contracts 2 0) [.head, .head]
          [.accepted] := by
  have hpaced : Paced 2 0 0 ([.head, .head] ++ .accepted :: [.accepted]) := by
    simp [Paced]
  exact ⟨orderlyChain_failingChain _ _ _ (by decide), hpaced,
    not_bootstrapAgrees_of_ahead rfl (by decide) hpaced (by decide)⟩

end PerpExchange
