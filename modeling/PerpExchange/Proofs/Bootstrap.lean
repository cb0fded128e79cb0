import PerpExchange.Proofs.Following
import PerpExchange.Proofs.Recovery

/-! A node that starts from a snapshot and replays the accepted blocks after it, beside the node
that took the snapshot and went on. -/
namespace PerpExchange

/-- What reaches a node next: the next block at the head of the chain, or the next accepted one. -/
inductive Arrival where
  | head
  | accepted
  deriving DecidableEq

/-- Whether a schedule brings all that is left of a number of blocks, each at the head of the
chain before it is accepted. -/
def Paced (blocks : Nat) : Nat → Nat → List Arrival → Prop
  | heads, accepts, [] => heads = blocks ∧ accepts = blocks
  | heads, accepts, .head :: rest => heads < blocks ∧ Paced blocks (heads + 1) accepts rest
  | heads, accepts, .accepted :: rest => accepts < heads ∧ Paced blocks heads (accepts + 1) rest

/-- A node, and how many blocks have reached it at the head of the chain and as accepted ones. -/
structure Follower where
  node : Node
  heads : Nat
  accepts : Nat

namespace Follower

def receive (chain : List ChainBatch) (f : Follower) : Arrival → Checked Follower
  | .head =>
    match chain[f.heads]? with
    | none => return f
    | some b => do
      let (node, _) ← f.node.takeBatch { b with accepted := false }
      return { f with node, heads := f.heads + 1 }
  | .accepted =>
    match chain[f.accepts]? with
    | none => return f
    | some b => do
      let (node, _) ← f.node.takeBatch b
      return { f with node, accepts := f.accepts + 1 }

def run (chain : List ChainBatch) (f : Follower) (schedule : List Arrival) : Checked Follower :=
  schedule.foldlM (receive chain) f

end Follower

/-- Whether a node that starts from the snapshot that another one takes during a schedule, and
replays the accepted blocks after it, ends with the store of the other. The snapshot is taken when
the block between the two parts of the schedule is accepted. -/
def BootstrapAgrees (fresh : Node) (chain : List ChainBatch) (before after : List Arrival) : Prop :=
  ∀ taken live : Follower, Follower.run chain ⟨fresh, 0, 0⟩ (before ++ [.accepted]) = .ok taken →
    taken.run chain after = .ok live → ∀ storage : Storage,
      storage.latest =
          .ok ⟨taken.node.store.lastAcceptedBlock, taken.node.store.snapshot.toBytes⟩ →
        ∃ (restored : Store) (booted : Node) (replayed : Nat),
          Store.empty.recover storage =
              .ok (restored, .ok (some taken.node.store.lastAcceptedBlock)) ∧
            (fresh.withStore restored).replay chain
                (some taken.node.store.lastAcceptedBlock) = .ok (booted, replayed) ∧
              booted.store.toStoreData = live.node.store.toStoreData ∧
                ∀ m, booted.store.book m = live.node.store.book m

namespace Node
variable {n n' : Node} {b : ChainBatch} {removed : Nat}

theorem takeBatch_head (n : Node) (b : ChainBatch) :
    n.takeBatch { b with accepted := false } = .ok (n.takeHead b.logs, 0) := rfl

theorem takeBatch_eq_ok (hb : b.accepted = true) (h : n.takeBatch b = .ok (n', removed)) :
    ∃ i', n.intake.acceptedLogs n.contracts n.params b.logs false = .ok i' ∧
      n'.store = (i'.store.accept b.block b.time).1 ∧ n'.contracts = n.contracts ∧
        n'.params = n.params := by
  simp only [takeBatch, takeAccepted, hb, Bool.not_true, Bool.false_eq_true, if_false,
    Checked.bind_eq_ok] at h
  rcases h with ⟨m, ⟨i', hi, hm⟩, h⟩
  cases hm
  cases h
  exact ⟨i', hi, rfl, rfl, rfl⟩

theorem takeBatch_ok (hb : b.accepted = true) {i' : Intake}
    (hi : n.intake.acceptedLogs n.contracts n.params b.logs false = .ok i') :
    ∃ r, n.takeBatch b = .ok r := by
  simp only [takeBatch, takeAccepted, hb, Bool.not_true, Bool.false_eq_true, if_false, hi]
  exact ⟨_, rfl⟩

end Node

namespace Follower
variable {contracts : ContractAddresses} {params : ProtocolParams} {chain : List ChainBatch}
  {f f' : Follower}

/-- A node that follows a chain from an empty store. -/
structure OnChain (contracts : ContractAddresses) (params : ProtocolParams)
    (chain : List ChainBatch) (f : Follower) : Prop where
  contracts_eq : f.node.contracts = contracts
  params_eq : f.node.params = params
  follows : Follows contracts params chain (fullAfter contracts ∅ (chain.take f.heads)) f.accepts
    f.node.store
  settled : f.heads = f.accepts → SettledBy chain f.accepts
    (fullAfter contracts ∅ (chain.take f.heads)) f.node.store.orders

theorem onChain_fresh {fresh : Node} (h : fresh.store = .empty) :
    OnChain fresh.contracts fresh.params chain ⟨fresh, 0, 0⟩ where
  contracts_eq := rfl
  params_eq := rfl
  follows := by
    rw [h]
    exact follows_empty _ _ _
  settled := fun _ id o => by
    rw [h]
    simp [Store.empty, fullAfter]

theorem fullAfter_take_succ {i : Nat} {b : ChainBatch} (hb : chain[i]? = some b) :
    fullAfter contracts ∅ (chain.take (i + 1)) =
      fullAfter contracts (fullAfter contracts ∅ (chain.take i)) [b] := by
  rw [List.take_add_one, hb, Option.toList_some, fullAfter, List.foldl_append]
  rfl

theorem OnChain.receive_head (h : f.OnChain contracts params chain)
    (hchain : OrderlyChain contracts chain) (hle : f.accepts ≤ f.heads)
    (hlt : f.heads < chain.length) (hd : f.receive chain .head = .ok f') :
    f'.OnChain contracts params chain ∧ f'.heads = f.heads + 1 ∧ f'.accepts = f.accepts := by
  obtain ⟨b, hb⟩ : ∃ b, chain[f.heads]? = some b := ⟨_, List.getElem?_eq_getElem hlt⟩
  simp only [receive, hb, Node.takeBatch_head, Checked.ok_bind, Checked.pure_eq] at hd
  cases hd
  refine ⟨⟨h.contracts_eq, h.params_eq, ?_, fun heq => ?_⟩, rfl, rfl⟩
  · have hhead := Follows.head (i := f.node.intake) h.follows hchain hle hb
    rw [fullAfter_take_succ hb]
    show Follows contracts params chain _ f.accepts
      (f.node.intake.headLogs f.node.contracts b.logs).store
    rw [h.contracts_eq]
    exact hhead
  · have heq : f.heads + 1 = f.accepts := heq
    omega

theorem OnChain.receive_accepted (h : f.OnChain contracts params chain)
    (hchain : OrderlyChain contracts chain) (hlt : f.accepts < chain.length)
    (hd : f.receive chain .accepted = .ok f') :
    f'.OnChain contracts params chain ∧ f'.heads = f.heads ∧ f'.accepts = f.accepts + 1 := by
  obtain ⟨b, hb⟩ : ∃ b, chain[f.accepts]? = some b := ⟨_, List.getElem?_eq_getElem hlt⟩
  simp only [receive, hb, Checked.bind_eq_ok] at hd
  rcases hd with ⟨⟨n, removed⟩, hn, hd⟩
  cases hd
  obtain ⟨i', hi, hstore, hcontracts, hparams⟩ :=
    Node.takeBatch_eq_ok (hchain.accepted b (List.mem_of_getElem? hb)) hn
  rw [h.contracts_eq, h.params_eq] at hi
  obtain ⟨hfollows, hsettled⟩ := Follows.accept (i := f.node.intake) h.follows hchain hb hi
  rw [← hstore] at hfollows hsettled
  exact ⟨⟨hcontracts.trans h.contracts_eq, hparams.trans h.params_eq, hfollows,
    fun _ => hsettled⟩, rfl, rfl⟩

/-- A node stays on its chain along a schedule. -/
theorem OnChain.run {schedule rest : List Arrival} (h : f.OnChain contracts params chain)
    (hchain : OrderlyChain contracts chain)
    (hpaced : Paced chain.length f.heads f.accepts (schedule ++ rest)) (hle : f.accepts ≤ f.heads)
    (hheads : f.heads ≤ chain.length) (hrun : f.run chain schedule = .ok f') :
    f'.OnChain contracts params chain ∧ Paced chain.length f'.heads f'.accepts rest ∧
      f'.accepts ≤ f'.heads ∧ f'.heads ≤ chain.length ∧
        f'.heads = f.heads + schedule.count .head ∧
          f'.accepts = f.accepts + schedule.count .accepted := by
  induction schedule generalizing f with
  | nil =>
    cases hrun
    exact ⟨h, hpaced, hle, hheads, rfl, rfl⟩
  | cons d schedule ih =>
    simp only [Follower.run, List.foldlM_cons, Checked.bind_eq_ok] at hrun
    rcases hrun with ⟨g, hg, hrun⟩
    cases d with
    | head =>
      rcases hpaced with ⟨hlt, hpaced⟩
      obtain ⟨hon, hgh, hga⟩ := h.receive_head hchain hle hlt hg
      rw [← hgh, ← hga] at hpaced
      obtain ⟨hon, hpaced, hle, hheads, hcount, hcount'⟩ :=
        ih hon hpaced (by omega) (by omega) hrun
      refine ⟨hon, hpaced, hle, hheads, ?_, ?_⟩
      · rw [hcount, hgh, List.count_cons_self]
        omega
      · rw [hcount', hga, List.count_cons_of_ne (by decide)]
    | accepted =>
      rcases hpaced with ⟨hlt, hpaced⟩
      obtain ⟨hon, hgh, hga⟩ := h.receive_accepted hchain (by omega) hg
      rw [← hgh, ← hga] at hpaced
      obtain ⟨hon, hpaced, hle, hheads, hcount, hcount'⟩ :=
        ih hon hpaced (by omega) (by omega) hrun
      refine ⟨hon, hpaced, hle, hheads, ?_, ?_⟩
      · rw [hcount, hgh, List.count_cons_of_ne (by decide)]
      · rw [hcount', hga, List.count_cons_self]
        omega

end Follower

namespace Intake
variable {contracts : ContractAddresses} {params : ProtocolParams} {chain : List ChainBatch}

def replayBatch (contracts : ContractAddresses) (params : ProtocolParams)
    (after : Option BlockNumber) (x : Intake × Nat) (b : ChainBatch) : Checked (Intake × Nat) := do
  if !b.accepted || after.any fun a => b.block ≤ a then return x
  let i ← (x.1.headLogs contracts b.logs).acceptedLogs contracts params b.logs true
  return ({ i with store := (i.store.accept b.block b.time).1 }, x.2 + 1)

theorem replay_eq_foldlM (i : Intake) (batches : List ChainBatch) (after : Option BlockNumber) :
    i.replay contracts params batches after =
      batches.foldlM (replayBatch contracts params after) (i, 0) := rfl

theorem replayBatch_of_le {x : Intake × Nat} {b : ChainBatch} {a : BlockNumber}
    (h : b.block ≤ a) : replayBatch contracts params (some a) x b = .ok x := by
  simp [replayBatch, h]

theorem foldlM_replayBatch_of_le {x : Intake × Nat} {batches : List ChainBatch} {a : BlockNumber}
    (h : ∀ b ∈ batches, b.block ≤ a) :
    batches.foldlM (replayBatch contracts params (some a)) x = .ok x := by
  induction batches with
  | nil => rfl
  | cons b batches ih =>
    rw [List.foldlM_cons, replayBatch_of_le (h b List.mem_cons_self), Checked.ok_bind]
    exact ih fun c hc => h c (List.mem_cons_of_mem _ hc)

theorem replayBatch_of_lt {x : Intake × Nat} {b : ChainBatch} {a : BlockNumber}
    (hb : b.accepted = true) (h : a < b.block) {i : Intake}
    (hi : (x.1.headLogs contracts b.logs).acceptedLogs contracts params b.logs true = .ok i) :
    replayBatch contracts params (some a) x b =
      .ok ({ i with store := (i.store.accept b.block b.time).1 }, x.2 + 1) := by
  simp [replayBatch, hb, UInt64.not_le.mpr h, hi]

end Intake

theorem foldlM_take_ok {α β : Type} {f : β → α → Checked β} {start last : β} {l : List α}
    (h : l.foldlM f start = .ok last) (k : Nat) : ∃ mid, (l.take k).foldlM f start = .ok mid := by
  rw [← List.take_append_drop k l, List.foldlM_append, Checked.bind_eq_ok] at h
  rcases h with ⟨mid, hmid, -⟩
  exact ⟨mid, hmid⟩

/-- The blocks that are left are replayed to the end, if the ledgers go as far. -/
theorem Follows.replay {contracts : ContractAddresses} {params : ProtocolParams}
    {chain rest : List ChainBatch} {full : Map Hash Order} {accepts : Nat} {x : Intake × Nat}
    (h : Follows contracts params chain full accepts x.1.store)
    (hchain : OrderlyChain contracts chain) (hrest : chain.drop accepts = rest) {ledger : Store}
    (hledger : chain.foldlM (Store.afterBlock contracts params) .empty = .ok ledger)
    {a : BlockNumber} (ha : a.toNat ≤ accepts) :
    ∃ x' : Intake × Nat, rest.foldlM (Intake.replayBatch contracts params (some a)) x = .ok x' ∧
      Follows contracts params chain (fullAfter contracts full rest) (accepts + rest.length)
          x'.1.store ∧
        (rest = [] → x' = x) ∧ (rest ≠ [] → SettledBy chain (accepts + rest.length)
          (fullAfter contracts full rest) x'.1.store.orders) := by
  induction rest generalizing full accepts x with
  | nil => exact ⟨x, rfl, h, fun _ => rfl, fun hne => absurd rfl hne⟩
  | cons b rest ih =>
    have hb : chain[accepts]? = some b := by
      rw [← Nat.add_zero accepts, ← List.getElem?_drop, hrest, List.getElem?_cons_zero]
    have hrest' : chain.drop (accepts + 1) = rest := by
      rw [← List.drop_drop, hrest, List.drop_one, List.tail_cons]
    have hlt : a < b.block := by
      rw [UInt64.lt_iff_toNat_lt, hchain.numbered hb]
      omega
    have hhead := h.head hchain (Nat.le_refl _) hb
    obtain ⟨mid, hmid⟩ := foldlM_take_ok hledger (accepts + 1)
    obtain ⟨i, hi⟩ := hhead.acceptedLogs_eq_ok hb true hmid
    obtain ⟨hfollows, hsettled⟩ := hhead.accept hchain hb hi
    obtain ⟨x', hx', hend, hnil, hne⟩ := ih
      (x := ({ i with store := (i.store.accept b.block b.time).1 }, x.2 + 1)) hfollows hrest'
      (by omega)
    refine ⟨x', ?_, ?_, fun h => (by cases h), fun _ => ?_⟩
    · rw [List.foldlM_cons, Intake.replayBatch_of_lt
        (hchain.accepted b (List.mem_of_getElem? hb)) hlt hi, Checked.ok_bind]
      exact hx'
    · rw [List.length_cons, ← Nat.add_assoc, Nat.add_right_comm]
      exact hend
    · rw [List.length_cons, ← Nat.add_assoc, Nat.add_right_comm]
      cases rest with
      | nil =>
        rw [hnil rfl]
        exact hsettled
      | cons c rest => exact hne (by simp)

/-- A node that has accepted the first blocks of a chain replays the others. -/
theorem Node.replay_of_follows {fresh : Node} {chain : List ChainBatch} {restored : Store}
    {full : Map Hash Order} {accepts : Nat}
    (h : Follows fresh.contracts fresh.params chain full accepts restored)
    (hchain : OrderlyChain fresh.contracts chain) (hall : accepts ≤ chain.length) {ledger : Store}
    (hledger : chain.foldlM (Store.afterBlock fresh.contracts fresh.params) .empty = .ok ledger) :
    ∃ (booted : Node) (replayed : Nat),
      (fresh.withStore restored).replay chain (some restored.lastAcceptedBlock) =
          .ok (booted, replayed) ∧
        Follows fresh.contracts fresh.params chain
            (fullAfter fresh.contracts full (chain.drop accepts)) chain.length booted.store ∧
          (accepts = chain.length → booted.store = restored) ∧
            (accepts < chain.length → SettledBy chain chain.length
              (fullAfter fresh.contracts full (chain.drop accepts)) booted.store.orders) := by
  have hlast := hchain.acceptedUpTo_eq hall
  rw [← h.last_eq] at hlast
  obtain ⟨x, hx, hfollows, hnil, hne⟩ := Follows.replay
    (x := ({ fresh.intake with store := restored }, 0)) h hchain rfl hledger (Nat.le_of_eq hlast)
  have hlength : accepts + (chain.drop accepts).length = chain.length := by
    rw [List.length_drop]
    omega
  rw [hlength] at hfollows hne
  have hskip : ∀ b ∈ chain.take accepts, b.block ≤ restored.lastAcceptedBlock := by
    intro b hb
    obtain ⟨i, hi, rfl⟩ := List.mem_take_iff_getElem.mp hb
    rw [UInt64.le_iff_toNat_le, hlast, hchain.numbered (List.getElem?_eq_getElem (by omega))]
    omega
  have hreplay : (fresh.withStore restored).intake.replay fresh.contracts fresh.params chain
      (some restored.lastAcceptedBlock) = .ok x := by
    rw [Intake.replay_eq_foldlM, ← List.take_append_drop accepts chain, List.foldlM_append,
      Intake.foldlM_replayBatch_of_le hskip, Checked.ok_bind]
    exact hx
  refine ⟨{ fresh with intake := x.1 }, x.2, ?_, hfollows, fun heq => ?_, fun hlt => hne ?_⟩
  · unfold Node.replay
    have hcontracts : (fresh.withStore restored).contracts = fresh.contracts := rfl
    have hparams : (fresh.withStore restored).params = fresh.params := rfl
    rw [hcontracts, hparams, hreplay]
    rfl
  · rw [show ({ fresh with intake := x.1 } : Node).store = x.1.store from rfl,
      hnil (List.drop_eq_nil_of_le (Nat.le_of_eq heq.symm))]
  · intro hdrop
    have := List.drop_eq_nil_iff.mp hdrop
    omega

namespace Follower
variable {contracts : ContractAddresses} {params : ProtocolParams} {chain : List ChainBatch}
  {f f' : Follower}

/-- The snapshot of a node on an orderly chain can be restored from. -/
theorem OnChain.recover (h : f.OnChain contracts params chain)
    (hchain : OrderlyChain contracts chain) {storage : Storage}
    (hlatest : storage.latest =
      .ok ⟨f.node.store.lastAcceptedBlock, f.node.store.snapshot.toBytes⟩) :
    ∃ restored, Store.empty.recover storage =
        .ok (restored, .ok (some f.node.store.lastAcceptedBlock)) ∧ restored.Indexed ∧
      restored.toStoreData = f.node.store.toStoreData := by
  have hnone : ∀ (id : Hash) (o : Order), (∅ : Map Hash Order)[id]? = some o → False := by simp
  refine Store.recover_snapshot h.follows.indexed (fun id o ho => ?_) (fun id o ho => ?_) hlatest _
  · have hfull : AllWellFormed (fullAfter contracts ∅ (chain.take f.heads)) :=
      AllWellFormed.fullAfter (fun id o ho => (hnone id o ho).elim) _
    exact hfull id o (h.follows.thinned.eq_of_some ho)
  · have hfull : AllSized (fullAfter contracts ∅ (chain.take f.heads)) :=
      AllSized.fullAfter (fun id o ho => (hnone id o ho).elim) fun b hb =>
        hchain.logs b (List.mem_of_mem_take hb)
    exact hfull id o (h.follows.thinned.eq_of_some ho)

/-- A node on a chain takes every block of a schedule, if the ledgers go as far. -/
theorem OnChain.exists_run {schedule : List Arrival} (h : f.OnChain contracts params chain)
    (hchain : OrderlyChain contracts chain)
    (hpaced : Paced chain.length f.heads f.accepts schedule) (hle : f.accepts ≤ f.heads)
    (hheads : f.heads ≤ chain.length) {ledger : Store}
    (hledger : chain.foldlM (Store.afterBlock contracts params) .empty = .ok ledger) :
    ∃ f', f.run chain schedule = .ok f' := by
  induction schedule generalizing f with
  | nil => exact ⟨f, rfl⟩
  | cons a schedule ih =>
    have hrun : ∀ g : Follower, f.receive chain a = .ok g →
        f.run chain (a :: schedule) = g.run chain schedule := by
      intro g hg
      rw [Follower.run, List.foldlM_cons, hg, Checked.ok_bind]
      rfl
    cases a with
    | head =>
      rcases hpaced with ⟨hlt, hpaced⟩
      obtain ⟨b, hb⟩ : ∃ b, chain[f.heads]? = some b := ⟨_, List.getElem?_eq_getElem hlt⟩
      obtain ⟨g, hg⟩ : ∃ g, f.receive chain .head = .ok g := by
        simp only [Follower.receive, hb, Node.takeBatch_head]
        exact ⟨_, rfl⟩
      obtain ⟨hon, hgh, hga⟩ := h.receive_head hchain hle hlt hg
      rw [← hgh, ← hga] at hpaced
      obtain ⟨f', hf'⟩ := ih hon hpaced (by omega) (by omega)
      exact ⟨f', (hrun g hg).trans hf'⟩
    | accepted =>
      rcases hpaced with ⟨hlt, hpaced⟩
      obtain ⟨b, hb⟩ : ∃ b, chain[f.accepts]? = some b :=
        ⟨_, List.getElem?_eq_getElem (by omega)⟩
      obtain ⟨mid, hmid⟩ := foldlM_take_ok hledger (f.accepts + 1)
      obtain ⟨i', hi⟩ := Follows.acceptedLogs_eq_ok (i := f.node.intake) h.follows hb false hmid
      rw [← h.contracts_eq, ← h.params_eq] at hi
      obtain ⟨r, hr⟩ := Node.takeBatch_ok (hchain.accepted b (List.mem_of_getElem? hb)) hi
      obtain ⟨g, hg⟩ : ∃ g, f.receive chain .accepted = .ok g := by
        simp only [Follower.receive, hb, hr]
        exact ⟨_, rfl⟩
      obtain ⟨hon, hgh, hga⟩ := h.receive_accepted hchain (by omega) hg
      rw [← hgh, ← hga] at hpaced
      obtain ⟨f', hf'⟩ := ih hon hpaced (by omega) (by omega)
      exact ⟨f', (hrun g hg).trans hf'⟩

/-- A schedule of a whole chain is taken to its end, with a snapshot on the way. -/
theorem exists_snapshotRun {fresh : Node} (hfresh : fresh.store = .empty)
    (hchain : OrderlyChain fresh.contracts chain) {before after : List Arrival}
    (hpaced : Paced chain.length 0 0 (before ++ .accepted :: after)) {ledger : Store}
    (hledger : chain.foldlM (Store.afterBlock fresh.contracts fresh.params) .empty = .ok ledger) :
    ∃ taken live : Follower, run chain ⟨fresh, 0, 0⟩ (before ++ [.accepted]) = .ok taken ∧
      taken.run chain after = .ok live := by
  obtain ⟨live, hlive⟩ := (onChain_fresh hfresh).exists_run hchain hpaced (Nat.le_refl _)
    (Nat.zero_le _) hledger
  rw [List.append_cons, run, List.foldlM_append, Checked.bind_eq_ok] at hlive
  rcases hlive with ⟨taken, htaken, hlive⟩
  exact ⟨taken, live, htaken, hlive⟩

/-- The node that takes a snapshot on the way through a whole chain, then and at the end. -/
theorem onChain_snapshotRun {fresh : Node} (hfresh : fresh.store = .empty)
    (hchain : OrderlyChain fresh.contracts chain) {before after : List Arrival}
    (hpaced : Paced chain.length 0 0 (before ++ .accepted :: after)) {taken live : Follower}
    (htaken : run chain ⟨fresh, 0, 0⟩ (before ++ [.accepted]) = .ok taken)
    (hlive : taken.run chain after = .ok live) :
    taken.OnChain fresh.contracts fresh.params chain ∧
      live.OnChain fresh.contracts fresh.params chain ∧
        (taken.heads = before.count .head ∧ taken.accepts = before.count .accepted + 1) ∧
          (taken.accepts ≤ taken.heads ∧ taken.heads ≤ chain.length) ∧
            live.heads = chain.length ∧ live.accepts = chain.length := by
  rw [List.append_cons] at hpaced
  obtain ⟨hon, hpaced, hle, hheads, hcount, hcount'⟩ := (onChain_fresh hfresh).run hchain hpaced
    (Nat.le_refl _) (Nat.zero_le _) htaken
  rw [← List.append_nil after] at hpaced
  obtain ⟨hon', ⟨hend, hend'⟩, -, -, -, -⟩ := hon.run hchain hpaced hle hheads hlive
  refine ⟨hon, hon', ⟨?_, ?_⟩, ⟨hle, hheads⟩, hend, hend'⟩
  · simpa [List.count_singleton] using hcount
  · simpa [List.count_singleton] using hcount'

/-- A snapshot of a node that no later block has reached makes a node that agrees. -/
theorem bootstrapAgrees_of_abreast {fresh : Node} (hfresh : fresh.store = .empty)
    {before after : List Arrival}
    (hpaced : Paced chain.length 0 0 (before ++ .accepted :: after))
    (hchain : OrderlyChain fresh.contracts chain)
    (habreast : before.count .head = before.count .accepted + 1) :
    BootstrapAgrees fresh chain before after := by
  intro taken live htaken hlive storage hlatest
  obtain ⟨hon, hon', ⟨hheads, haccepts⟩, ⟨hle, hle'⟩, hend, hend'⟩ :=
    onChain_snapshotRun hfresh hchain hpaced htaken hlive
  have habreast' : taken.heads = taken.accepts := by omega
  have hall : taken.accepts ≤ chain.length := by omega
  obtain ⟨restored, hrecover, hindexed, hdata⟩ := hon.recover hchain hlatest
  have hstart := hon.follows.of_data hindexed hdata
  obtain ⟨ledger, hledger, -⟩ := hon'.follows.ledgers
  rw [hend', List.take_length] at hledger
  obtain ⟨booted, replayed, hreplay, hbooted, hsame, hsettled⟩ :=
    Node.replay_of_follows hstart hchain hall hledger
  have hblock : restored.lastAcceptedBlock = taken.node.store.lastAcceptedBlock :=
    congrArg StoreData.lastAcceptedBlock hdata
  have hfull : fullAfter fresh.contracts (fullAfter fresh.contracts ∅ (chain.take taken.heads))
      (chain.drop taken.accepts) = fullAfter fresh.contracts ∅ chain := by
    rw [habreast', fullAfter, fullAfter, ← List.foldl_append, List.take_append_drop]
    rfl
  have hsettled' : SettledBy chain chain.length (fullAfter fresh.contracts ∅ chain)
      booted.store.orders := by
    rw [hfull] at hsettled
    rcases Nat.lt_or_ge taken.accepts chain.length with hlt | hge
    · exact hsettled hlt
    · have heq : taken.accepts = chain.length := by omega
      have hon := hon.settled habreast'
      rw [habreast', heq, List.take_length] at hon
      rw [hsame heq, hdata]
      exact hon
  rw [hfull] at hbooted
  have hlive' := hon'.follows
  have hlivesettled := hon'.settled (by omega)
  rw [hend, hend', List.take_length] at hlive' hlivesettled
  have hdata' := hbooted.data_eq hlive' hsettled' hlivesettled
  rw [hblock] at hreplay
  exact ⟨restored, booted, replayed, hrecover, hreplay, hdata',
    hbooted.indexed.book_eq hlive'.indexed (congrArg StoreData.orders hdata')⟩

end Follower

end PerpExchange
