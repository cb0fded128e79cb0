import PerpExchange.Proofs.Positions

/-! The two streams that feed a store: what comes to the head of the chain, and what blocks hold
once they are accepted. Each reads and writes a half of the store of its own, so that the store does
not show how one was delayed against the other. -/
namespace PerpExchange

/-- The half of a store that is settled at the head of the chain. -/
structure OrderHalf where
  orders : Map Hash Order
  books : Map MarketId Book
  lastAcceptedBlock : BlockNumber

/-- The half of a store that is settled by the logs of accepted blocks. -/
structure LedgerHalf where
  traders : Map Address Trader
  lastPrice : Map MarketId Amount
  cumulativePremium : Map MarketId Amount
  nextFundingTime : Timestamp
  nextSampleTime : Timestamp
  sampleAttemptedTime : Timestamp

/-- What the head stream brings: logs at the head of the chain, or word that a block is accepted. -/
inductive HeadStep where
  | logs (logs : List Log)
  | accept (block : BlockNumber) (time : Timestamp)

/-- What the accepted stream brings. -/
structure AcceptedStep where
  logs : List Log
  replaying : Bool

/-- The steps of both streams, in the order in which they are taken. -/
abbrev Schedule := List (HeadStep ⊕ AcceptedStep)

namespace Schedule

def heads (schedule : Schedule) : List HeadStep := schedule.filterMap Sum.getLeft?

def accepteds (schedule : Schedule) : List AcceptedStep := schedule.filterMap Sum.getRight?

end Schedule

namespace Intake
variable (contracts : ContractAddresses) (params : ProtocolParams)

def takeHead (i : Intake) : HeadStep → Intake
  | .logs logs => i.headLogs contracts logs
  | .accept block time => { i with store := (i.store.accept block time).1 }

def takeAccepted (i : Intake) (a : AcceptedStep) : Checked Intake :=
  i.acceptedLogs contracts params a.logs a.replaying

def take (i : Intake) : HeadStep ⊕ AcceptedStep → Checked Intake
  | .inl h => return i.takeHead contracts h
  | .inr a => i.takeAccepted contracts params a

/-- Takes the steps of a schedule in turn, up to the first that faults. -/
def run (i : Intake) (schedule : Schedule) : Checked Intake :=
  schedule.foldlM (take contracts params) i

end Intake

namespace Store
variable (contracts : ContractAddresses) (params : ProtocolParams) (s t : Store)

def orderHalf : OrderHalf := ⟨s.orders, s.books, s.lastAcceptedBlock⟩

def ledgerHalf : LedgerHalf :=
  ⟨s.traders, s.lastPrice, s.cumulativePremium, s.nextFundingTime, s.nextSampleTime,
    s.sampleAttemptedTime⟩

@[simp] theorem orderHalf_withLedgersOf : (t.withLedgersOf s).orderHalf = t.orderHalf := rfl

@[simp] theorem ledgerHalf_withLedgersOf : (t.withLedgersOf s).ledgerHalf = s.ledgerHalf := rfl

/-- A store is its two halves. -/
theorem withLedgersOf_eq {s t u : Store} (ho : t.orderHalf = u.orderHalf)
    (hl : s.ledgerHalf = u.ledgerHalf) : t.withLedgersOf s = u := by
  rcases s with ⟨⟨_, _, _, _, _, _, _, _⟩, _⟩
  rcases t with ⟨⟨_, _, _, _, _, _, _, _⟩, _⟩
  rcases u with ⟨⟨_, _, _, _, _, _, _, _⟩, _⟩
  cases ho
  cases hl
  rfl

theorem delete_withLedgersOf (id : Hash) :
    (t.withLedgersOf s).delete id = ((t.delete id).1.withLedgersOf s, (t.delete id).2) := by
  have horders : (t.withLedgersOf s).orders = t.orders := rfl
  unfold delete
  rw [horders]
  cases t.orders[id]? <;> rfl

theorem placeOrDelete_withLedgersOf (id : Hash) (raw : RawOrder) (l : Log) :
    (t.withLedgersOf s).placeOrDelete id raw l =
      ((t.placeOrDelete id raw l).1.withLedgersOf s, (t.placeOrDelete id raw l).2) := by
  unfold placeOrDelete
  split
  · exact delete_withLedgersOf s t id
  · rfl

theorem setOrRevertStatus_withLedgersOf (id : Hash) (status : OrderStatus) (info : String)
    (l : Log) : (t.withLedgersOf s).setOrRevertStatus id status info l =
      (t.setOrRevertStatus id status info l).withLedgersOf s := by
  have horders : (t.withLedgersOf s).orders = t.orders := rfl
  unfold setOrRevertStatus revertStatus? setStatus?
  rw [horders]
  cases t.orders[id]? <;> split <;> rfl

theorem fill_withLedgersOf (delta : Amount) (id : Hash) (block : BlockNumber) :
    (t.withLedgersOf s).fill delta id block =
      ((t.fill delta id block).1.withLedgersOf s, (t.fill delta id block).2) := by
  have horders : (t.withLedgersOf s).orders = t.orders := rfl
  unfold fill
  rw [horders]
  cases t.orders[id]? with
  | none => rfl
  | some o =>
    simp only
    cases o.fillBy? delta block <;> rfl

theorem fillOrders_withLedgersOf (ids : List Hash) (amount : Amount) (l : Log) :
    (t.withLedgersOf s).fillOrders ids amount l =
      ((t.fillOrders ids amount l).1.withLedgersOf s, (t.fillOrders ids amount l).2) := by
  unfold fillOrders
  split
  next => rfl
  next delta _ =>
    generalize ([] : List Counter) = counters
    induction ids generalizing t counters with
    | nil => rfl
    | cons id ids ih =>
      simp only [List.foldl_cons, fill_withLedgersOf]
      exact ih _ _

/-- What an event at the head of the chain does is settled by the orders. -/
theorem applyHead_withLedgersOf (e : ContractEvent) (l : Log) :
    (t.withLedgersOf s).applyHead e l =
      ((t.applyHead e l).1.withLedgersOf s, (t.applyHead e l).2) := by
  cases e with
  | orderBook e =>
    cases e with
    | orderPlaced trader id order time => exact placeOrDelete_withLedgersOf ..
    | orderAccepted trader id order time => exact placeOrDelete_withLedgersOf ..
    | orderCancelled trader id time =>
      exact congrArg (·, []) (setOrRevertStatus_withLedgersOf ..)
    | cancelAccepted trader id time =>
      exact congrArg (·, []) (setOrRevertStatus_withLedgersOf ..)
    | ordersMatched long short amount price time => exact fillOrders_withLedgersOf ..
    | liquidationMatched trader id amount price time => exact fillOrders_withLedgersOf ..
    | matchingError id info => exact congrArg (·, []) (setOrRevertStatus_withLedgersOf ..)
  | iocOrderBook e =>
    cases e with
    | orderPlaced trader id order time => exact placeOrDelete_withLedgersOf ..
  | marginAccount e => rfl
  | clearingHouse e => rfl

/-- A store after a log at the head of the chain. -/
def afterHead (l : Log) : Store :=
  match readLog contracts l Intake.isOrderBook with
  | .error _ => s
  | .ok e => (s.applyHead e l).1

theorem afterHead_withLedgersOf (l : Log) :
    (t.withLedgersOf s).afterHead contracts l = (t.afterHead contracts l).withLedgersOf s := by
  unfold afterHead
  cases readLog contracts l Intake.isOrderBook with
  | error counters => rfl
  | ok e => exact congrArg Prod.fst (applyHead_withLedgersOf s t e l)

theorem deleteAll_withLedgersOf (ids : List Hash) :
    (t.withLedgersOf s).deleteAll ids = (t.deleteAll ids).withLedgersOf s := by
  induction ids generalizing t with
  | nil => rfl
  | cons id ids ih =>
    have hdelete := congrArg Prod.fst (delete_withLedgersOf s t id)
    exact (congrArg (·.deleteAll ids) hdelete).trans (ih (t.delete id).1)

theorem accept_withLedgersOf (block : BlockNumber) (time : Timestamp) :
    ((t.withLedgersOf s).accept block time).1 = (t.accept block time).1.withLedgersOf s := by
  have hbooks : (t.withLedgersOf s).books = t.books := rfl
  have horders : (t.withLedgersOf s).orders = t.orders := rfl
  have hlast : (t.withLedgersOf s).lastAcceptedBlock = t.lastAcceptedBlock := rfl
  unfold accept
  simp only [hbooks, horders, hlast, deleteAll_withLedgersOf]
  rfl

/-- A store after a step of the head stream. -/
def afterHeadStep : HeadStep → Store
  | .logs logs => (Intake.headOrder logs).foldl (afterHead contracts) s
  | .accept block time => (s.accept block time).1

theorem afterHeadStep_withLedgersOf (h : HeadStep) :
    (t.withLedgersOf s).afterHeadStep contracts h =
      (t.afterHeadStep contracts h).withLedgersOf s := by
  cases h with
  | accept block time => exact accept_withLedgersOf s t block time
  | logs logs =>
    unfold afterHeadStep
    simp only
    induction Intake.headOrder logs generalizing t with
    | nil => rfl
    | cons l logs ih =>
      rw [List.foldl_cons, afterHead_withLedgersOf]
      exact ih _

/-- A store after a step of the accepted stream. -/
def afterAcceptedStep (a : AcceptedStep) : Checked Store :=
  (a.logs.mergeSort Log.before).foldlM (afterAccepted contracts params) s

theorem afterAcceptedStep_withLedgersOf (a : AcceptedStep) :
    (t.withLedgersOf s).afterAcceptedStep contracts params a =
      (s.afterAcceptedStep contracts params a).map (t.withLedgersOf ·) :=
  foldlM_afterAccepted_withLedgersOf t s contracts params _

def afterStep : HeadStep ⊕ AcceptedStep → Checked Store
  | .inl h => return s.afterHeadStep contracts h
  | .inr a => s.afterAcceptedStep contracts params a

/-- A run of both streams is that of the head stream on the orders, and that of the accepted stream
on the ledgers. -/
theorem foldlM_afterStep_withLedgersOf (schedule : Schedule) :
    schedule.foldlM (afterStep contracts params) (t.withLedgersOf s) =
      (schedule.accepteds.foldlM (afterAcceptedStep contracts params) s).map
        ((schedule.heads.foldl (afterHeadStep contracts) t).withLedgersOf ·) := by
  induction schedule generalizing s t with
  | nil => rfl
  | cons step schedule ih =>
    rw [List.foldlM_cons]
    cases step with
    | inl h =>
      have hstep : (t.withLedgersOf s).afterStep contracts params (.inl h) =
          .ok ((t.afterHeadStep contracts h).withLedgersOf s) :=
        congrArg Except.ok (afterHeadStep_withLedgersOf contracts s t h)
      rw [hstep]
      exact ih s (t.afterHeadStep contracts h)
    | inr a =>
      have haccepteds : Schedule.accepteds (.inr a :: schedule) =
          a :: Schedule.accepteds schedule := rfl
      have hheads : Schedule.heads (.inr a :: schedule) = Schedule.heads schedule := rfl
      have hstep : (t.withLedgersOf s).afterStep contracts params (.inr a) =
          (s.afterAcceptedStep contracts params a).map (t.withLedgersOf ·) :=
        afterAcceptedStep_withLedgersOf contracts params s t a
      rw [hstep, haccepteds, hheads, List.foldlM_cons]
      cases s.afterAcceptedStep contracts params a with
      | error f => rfl
      | ok s' => exact ih s' t

end Store

namespace Intake
variable (contracts : ContractAddresses) (params : ProtocolParams) (i j : Intake)

theorem store_takeHead (h : HeadStep) :
    (i.takeHead contracts h).store = i.store.afterHeadStep contracts h := by
  cases h with
  | accept block time => rfl
  | logs logs =>
    unfold takeHead headLogs Store.afterHeadStep
    simp only
    induction headOrder logs generalizing i with
    | nil => rfl
    | cons l logs ih =>
      have hlog : (headLog contracts i l).store = i.store.afterHead contracts l := by
        unfold headLog Store.afterHead
        cases readLog contracts l isOrderBook with
        | error counters => rfl
        | ok e => exact store_publish ..
      rw [List.foldl_cons, List.foldl_cons, ← hlog]
      exact ih _

theorem store_takeAccepted (a : AcceptedStep) :
    (i.takeAccepted contracts params a).map Intake.store =
      i.store.afterAcceptedStep contracts params a :=
  i.store_acceptedLogs contracts params a.logs a.replaying

theorem store_take (step : HeadStep ⊕ AcceptedStep) :
    (i.take contracts params step).map Intake.store = i.store.afterStep contracts params step := by
  cases step with
  | inl h => exact congrArg Except.ok (i.store_takeHead contracts h)
  | inr a => exact i.store_takeAccepted contracts params a

theorem store_run (schedule : Schedule) :
    (i.run contracts params schedule).map Intake.store =
      schedule.foldlM (Store.afterStep contracts params) i.store := by
  unfold run
  induction schedule generalizing i with
  | nil => rfl
  | cons step schedule ih =>
    rw [List.foldlM_cons, List.foldlM_cons, ← store_take]
    cases i.take contracts params step with
    | error f => rfl
    | ok i' => exact ih i'

/-- The store after a run of both streams, from the two streams apart. -/
theorem store_run_eq (schedule : Schedule) :
    (i.run contracts params schedule).map Intake.store =
      (schedule.accepteds.foldlM (Store.afterAcceptedStep contracts params) i.store).map
        ((schedule.heads.foldl (Store.afterHeadStep contracts) i.store).withLedgersOf ·) := by
  rw [store_run]
  exact Store.foldlM_afterStep_withLedgersOf contracts params i.store i.store schedule

theorem store_takeHead_eq (h : HeadStep) : (i.takeHead contracts h).store =
    (i.store.afterHeadStep contracts h).withLedgersOf i.store := by
  rw [store_takeHead, ← Store.afterHeadStep_withLedgersOf, Store.withLedgersOf_self]

variable {i j}

theorem orderHalf_takeHead (hsame : i.store.orderHalf = j.store.orderHalf) (h : HeadStep) :
    (i.takeHead contracts h).store.orderHalf = (j.takeHead contracts h).store.orderHalf := by
  have hj : i.store.withLedgersOf j.store = j.store := Store.withLedgersOf_eq hsame rfl
  rw [store_takeHead, store_takeHead, ← hj, Store.afterHeadStep_withLedgersOf,
    Store.orderHalf_withLedgersOf]

variable {i' j' : Intake} {a : AcceptedStep}

theorem store_takeAccepted_eq_ok (hi : i.takeAccepted contracts params a = .ok i') :
    i.store.afterAcceptedStep contracts params a = .ok i'.store := by
  rw [← store_takeAccepted, hi]
  rfl

/-- Stores with the same ledgers have the same ledgers after a step of the accepted stream, and keep
their own orders. -/
theorem store_takeAccepted_of_ledgerHalf (hsame : i.store.ledgerHalf = j.store.ledgerHalf)
    (hi : i.takeAccepted contracts params a = .ok i')
    (hj : j.takeAccepted contracts params a = .ok j') :
    j'.store = j.store.withLedgersOf i'.store := by
  have hi' := store_takeAccepted_eq_ok contracts params hi
  have hj' := store_takeAccepted_eq_ok contracts params hj
  have hframe := i.store.afterAcceptedStep_withLedgersOf contracts params j.store a
  rw [Store.withLedgersOf_eq rfl hsame, hi', hj'] at hframe
  exact Except.ok.inj hframe

theorem store_takeAccepted_takeHead (h : HeadStep)
    (hi : i.takeAccepted contracts params a = .ok i')
    (hj : (i.takeHead contracts h).takeAccepted contracts params a = .ok j') :
    j'.store = (i'.takeHead contracts h).store := by
  have hsame : i.store.ledgerHalf = (i.takeHead contracts h).store.ledgerHalf := by
    rw [store_takeHead_eq, Store.ledgerHalf_withLedgersOf]
  rw [store_takeAccepted_of_ledgerHalf contracts params hsame hi hj, store_takeHead,
    ← Store.afterHeadStep_withLedgersOf, ← Store.acceptedLogs_eq_withLedgersOf hi, store_takeHead]

variable (i a)

theorem exists_takeAccepted : ∃ i', i.takeAccepted contracts params a = .ok i' := by
  obtain ⟨i', hi, -⟩ := i.yields_acceptedLogs contracts params a.replaying a.logs
  exact ⟨i', hi⟩

theorem exists_run (schedule : Schedule) : ∃ i', i.run contracts params schedule = .ok i' := by
  unfold run
  induction schedule generalizing i with
  | nil => exact ⟨i, rfl⟩
  | cons step schedule ih =>
    rw [List.foldlM_cons]
    cases step with
    | inl h => exact ih (i.takeHead contracts h)
    | inr a =>
      obtain ⟨i', hi⟩ := i.exists_takeAccepted contracts params a
      rw [take, hi]
      exact ih i'

/-- The two streams do not interfere, and neither ever stops. A step of the head stream leaves the
ledgers alone, and what it makes of the orders is settled by the orders; a step of the accepted
stream leaves the orders alone, and what it makes of the ledgers is settled by the ledgers. So the
steps of one commute with those of the other, and all schedules that interleave the same two streams
end in the same store. -/
theorem streams_separate :
    (∀ (i : Intake) (h : HeadStep),
      (i.takeHead contracts h).store.ledgerHalf = i.store.ledgerHalf) ∧
    (∀ (i j : Intake) (h : HeadStep), i.store.orderHalf = j.store.orderHalf →
      (i.takeHead contracts h).store.orderHalf = (j.takeHead contracts h).store.orderHalf) ∧
    (∀ (i : Intake) (a : AcceptedStep), ∃ i', i.takeAccepted contracts params a = .ok i' ∧
      i'.store.orderHalf = i.store.orderHalf) ∧
    (∀ (i j : Intake) (a : AcceptedStep), i.store.ledgerHalf = j.store.ledgerHalf →
      ∃ i' j', i.takeAccepted contracts params a = .ok i' ∧
        j.takeAccepted contracts params a = .ok j' ∧ i'.store.ledgerHalf = j'.store.ledgerHalf) ∧
    (∀ (i : Intake) (h : HeadStep) (a : AcceptedStep),
      ∃ i' j', i.takeAccepted contracts params a = .ok i' ∧
        (i.takeHead contracts h).takeAccepted contracts params a = .ok j' ∧
        j'.store = (i'.takeHead contracts h).store) ∧
    (∀ (i : Intake) (schedule schedule' : Schedule), schedule.heads = schedule'.heads →
      schedule.accepteds = schedule'.accepteds →
        ∃ i' j', i.run contracts params schedule = .ok i' ∧
          i.run contracts params schedule' = .ok j' ∧ i'.store = j'.store) := by
  refine ⟨?_, ?_, ?_, ?_, ?_, ?_⟩
  · intro i h
    rw [store_takeHead_eq, Store.ledgerHalf_withLedgersOf]
  · intro i j h hsame
    exact orderHalf_takeHead contracts hsame h
  · intro i a
    obtain ⟨i', hi⟩ := i.exists_takeAccepted contracts params a
    refine ⟨i', hi, ?_⟩
    rw [Store.acceptedLogs_eq_withLedgersOf hi, Store.orderHalf_withLedgersOf]
  · intro i j a hsame
    obtain ⟨i', hi⟩ := i.exists_takeAccepted contracts params a
    obtain ⟨j', hj⟩ := j.exists_takeAccepted contracts params a
    refine ⟨i', j', hi, hj, ?_⟩
    rw [store_takeAccepted_of_ledgerHalf contracts params hsame hi hj,
      Store.ledgerHalf_withLedgersOf]
  · intro i h a
    obtain ⟨i', hi⟩ := i.exists_takeAccepted contracts params a
    obtain ⟨j', hj⟩ := (i.takeHead contracts h).exists_takeAccepted contracts params a
    exact ⟨i', j', hi, hj, store_takeAccepted_takeHead contracts params h hi hj⟩
  · intro i schedule schedule' hheads haccepteds
    obtain ⟨i', hi⟩ := i.exists_run contracts params schedule
    obtain ⟨j', hj⟩ := i.exists_run contracts params schedule'
    refine ⟨i', j', hi, hj, ?_⟩
    have hi' := i.store_run_eq contracts params schedule
    have hj' := i.store_run_eq contracts params schedule'
    rw [hi, hheads, haccepteds, ← hj', hj] at hi'
    exact Except.ok.inj hi'

/-- An intake that has taken nothing yet. -/
def blank : Intake := ⟨.empty, default, default, default⟩

def placement : HeadStep :=
  .logs [(default : ContractAddresses).orderBookLog (.orderPlaced default default default 0) 1 0]

def deposit : AcceptedStep :=
  ⟨[(ContractEvent.marginAccount (.marginAdded default 0 5 0)).toLog
    (default : ContractAddresses).marginAccount 1 1], false⟩

theorem afterHeadStep_placement (s : Store) :
    s.afterHeadStep default placement = s.add (.place default (.limit default) 1) := by
  rw [placement, Store.afterHeadStep, headOrder_singleton, List.foldl_cons, List.foldl_nil,
    Store.afterHead, ContractAddresses.readLog_orderBookLog _ _ _ _ rfl]
  rfl

theorem afterAcceptedStep_deposit (s : Store) :
    s.afterAcceptedStep default default deposit = .ok (s.updateMargin default 0 5).1 := by
  rw [deposit, Store.afterAcceptedStep, List.mergeSort_singleton, List.foldlM_cons,
    Store.afterAccepted, readLog_toLog rfl _ _ rfl]
  rfl

/-- A placement and a deposit end in the same store either way round, with one order and one
ledger. -/
theorem placement_and_deposit_separate : ∃ i' j',
    blank.run default default [.inl placement, .inr deposit] = .ok i' ∧
      blank.run default default [.inr deposit, .inl placement] = .ok j' ∧
        i'.store = j'.store ∧ i'.store.orders.size = 1 ∧ i'.store.traders.size = 1 := by
  obtain ⟨i', j', hi, hj, hsame⟩ := (streams_separate default default).2.2.2.2.2 blank
    [.inl placement, .inr deposit] [.inr deposit, .inl placement] rfl rfl
  have hstore := blank.store_run_eq default default [.inl placement, .inr deposit]
  rw [hi] at hstore
  simp only [Schedule.accepteds, Schedule.heads, List.filterMap_cons, List.filterMap_nil,
    Sum.getLeft?, Sum.getRight?, List.foldl_cons, List.foldl_nil, List.foldlM_cons,
    afterHeadStep_placement, afterAcceptedStep_deposit] at hstore
  refine ⟨i', j', hi, hj, hsame, ?_⟩
  rw [Except.ok.inj hstore]
  decide +kernel

end Intake
end PerpExchange
