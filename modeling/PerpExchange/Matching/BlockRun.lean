import PerpExchange.Matching.Candidates
import PerpExchange.Store.Sweep

/-!
One run for a block. Funding and premium sampling are asked for when they are due. Then orders are
cancelled where a trader is short of margin, positions are liquidated, and what is left of each
market is crossed. All of it works on copies: the store learns of the outcome from the logs of the
transactions, and only remembers that sampling was tried.
-/

namespace PerpExchange

/-- What a run did, and how many instructions wait after it. -/
structure RunOutcome where
  block : BlockNumber
  fundingSubmitted : Bool
  sampleSubmitted : Bool
  cancellations : Nat
  liquidations : Nat
  matchings : Nat
  failures : Nat
  queued : Nat
  deriving DecidableEq

/-- The most orders one submission cancels. -/
def maxCancelBatch : Nat := 30

/-- How many seconds lie between two attempts at sampling. -/
def sampleRetrySeconds : UInt64 := 5

/-- Items in turn, in groups of a size, but at least one; the last group may be smaller. -/
def batches {α : Type} (size : Nat) : List α → List (List α)
  | [] => []
  | x :: rest => (x :: rest.take (size - 1)) :: batches size (rest.drop (size - 1))
  termination_by items => items.length
  decreasing_by
    simp only [List.length_drop, List.length_cons]
    omega

/-- No item is lost, and none changes its place. -/
theorem flatten_batches {α : Type} (size : Nat) (items : List α) :
    (batches size items).flatten = items := by
  induction items using batches.induct size with
  | case1 => simp [batches]
  | case2 x rest ih => rw [batches, List.flatten_cons, ih]; simp [List.take_append_drop]

theorem length_of_mem_batches {α : Type} {size : Nat} {items batch : List α}
    (h : batch ∈ batches size items) : batch.length ≤ max size 1 := by
  induction items using batches.induct size with
  | case1 => simp [batches] at h
  | case2 x rest ih =>
    rw [batches, List.mem_cons] at h
    obtain rfl | h := h
    · rw [List.length_cons, List.length_take]; omega
    · exact ih h

namespace Store

/-- A time of zero is not set. -/
def fundingDue (s : Store) (now : Timestamp) : Bool :=
  s.nextFundingTime ≠ 0 && s.nextFundingTime ≤ now

def sampleDue (s : Store) (now : Timestamp) : Bool :=
  s.nextSampleTime ≠ 0 && s.nextSampleTime ≤ now &&
    sampleRetrySeconds ≤ now.since s.sampleAttemptedTime

/-- The store after a run at a time. -/
def noteSampling (s : Store) (now : Timestamp) : Store :=
  if s.sampleDue now then { s with sampleAttemptedTime := now } else s

end Store

variable {σ : Type}

/-- Submits what is due, and answers whether it was taken. -/
def submitIfDue (executor : Executor σ) (due : Bool) (s : Submission) : RunM σ Bool :=
  if due then RunM.submit executor s else return false

/-- Submits the cancellation of some orders, and answers which of them are being cancelled. -/
def cancelBatch (executor : Executor σ) (orders : List Order) : RunM σ (List Hash) := do
  if ← RunM.submit executor (.cancelOrders orders) then
    modify fun r => { r with metrics := r.metrics.add .cancelSubmitted orders.length }
    return orders.map Order.id
  else return []

def cancelAll (executor : Executor σ) : List (List Order) → RunM σ (List Hash)
  | [] => return []
  | batch :: rest => do
    let cancelled ← cancelBatch executor batch
    return cancelled ++ (← cancelAll executor rest)

/-- The books of the active markets, in the order in which those are named. -/
def Configuration.inTurn (config : Configuration) (books : Map MarketId WorkingBook) :
    List (MarketId × WorkingBook) :=
  config.activeMarkets.filterMap fun m => books[m]?.map fun book => (m, book)

theorem Configuration.getElem?_of_mem_inTurn {config : Configuration}
    {books : Map MarketId WorkingBook} {e : MarketId × WorkingBook} (h : e ∈ config.inTurn books) :
    books[e.1]? = some e.2 := by
  obtain ⟨m, -, hm⟩ := List.mem_filterMap.mp h
  obtain ⟨book, hbook, rfl⟩ := Option.map_eq_some_iff.mp hm
  exact hbook

/-- Crosses the books of some markets in turn. -/
def crossMarkets (executor : Executor σ) (margin : MarginTerms) (config : Configuration) :
    List (MarketId × WorkingBook) → RunM σ Unit
  | [] => return
  | (m, book) :: rest => do
    let upperBound := (config.acceptableBounds m).upperLimit?
    let _ ← crossAll ⟨executor, margin, upperBound⟩ book.longs book.shorts
    crossMarkets executor margin config rest

/-- The run for a block at a time. -/
def runBlock (executor : Executor σ) (config : Configuration) (s : Store) (block : BlockNumber)
    (now : Timestamp) : RunM σ RunOutcome := do
  modify fun r => { r with desk := executor.purge r.desk }
  let fundingSubmitted ← submitIfDue executor (s.fundingDue now) .settleFunding
  let sampleSubmitted ← submitIfDue executor (s.sampleDue now) .samplePremium
  let found ← s.sweep config.toRiskState
  modify fun r => { r with availableMargin := found.availableMargin }
  let cancelled ← cancelAll executor (found.ordersToCancel.values.flatMap (batches maxCancelBatch))
  let margin : MarginTerms := ⟨config.minAllowableMargin, config.takerFee⟩
  let books ← s.workingBooks config block now cancelled
  let books ← liquidateAll ⟨executor, margin, config.liquidationBounds⟩ found.liquidable books
  crossMarkets executor margin config (config.inTurn books)
  RunM.count .pipelineRun
  let r ← get
  return {
    block, fundingSubmitted, sampleSubmitted
    cancellations := cancelled.length
    liquidations := r.liquidationCount
    matchings := r.matchCount
    failures := r.failures
    queued := executor.queued r.desk }

/-- What runs work on: the store, the parameters of the protocol, and the executor in a state. -/
structure Engine (σ : Type) where
  executor : Executor σ
  params : ProtocolParams
  store : Store
  metrics : Metrics
  desk : σ

namespace Engine

/-- The engine after a run that ended in a state. -/
def afterRun (e : Engine σ) (now : Timestamp) (r : RunState σ) : Engine σ :=
  { e with store := e.store.noteSampling now, metrics := r.metrics, desk := r.desk }

/-- Runs for a block. What a run has done before a fault stays done. -/
def run (e : Engine σ) (block : BlockNumber) (now : Timestamp) : Engine σ × Checked RunOutcome :=
  match (runBlock e.executor e.params.configuration e.store block now).run
      (.start ∅ e.metrics e.desk) with
  | .ok outcome r => (e.afterRun now r, .ok outcome)
  | .error fault r => (e.afterRun now r, .error fault)

end Engine

end PerpExchange
