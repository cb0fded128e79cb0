import PerpExchange.Proofs.RunCompletion
import PerpExchange.Proofs.RunJournal
import PerpExchange.Proofs.SweepFindings
import PerpExchange.Proofs.Submissions
import PerpExchange.Proofs.WorkingBooks

/-! Orders that are being cancelled stay out of the trades of a run, also of one that stops at a
fault. One whose cancellation is refused does not. -/
namespace PerpExchange

section
open RunM
variable {σ : Type} {s : Store} {executor : Executor σ} {config : Configuration}
variable {block : BlockNumber} {now : Timestamp} {r : RunState σ} {found : SweepResult}

theorem Store.holdOnly_workingBooks {cancelled : List Hash} {books : Map MarketId WorkingBook}
    (h : s.workingBooks config block now cancelled = .ok books) :
    HoldOnly (fun id => id ∉ cancelled) books :=
  fun _ _ hb _ _ ho => (workingBooks_enter h hb ho).not_cancelled

/-- What a run leaves in its journal, whichever way it ends: what it announces, and then trades of
orders that are not being cancelled. If it ends well, it counts those that are. -/
theorem runBlock_announces (executor : Executor σ) (block : BlockNumber) (now : Timestamp)
    (hsweep : s.sweep config.toRiskState = .ok found) (r : RunState σ) :
    ∃ (cancelled : List Hash) (due cancels trades : List Receipt),
      ((runBlock executor config s block now).left r).journal =
        r.journal ++ (due ++ (cancels ++ trades)) ∧
      Announces found due cancels cancelled ∧
      (∀ x ∈ trades, x.submission.TradesOnly fun id => id ∉ cancelled) ∧
      ∀ outcome r', (runBlock executor config s block now).run r = .ok outcome r' →
        outcome.cancellations = cancelled.length := by
  -- Up to the cancellations no step can stop at a fault, so these hold whichever way the run ends.
  obtain ⟨funding, r₁, hfunding, -⟩ : Yields
    (submitIfDue executor (s.fundingDue now) .settleFunding)
      { r with desk := executor.purge r.desk } fun _ _ => True := yields_submitIfDue _ _
  obtain ⟨sample, r₂, hsample, -⟩ : Yields
    (submitIfDue executor (s.sampleDue now) .samplePremium) r₁ fun _ _ => True :=
      yields_submitIfDue _ _
  obtain ⟨cancelled, r₃, hcancel, -⟩ : Yields
    (cancelAll executor (found.ordersToCancel.values.flatMap (batches maxCancelBatch)))
      { r₂ with availableMargin := found.availableMargin } fun _ _ => True := yields_cancelAll _
  obtain ⟨due, cancels, hj, hannounces⟩ := announces_journal hfunding hsample hcancel
  have hrest : ∃ rest : RunM σ RunOutcome,
      (runBlock executor config s block now).run r = rest.run r₃ ∧
      Submits rest (Submission.TradesOnly fun id => id ∉ cancelled)
        fun outcome => outcome.cancellations = cancelled.length := by
    unfold runBlock
    rw [run_modify_bind, run_bind_of_ok hfunding, run_bind_of_ok hsample,
      run_bind_of_ok (lift_ok.mpr ⟨hsweep, rfl⟩), run_modify_bind, run_bind_of_ok hcancel]
    refine ⟨_, rfl, ?_⟩
    apply (submits_lift (Q := HoldOnly fun id => id ∉ cancelled) fun books hbooks =>
      Store.holdOnly_workingBooks hbooks).bind
    intro books hbooks
    apply (submits_liquidateAll _ _ hbooks).bind
    intro books' hbooks'
    refine (submits_crossMarkets _ _ _ fun e he => ?_).andThen fun _ => ?_
    · exact hbooks' e.1 e.2 (Configuration.getElem?_of_mem_inTurn he)
    refine (submits_count _).andThen fun _ => ?_
    exact submits_get.andThen fun _ => submits_pure rfl
  obtain ⟨rest, hrun, hrest⟩ := hrest
  obtain ⟨⟨trades, hj', htrades⟩, hcount⟩ := hrest r₃
  refine ⟨cancelled, due, cancels, trades, ?_, hannounces, htrades, fun outcome r' h => ?_⟩
  · rw [left, hrun, ← left, hj', hj]
    simp only [List.append_assoc]
  · exact hcount outcome r' (hrun ▸ h)

/-- The notices in that journal, and what they cancel. -/
theorem runBlock_left (executor : Executor σ) (block : BlockNumber) (now : Timestamp)
    (hsweep : s.sweep config.toRiskState = .ok found) (r : RunState σ) :
    ∃ cancelled : List Hash, ∃ notices trades,
      ((runBlock executor config s block now).left r).journal = r.journal ++ (notices ++ trades) ∧
      (∀ x ∈ notices, Notice found x.submission) ∧
      (∀ (a : Address) (orders : List Order), found.ordersToCancel[a]? = some orders →
        ∀ batch ∈ batches maxCancelBatch orders, ∃ x ∈ notices,
          x.submission = .cancelOrders batch ∧ (x.accepted → ∀ o ∈ batch, o.id ∈ cancelled)) ∧
      ∀ x ∈ trades, ∀ o ∈ x.submission.orders, o.id ∉ cancelled := by
  obtain ⟨cancelled, due, cancels, trades, hj, hannounces, htrades, -⟩ :=
    runBlock_announces executor block now hsweep r
  refine ⟨cancelled, due ++ cancels, trades, by rw [hj, List.append_assoc], hannounces.notice,
    fun a orders ha batch hb => ?_, fun x hx => (htrades x hx).names⟩
  obtain ⟨x, hx, hcancels⟩ := hannounces.exists_cancellation ha hb
  exact ⟨x, List.mem_append_right _ hx, hcancels⟩

/-- An order that the sweep has selected is named in no trade of the run unless its cancellation is
refused, whichever way the run ends. -/
theorem runBlock_cancelled_orders_stay_out {metrics : Metrics} {desk : σ}
    (hsweep : s.sweep config.toRiskState = .ok found) {a : Address} {orders : List Order} {o : Order}
    (ha : found.ordersToCancel[a]? = some orders) (ho : o ∈ orders)
    (haccepted : ∀ x ∈ ((runBlock executor config s block now).left
      (.start ∅ metrics desk)).journal, ∀ batch, x.submission = .cancelOrders batch → o ∈ batch →
        x.accepted = true) :
    ∀ x ∈ ((runBlock executor config s block now).left (.start ∅ metrics desk)).journal,
      x.submission.Trades → ∀ w ∈ x.submission.orders, w.id ≠ o.id := by
  obtain ⟨cancelled, notices, trades, hj, hnotices, hselected, htrades⟩ :=
    runBlock_left executor block now hsweep (.start ∅ metrics desk)
  have hj : ((runBlock executor config s block now).left (.start ∅ metrics desk)).journal =
    notices ++ trades := hj
  rw [hj] at haccepted ⊢
  have hcancelled : o.id ∈ cancelled := by
    rw [← flatten_batches maxCancelBatch orders] at ho
    obtain ⟨batch, hb, ho⟩ := List.mem_flatten.mp ho
    obtain ⟨x, hx, hsub, hids⟩ := hselected a orders ha batch hb
    exact hids (haccepted x (List.mem_append_left _ hx) batch hsub ho) o ho
  intro x hx htrade w hw hid
  rcases List.mem_append.mp hx with hx | hx
  · exact (hnotices x hx).not_trades htrade
  · exact htrades x hx w hw (hid ▸ hcancelled)

end

namespace Store

/-- Two longs and a short of one unit, once the first buyer, who has no funds, has some reserved. -/
def overdrawn : Store :=
  (((oneLong.quote 3 3 1000000000000000000 false).quote 2 2
    (.clamp (-1000000000000000000)) false).updateReserved default 1).1

theorem ingested_overdrawn : overdrawn.Ingested :=
  ((ingested_oneLong.quote 3 3 1000000000000000000 false).quote 2 2
    (.clamp (-1000000000000000000)) false).applyAccepted default oneMarket
      (.marginAccount (.marginReserved default 1)) (default : ContractAddresses).marginAccount 1 2
      (by decide) rfl

/-- The order of that buyer. -/
def unfundedLong : Order :=
  .place default (.limit ⟨⟨0, default, 1000000000000000000, 20000000, 1, false⟩, false⟩) 1

theorem sweep_overdrawn : ∃ found, overdrawn.sweep (.ofParams oneMarket) = .ok found ∧
    found.ordersToCancel[(default : Address)]? = some [unfundedLong] := by
  have hselected : (match overdrawn.sweep (.ofParams oneMarket) with
    | .ok found => found.ordersToCancel[(default : Address)]?
    | .error _ => none) = some [unfundedLong] := by decide +kernel
  split at hselected
  next found h => exact ⟨found, h, hselected⟩
  next => cases hselected

end Store

/-- The order is cancelled, and the other long trades with the short. -/
theorem unfundedLong_stays_out :
    Store.overdrawn.Ingested ∧ ∃ found,
      Store.overdrawn.sweep (.ofParams oneMarket) = .ok found ∧
      found.ordersToCancel[(default : Address)]? = some [Store.unfundedLong] ∧
      (((runBlock Desk.executor oneMarket.configuration Store.overdrawn 3 0).left
        (.start ∅ default default)).journal.map fun x => (x.submission.kind, x.accepted)) =
          [("cancel", true), ("match", true)] ∧
      ∀ x ∈ ((runBlock Desk.executor oneMarket.configuration Store.overdrawn 3 0).left
        (.start ∅ default default)).journal,
          x.submission.Trades → ∀ w ∈ x.submission.orders, w.id ≠ Store.unfundedLong.id := by
  obtain ⟨found, hsweep, ha⟩ := Store.sweep_overdrawn
  have haccepted : ((runBlock Desk.executor oneMarket.configuration Store.overdrawn 3 0).left
      (.start ∅ default default)).journal.all Receipt.accepted = true := by decide +kernel
  refine ⟨Store.ingested_overdrawn, found, hsweep, ha, by decide +kernel, ?_⟩
  exact runBlock_cancelled_orders_stay_out hsweep ha (List.mem_singleton_self _)
    fun x hx batch _ _ => List.all_eq_true.mp haccepted x hx

/-- Where the desk refuses to cancel it, the order is the one that trades. -/
theorem unfundedLong_matched_as_cancellation_refused :
    Store.overdrawn.Ingested ∧ ∃ found short,
      Store.overdrawn.sweep (.ofParams oneMarket) = .ok found ∧
      found.ordersToCancel[(default : Address)]? = some [Store.unfundedLong] ∧
      ((runBlock Desk.executor oneMarket.configuration Store.overdrawn 3 0).left
        (.start ∅ default { (default : Desk) with refusedKinds := ["cancel"] })).journal =
          [⟨.cancelOrders [Store.unfundedLong], false⟩,
            ⟨.matchOrders Store.unfundedLong short 1000000000000000000, true⟩] := by
  obtain ⟨found, hsweep, ha⟩ := Store.sweep_overdrawn
  refine ⟨Store.ingested_overdrawn, found, .place (Bytes.ofWord 32 2) (.limit ⟨⟨0, Bytes.ofWord 20 2,
    .clamp (-1000000000000000000), 20000000, 1, false⟩, false⟩) 1, hsweep, ha, ?_⟩
  decide +kernel

end PerpExchange
