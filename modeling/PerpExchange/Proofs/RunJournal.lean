import PerpExchange.Proofs.Map
import PerpExchange.Proofs.RunSteps

/-! What a run submits before it trades: what is due, and the cancellations. -/
namespace PerpExchange

/-- Whether a submission trades: it fills orders if it is accepted. -/
def Submission.Trades : Submission → Prop
  | .matchOrders .. | .liquidate .. => True
  | .cancelOrders _ | .settleFunding | .samplePremium => False

section
variable {σ : Type} {executor : Executor σ} {r r₁ r₂ r' : RunState σ}

theorem submitIfDue_journal {due taken : Bool} {x : Submission}
    (h : (submitIfDue executor due x).run r = .ok taken r') :
    ∃ j, r'.journal = r.journal ++ j ∧ ∀ y ∈ j, y.submission = x := by
  unfold submitIfDue at h
  split at h
  · refine ⟨_, RunM.submit_journal h, fun y hy => ?_⟩
    rw [List.mem_singleton.mp hy]
  · obtain ⟨-, rfl⟩ := RunM.pure_ok.mp h
    exact ⟨[], (List.append_nil _).symm, fun y hy => absurd hy List.not_mem_nil⟩

/-- The orders of a batch are being cancelled if its submission was accepted. -/
theorem cancelBatch_journal {batch : List Order} {ids : List Hash}
    (h : (cancelBatch executor batch).run r = .ok ids r') :
    ∃ accepted, r'.journal = r.journal ++ [⟨.cancelOrders batch, accepted⟩] ∧
      ids = if accepted then batch.map Order.id else [] := by
  obtain ⟨accepted, r₁, hs, h⟩ := RunM.bind_ok.mp h
  have hj := RunM.submit_journal hs
  refine ⟨accepted, ?_⟩
  cases accepted with
  | true =>
    obtain ⟨_, r₂, hm, h⟩ := RunM.bind_ok.mp h
    cases RunM.modify_ok.mp hm
    obtain ⟨rfl, rfl⟩ := RunM.pure_ok.mp h
    exact ⟨hj, rfl⟩
  | false =>
    obtain ⟨rfl, rfl⟩ := RunM.pure_ok.mp h
    exact ⟨hj, rfl⟩

/-- Each batch is submitted, and the orders that are being cancelled are those of the accepted
ones. -/
theorem cancelAll_journal {batches : List (List Order)} {ids : List Hash}
    (h : (cancelAll executor batches).run r = .ok ids r') :
    ∃ j, r'.journal = r.journal ++ j ∧
      j.map Receipt.submission = batches.map Submission.cancelOrders ∧
      ids = (j.filter Receipt.accepted).flatMap fun x => x.submission.orders.map Order.id := by
  induction batches generalizing r ids with
  | nil =>
    obtain ⟨rfl, rfl⟩ := RunM.pure_ok.mp h
    exact ⟨[], (List.append_nil _).symm, rfl, rfl⟩
  | cons batch rest ih =>
    obtain ⟨cancelled, r₁, hb, h⟩ := RunM.bind_ok.mp h
    obtain ⟨others, r₂, hr, h⟩ := RunM.bind_ok.mp h
    obtain ⟨rfl, rfl⟩ := RunM.pure_ok.mp h
    obtain ⟨accepted, hj, rfl⟩ := cancelBatch_journal hb
    obtain ⟨j, hj', hbatches, rfl⟩ := ih hr
    refine ⟨⟨.cancelOrders batch, accepted⟩ :: j, ?_, ?_, ?_⟩
    · rw [hj', hj, List.append_assoc, List.singleton_append]
    · rw [List.map_cons, hbatches, List.map_cons]
    · cases accepted <;> rfl

/-- What a run submits before it trades. -/
inductive Notice (found : SweepResult) : Submission → Prop
  | funding : Notice found .settleFunding
  | sample : Notice found .samplePremium
  | cancellation {a : Address} {orders batch : List Order}
    (ha : found.ordersToCancel[a]? = some orders) (hb : batch ∈ batches maxCancelBatch orders) :
    Notice found (.cancelOrders batch)

theorem Notice.not_trades {found : SweepResult} {x : Submission} (h : Notice found x) :
    ¬ x.Trades := by
  cases h <;> exact id

/-- What a run submits before it trades: what is due, and then the cancellations batch by batch. The
orders that are being cancelled after it are those of the accepted batches. -/
structure Announces (found : SweepResult) (due cancels : List Receipt) (cancelled : List Hash) :
    Prop where
  due_eq : ∀ x ∈ due, x.submission = .settleFunding ∨ x.submission = .samplePremium
  cancels_eq : cancels.map Receipt.submission =
    (found.ordersToCancel.values.flatMap (batches maxCancelBatch)).map Submission.cancelOrders
  cancelled_eq : cancelled =
    (cancels.filter Receipt.accepted).flatMap fun x => x.submission.orders.map Order.id

theorem announces_journal {found : SweepResult} {fundingDue sampleDue funding sample : Bool}
    {margins : Map Address Amount} {cancelled : List Hash}
    (hfunding : (submitIfDue executor fundingDue .settleFunding).run r = .ok funding r₁)
    (hsample : (submitIfDue executor sampleDue .samplePremium).run r₁ = .ok sample r₂)
    (hcancel : (cancelAll executor
      (found.ordersToCancel.values.flatMap (batches maxCancelBatch))).run
        { r₂ with availableMargin := margins } = .ok cancelled r') :
    ∃ due cancels, r'.journal = r.journal ++ (due ++ cancels) ∧
      Announces found due cancels cancelled := by
  obtain ⟨j₁, hj₁, hx₁⟩ := submitIfDue_journal hfunding
  obtain ⟨j₂, hj₂, hx₂⟩ := submitIfDue_journal hsample
  obtain ⟨cancels, hj, hbatches, hcancelled⟩ := cancelAll_journal hcancel
  have hj : r'.journal = r₂.journal ++ cancels := hj
  refine ⟨j₁ ++ j₂, cancels, ?_, List.forall_mem_append.mpr ⟨?_, ?_⟩, hbatches, hcancelled⟩
  · rw [hj, hj₂, hj₁, List.append_assoc, List.append_assoc, List.append_assoc]
  · exact fun x hx => .inl (hx₁ x hx)
  · exact fun x hx => .inr (hx₂ x hx)

namespace Announces
variable {found : SweepResult} {due cancels : List Receipt} {cancelled : List Hash}

theorem notice (h : Announces found due cancels cancelled) :
    ∀ x ∈ due ++ cancels, Notice found x.submission := by
  intro x hx
  rcases List.mem_append.mp hx with hx | hx
  · rcases h.due_eq x hx with he | he <;> rw [he]
    · exact .funding
    · exact .sample
  · have hx : x.submission ∈ _ := List.mem_map_of_mem hx
    rw [h.cancels_eq] at hx
    obtain ⟨batch, hb, hx⟩ := List.mem_map.mp hx
    obtain ⟨orders, ho, hb⟩ := List.mem_flatMap.mp hb
    obtain ⟨a, ha⟩ := Map.mem_values.mp ho
    rw [← hx]
    exact .cancellation ha hb

theorem exists_cancellation (h : Announces found due cancels cancelled) {a : Address}
    {orders batch : List Order} (ha : found.ordersToCancel[a]? = some orders)
    (hb : batch ∈ batches maxCancelBatch orders) :
    ∃ x ∈ cancels, x.submission = .cancelOrders batch ∧
      (x.accepted → ∀ o ∈ batch, o.id ∈ cancelled) := by
  have hmem : Submission.cancelOrders batch ∈ cancels.map Receipt.submission := by
    rw [h.cancels_eq]
    exact List.mem_map_of_mem (List.mem_flatMap.mpr ⟨orders, Map.mem_values.mpr ⟨a, ha⟩, hb⟩)
  obtain ⟨x, hx, hsub⟩ := List.mem_map.mp hmem
  refine ⟨x, hx, hsub, fun haccepted o ho => ?_⟩
  rw [h.cancelled_eq]
  refine List.mem_flatMap.mpr ⟨x, List.mem_filter.mpr ⟨hx, haccepted⟩, ?_⟩
  rw [hsub]
  exact List.mem_map_of_mem ho

end Announces

/-- The notices of a run, and the orders that are being cancelled after them. -/
theorem notices_journal {found : SweepResult} {fundingDue sampleDue funding sample : Bool}
    {margins : Map Address Amount} {cancelled : List Hash}
    (hfunding : (submitIfDue executor fundingDue .settleFunding).run r = .ok funding r₁)
    (hsample : (submitIfDue executor sampleDue .samplePremium).run r₁ = .ok sample r₂)
    (hcancel : (cancelAll executor
      (found.ordersToCancel.values.flatMap (batches maxCancelBatch))).run
        { r₂ with availableMargin := margins } = .ok cancelled r') :
    ∃ j, r'.journal = r.journal ++ j ∧ ∀ x ∈ j, Notice found x.submission := by
  obtain ⟨due, cancels, hj, hannounces⟩ := announces_journal hfunding hsample hcancel
  exact ⟨due ++ cancels, hj, hannounces.notice⟩

end
end PerpExchange
