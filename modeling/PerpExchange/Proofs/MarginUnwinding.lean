import PerpExchange.Proofs.MarginBalances

/-! Balances after logs of accepted blocks, and after the same logs have been taken back. As long as
all that is moved on a balance leaves the range in no order, the balance is a sum. -/
namespace PerpExchange
open Checked

namespace Store
variable (contracts : ContractAddresses) (params : ProtocolParams) (s : Store) (logs : List Log)

theorem fits_of_natAbs_le {n : Int} (h : (n.natAbs : Int) ≤ Amount.greatest.toInt) :
    Amount.Fits n := by
  have hgreatest : Amount.greatest.toInt = 170141183460469231731687303715884105727 := rfl
  exact ⟨by omega, by omega⟩

/-- A balance that has room for all that logs move becomes the sum, however the logs are ordered. -/
theorem yields_foldlM_of_room
    (h : ∀ k, ((s.balance k).toInt.natAbs : Int) + marginMoved contracts k logs ≤
      Amount.greatest.toInt) :
    Yields (logs.foldlM (afterAccepted contracts params) s) fun s' =>
      ∀ k, (s'.balance k).toInt = (s.balance k).toInt + marginChanges contracts k logs := by
  apply yields_foldlM_balances
  · intro k l hl
    have hle := natAbs_marginChange_le contracts k hl
    have hroom := h k
    exact fits_of_natAbs_le (by omega)
  · rintro k front back rfl
    have hle := natAbs_marginChanges_le contracts k front
    have hroom := h k
    rw [marginMoved_append] at hroom
    exact fits_of_natAbs_le (by omega)

/-- So does a balance that had this room before other logs moved it away from there: on the way back
it is as far off as the logs that have not been applied yet. -/
theorem yields_foldlM_of_room_after
    (h : ∀ k, (((s.balance k).toInt + marginChanges contracts k logs).natAbs : Int) +
      marginMoved contracts k logs ≤ Amount.greatest.toInt) :
    Yields (logs.foldlM (afterAccepted contracts params) s) fun s' =>
      ∀ k, (s'.balance k).toInt = (s.balance k).toInt + marginChanges contracts k logs := by
  apply yields_foldlM_balances
  · intro k l hl
    have hle := natAbs_marginChange_le contracts k hl
    have hroom := h k
    exact fits_of_natAbs_le (by omega)
  · rintro k front back rfl
    have hle := natAbs_marginChanges_le contracts k back
    have hroom := h k
    rw [marginMoved_append, marginChanges_append] at hroom
    exact fits_of_natAbs_le (by omega)

end Store

theorem marginChanges_unplaced {contracts : ContractAddresses} {k : MarginBalance}
    (logs : List Log) : marginChanges contracts k (logs.map Log.unplaced) =
      marginChanges contracts k logs := by simp [marginChanges, Function.comp_def]

theorem marginMoved_unplaced {contracts : ContractAddresses} {k : MarginBalance}
    (logs : List Log) : marginMoved contracts k (logs.map Log.unplaced) =
      marginMoved contracts k logs := by simp [marginMoved, Function.comp_def]

theorem marginChanges_flipped {contracts : ContractAddresses} {k : MarginBalance}
    (logs : List Log) : marginChanges contracts k (logs.map Log.flipped) =
      -marginChanges contracts k logs := by
  induction logs with
  | nil => rfl
  | cons l logs ih =>
    simp only [marginChanges, List.map_cons, List.sum_cons, Log.marginChange_flipped] at ih ⊢
    omega

theorem marginMoved_flipped {contracts : ContractAddresses} {k : MarginBalance}
    (logs : List Log) : marginMoved contracts k (logs.map Log.flipped) =
      marginMoved contracts k logs := by
  simp [marginMoved, Function.comp_def]

namespace Intake
variable (contracts : ContractAddresses) (params : ProtocolParams) {i : Intake}

/-- The logs of some steps in the order in which they are applied. -/
def applied (steps : List AcceptedStep) : List Log :=
  steps.flatMap fun a => a.logs.mergeSort Log.before

theorem applied_perm (steps : List AcceptedStep) :
    (applied steps).Perm (steps.flatMap AcceptedStep.logs) := by
  induction steps with
  | nil => exact .nil
  | cons a steps ih => exact (List.mergeSort_perm a.logs Log.before).append ih

theorem store_foldlM_takeAccepted (i : Intake) (steps : List AcceptedStep) :
    (steps.foldlM (takeAccepted contracts params) i).map Intake.store =
      (applied steps).foldlM (Store.afterAccepted contracts params) i.store := by
  induction steps generalizing i with
  | nil => rfl
  | cons a steps ih =>
    have hstep := i.store_takeAccepted contracts params a
    rw [applied, List.flatMap_cons, List.foldlM_append, List.foldlM_cons]
    rw [Store.afterAcceptedStep] at hstep
    rw [← hstep]
    cases i.takeAccepted contracts params a with
    | error fault => rfl
    | ok i' => exact ih i'

/-- What holds of the store that logs lead to holds of the store of the intake that takes them. -/
theorem yields_foldlM_takeAccepted {steps : List AcceptedStep} {P : Store → Prop}
    (h : Yields ((applied steps).foldlM (Store.afterAccepted contracts params) i.store) P) :
    Yields (steps.foldlM (takeAccepted contracts params) i) fun j => P j.store := by
  obtain ⟨s', hs', hP⟩ := h
  rw [← store_foldlM_takeAccepted] at hs'
  cases hrun : steps.foldlM (takeAccepted contracts params) i with
  | error fault => simp [hrun, Except.map] at hs'
  | ok j =>
    simp only [hrun, Except.map, Except.ok.injEq] at hs'
    exact yields_ok (hs' ▸ hP)

theorem foldlM_takeAccepted_singleton (i : Intake) (logs : List Log) (replaying : Bool) :
    [(⟨logs, replaying⟩ : AcceptedStep)].foldlM (takeAccepted contracts params) i =
      i.acceptedLogs contracts params logs replaying := by
  rw [List.foldlM_cons]
  exact bind_pure _

/-- A batch of logs adds up on balances that have room for what it moves. -/
theorem yields_acceptedLogs_of_room (logs : List Log) (replaying : Bool)
    (h : ∀ k, ((i.store.balance k).toInt.natAbs : Int) + marginMoved contracts k logs ≤
      Amount.greatest.toInt) :
    Yields (i.acceptedLogs contracts params logs replaying) fun j =>
      ∀ k, (j.store.balance k).toInt =
        (i.store.balance k).toInt + marginChanges contracts k logs := by
  have hperm : (applied [⟨logs, replaying⟩]).Perm logs := by
    simpa using applied_perm [⟨logs, replaying⟩]
  have hstore := Store.yields_foldlM_of_room contracts params i.store
    (applied [⟨logs, replaying⟩]) fun k => by rw [marginMoved_perm hperm]; exact h k
  rw [← foldlM_takeAccepted_singleton]
  apply (yields_foldlM_takeAccepted contracts params hstore).mono
  intro j hj k
  rw [hj k, marginChanges_perm hperm]

/-- Margin logs add up and unwind. Where every balance has room for all that the logs move on it, a
batch changes each by the sum of their signed amounts, which are negated for logs that are taken
back. The same logs in any order and with any places lead to the same balances. And if they are then
taken back, and those that were taken back come again, in any order and any batches, each balance is
what it was. -/
theorem margins_add_up_and_unwind (i : Intake) (logs : List Log) (replaying : Bool)
    (h : ∀ k, ((i.store.balance k).toInt.natAbs : Int) + marginMoved contracts k logs ≤
      Amount.greatest.toInt) :
    ∃ i', i.acceptedLogs contracts params logs replaying = .ok i' ∧
      (∀ k, (i'.store.balance k).toInt =
        (i.store.balance k).toInt + marginChanges contracts k logs) ∧
      (∀ logs' replaying', (logs'.map Log.unplaced).Perm (logs.map Log.unplaced) →
        ∃ j, i.acceptedLogs contracts params logs' replaying' = .ok j ∧
          ∀ k, j.store.balance k = i'.store.balance k) ∧
      (∀ steps : List AcceptedStep, (steps.flatMap AcceptedStep.logs).Perm (logs.map Log.flipped) →
        ∃ j, steps.foldlM (takeAccepted contracts params) i' = .ok j ∧
          ∀ k, j.store.balance k = i.store.balance k) := by
  obtain ⟨i', hi', hsum⟩ := yields_acceptedLogs_of_room contracts params logs replaying h
  refine ⟨i', hi', hsum, fun logs' replaying' hperm => ?_, fun steps hperm => ?_⟩
  · have hmoved : ∀ k, marginMoved contracts k logs' = marginMoved contracts k logs := by
      intro k
      rw [← marginMoved_unplaced, marginMoved_perm hperm, marginMoved_unplaced]
    obtain ⟨j, hj, hsum'⟩ :=
      yields_acceptedLogs_of_room contracts params logs' replaying' fun k => by
        rw [hmoved k]
        exact h k
    refine ⟨j, hj, fun k => Amount.ext_toInt ?_⟩
    rw [hsum' k, hsum k, ← marginChanges_unplaced, marginChanges_perm hperm,
      marginChanges_unplaced]
  · have hperm := (applied_perm steps).trans hperm
    have hchanges : ∀ k, (i'.store.balance k).toInt + marginChanges contracts k (applied steps) =
        (i.store.balance k).toInt := by
      intro k
      rw [hsum k, marginChanges_perm hperm, marginChanges_flipped]
      omega
    have hmoved : ∀ k, marginMoved contracts k (applied steps) = marginMoved contracts k logs := by
      intro k
      rw [marginMoved_perm hperm, marginMoved_flipped]
    have hback := Store.yields_foldlM_of_room_after contracts params i'.store (applied steps)
      fun k => by rw [hchanges k, hmoved k]; exact h k
    obtain ⟨j, hj, hsum'⟩ := yields_foldlM_takeAccepted contracts params hback
    exact ⟨j, hj, fun k => Amount.ext_toInt ((hsum' k).trans (hchanges k))⟩

/-- The log of a margin account event. -/
def marginLog (e : MarginAccountEvent) (block : BlockNumber) (index : UInt64) : Log :=
  (ContractEvent.marginAccount e).toLog (default : ContractAddresses).marginAccount block index

theorem marginChange_marginLog (e : MarginAccountEvent) (block : BlockNumber) (index : UInt64)
    (k : MarginBalance) :
    (marginLog e block index).marginChange default k = if e.balance = k then e.signed else 0 := by
  have hread : readLog default (marginLog e block index) (fun _ => true) =
      .ok (.marginAccount e) := readLog_toLog rfl block index rfl
  exact Log.marginChange_of_margin k hread

/-- Logs of one trader of every kind, out of order, one of which is taken back. -/
def mixedMargins : List Log :=
  [marginLog (.marginAdded default 0 50 0) 3 0, marginLog (.marginRemoved default 0 20 0) 2 1,
    marginLog (.marginReserved default 30) 2 0,
    (marginLog (.marginReleased default 10) 1 0).flipped,
    marginLog (.pnlRealized default (.clamp (-5)) 0) 1 1]

/-- They change the deposit by 25 and the reserved margin by 40, and move at most 115 on either. -/
theorem marginChanges_mixedMargins (k : MarginBalance) :
    marginChanges default k mixedMargins =
      (if .deposit default 0 = k then 25 else if .reserved default = k then 40 else 0) ∧
    marginMoved default k mixedMargins ≤ 115 := by
  simp only [marginChanges, marginMoved, mixedMargins, List.map_cons, List.map_nil, List.sum_cons,
    List.sum_nil, Log.marginChange_flipped, marginChange_marginLog]
  by_cases hdeposit : (.deposit default 0 : MarginBalance) = k
  · subst hdeposit
    decide
  · by_cases hreserved : (.reserved default : MarginBalance) = k
    · subst hreserved
      decide
    · simp [MarginAccountEvent.balance, hdeposit, hreserved]

/-- They come to balances of 25 and 40, and back to nothing when they are undone in two batches. -/
theorem mixedMargins_unwind :
    (∀ k, ((blank.store.balance k).toInt.natAbs : Int) + marginMoved default k mixedMargins ≤
      Amount.greatest.toInt) ∧
    ∃ i', blank.acceptedLogs default default mixedMargins false = .ok i' ∧
      (i'.store.balance (.deposit default 0)).toInt = 25 ∧
      (i'.store.balance (.reserved default)).toInt = 40 ∧
      ∃ j, [⟨(mixedMargins.drop 2).map Log.flipped, false⟩,
          ⟨(mixedMargins.take 2).map Log.flipped, true⟩].foldlM (takeAccepted default default) i' =
        .ok j ∧ ∀ k, j.store.balance k = 0 := by
  have hblank : ∀ k, blank.store.balance k = 0 := by
    intro k
    cases k <;> rfl
  have hroom : ∀ k, ((blank.store.balance k).toInt.natAbs : Int) +
      marginMoved default k mixedMargins ≤ Amount.greatest.toInt := by
    intro k
    have hmoved := (marginChanges_mixedMargins k).2
    have hgreatest : Amount.greatest.toInt = 170141183460469231731687303715884105727 := rfl
    have hzero : (0 : Amount).toInt = 0 := rfl
    rw [hblank k, hzero]
    omega
  have hunwind := margins_add_up_and_unwind default default blank mixedMargins false hroom
  obtain ⟨i', hi', hsum, -, hback⟩ := hunwind
  have hperm : ([⟨(mixedMargins.drop 2).map Log.flipped, false⟩,
      ⟨(mixedMargins.take 2).map Log.flipped, true⟩].flatMap AcceptedStep.logs).Perm
        (mixedMargins.map Log.flipped) := by
    have hswap : (mixedMargins.drop 2 ++ mixedMargins.take 2).Perm mixedMargins := by
      simpa only [List.take_append_drop] using
        (List.perm_append_comm : (mixedMargins.drop 2 ++ mixedMargins.take 2).Perm _)
    simpa only [List.flatMap_cons, List.flatMap_nil, List.append_nil, List.map_append] using
      hswap.map Log.flipped
  obtain ⟨j, hj, hundone⟩ := hback _ hperm
  refine ⟨hroom, i', hi', ?_, ?_, j, hj, fun k => (hundone k).trans (hblank k)⟩
  · rw [hsum, hblank, (marginChanges_mixedMargins _).1]
    rfl
  · rw [hsum, hblank, (marginChanges_mixedMargins _).1]
    rfl

end Intake
end PerpExchange
