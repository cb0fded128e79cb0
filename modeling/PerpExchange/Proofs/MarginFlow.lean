import PerpExchange.Proofs.Map
import PerpExchange.Proofs.RiskRange
import PerpExchange.Proofs.RunSteps

/-! Steps of a run that are sure to answer, and what they do to the margins: a reserve is debited, a
release is credited, and nothing else moves a margin. -/
namespace PerpExchange

/-- The margin of a trader in a run; one that is not listed has none. -/
def RunState.marginOf {σ : Type} (r : RunState σ) (a : Address) : Int :=
  (r.availableMargin.getD a 0).toInt

/-- Margin terms under which the charge on any notional fits. -/
structure MarginTerms.Chargeable (t : MarginTerms) : Prop where
  minAllowable_nonneg : 0 ≤ t.minAllowable.toInt
  takerFee_nonneg : 0 ≤ t.takerFee.toInt
  sum_le : t.minAllowable.toInt + t.takerFee.toInt ≤ 1000000000000000000

namespace RunM
variable {σ α β : Type} {r : RunState σ} {x : RunM σ α} {f : α → RunM σ β}
  {P P' : α → RunState σ → Prop} {Q : β → RunState σ → Prop}

/-- A step answers, and leaves an answer and a state with a property. -/
def Yields (x : RunM σ α) (r : RunState σ) (P : α → RunState σ → Prop) : Prop :=
  ∃ a r', x.run r = .ok a r' ∧ P a r'

theorem Yields.mono (h : Yields x r P) (hP : ∀ a r', P a r' → P' a r') : Yields x r P' := by
  rcases h with ⟨a, r', hx, ha⟩
  exact ⟨a, r', hx, hP a r' ha⟩

theorem Yields.bind (h : Yields x r P) (hf : ∀ a r', P a r' → Yields (f a) r' Q) :
    Yields (x >>= f) r Q := by
  rcases h with ⟨a, r', hx, ha⟩
  obtain ⟨b, r'', hb, hQ⟩ := hf a r' ha
  exact ⟨b, r'', bind_ok.mpr ⟨a, r', hx, hb⟩, hQ⟩

theorem yields_pure {a : α} (h : P a r) : Yields (pure a) r P := ⟨a, r, rfl, h⟩

theorem yields_lift {y : Checked α} {R : α → Prop} (h : Checked.Yields y R) :
    Yields (liftM y : RunM σ α) r fun a r' => R a ∧ r = r' := by
  rcases h with ⟨a, hy, ha⟩
  exact ⟨a, r, lift_ok.mpr ⟨hy, rfl⟩, ha, rfl⟩

theorem yields_get : Yields (get : RunM σ (RunState σ)) r fun a r' => r = a ∧ r = r' :=
  ⟨r, r, rfl, rfl, rfl⟩

theorem yields_modify (g : RunState σ → RunState σ) :
    Yields (modify g : RunM σ PUnit) r fun _ r' => g r = r' := ⟨⟨⟩, g r, rfl, rfl⟩

theorem yields_count (c : Counter) :
    Yields (count c : RunM σ Unit) r fun _ r' => r'.availableMargin = r.availableMargin :=
  ⟨⟨⟩, _, rfl, rfl⟩

theorem yields_skip (id : Hash) :
    Yields (skip id : RunM σ Unit) r fun _ r' => r'.availableMargin = r.availableMargin :=
  ⟨⟨⟩, _, rfl, rfl⟩

/-- An executor always answers, and moves no margin. -/
theorem yields_submit (executor : Executor σ) (s : Submission) :
    Yields (submit executor s) r fun _ r' => r'.availableMargin = r.availableMargin :=
  ⟨_, _, rfl, rfl⟩

theorem marginOf_insert (a a' : Address) (amount : Amount) :
    ({ r with availableMargin := r.availableMargin.insert a amount } : RunState σ).marginOf a' =
      if a = a' then amount.toInt else r.marginOf a' := by
  unfold RunState.marginOf
  rw [Map.getD_insert_key]
  split <;> rfl

theorem yields_requiredMargin {terms : MarginTerms} (ht : terms.Chargeable) (price : Amount)
    (isShort : Bool) (fill : Amount) (bound : Option Amount) :
    Checked.Yields (requiredMargin price isShort fill bound terms.minAllowable terms.takerFee)
      fun required => 0 ≤ required.toInt := by
  rcases ht with ⟨h0, h0', h1⟩
  unfold requiredMargin
  apply (yields_notionalPosition _ _).bind
  rintro quote ⟨hq, hle, -⟩
  apply (Amount.yields_add ⟨by omega, by omega⟩).bind
  intro rate hrate
  refine (Amount.yields_share (n := 170141183460469231731) hq hle (by omega) ?_).mono ?_
  · omega
  · exact fun _ h => h.1

/-- A reserve answers with what it has debited from the trader of the order, if anything. -/
theorem yields_reserve {terms : MarginTerms} (ht : terms.Chargeable) (bound : Option Amount)
    (o : Order) (fill : Amount) :
    Yields (reserve terms bound o fill) r fun reserved r' =>
      match reserved with
      | none => ∀ a, r'.marginOf a = r.marginOf a
      | some k => 0 ≤ k.toInt ∧
        ∀ a, r'.marginOf a = r.marginOf a - if o.trader = a then k.toInt else 0 := by
  unfold reserve
  split
  · exact yields_pure ⟨by simp, by simp⟩
  · apply (yields_lift (yields_requiredMargin ht o.price (o.side = .short) fill bound)).bind
    rintro required _ ⟨hrequired, rfl⟩
    apply yields_get.bind
    rintro _ _ ⟨rfl, rfl⟩
    apply (yields_modify _).bind
    rintro _ _ rfl
    split
    next =>
      apply yields_pure
      intro a
      rw [marginOf_insert]
      split
      next h => rw [← h, RunState.marginOf]
      next => rfl
    next hle =>
      rw [Amount.lt_iff] at hle
      have hhigh := (r.availableMargin.getD o.trader 0).upper
      apply (yields_lift (Amount.yields_sub ⟨by omega, by omega⟩)).bind
      rintro left _ ⟨hleft, rfl⟩
      apply (yields_modify _).bind
      rintro _ _ rfl
      refine yields_pure ⟨hrequired, fun a => ?_⟩
      rw [marginOf_insert, marginOf_insert]
      split
      next h => rw [← h, hleft, RunState.marginOf]
      next => exact (Int.sub_zero _).symm

/-- Margin that there is room for is credited to its trader. -/
theorem yields_release {trader : Address} {amount : Amount}
    (h : Amount.Fits (r.marginOf trader + amount.toInt)) :
    Yields (release trader amount) r fun _ r' =>
      ∀ a, r'.marginOf a = r.marginOf a + if trader = a then amount.toInt else 0 := by
  unfold release
  split
  next hz => exact yields_pure (by simp [hz])
  next =>
    apply yields_get.bind
    rintro _ _ ⟨rfl, rfl⟩
    apply (yields_lift (Amount.yields_add h)).bind
    rintro sum _ ⟨hsum, rfl⟩
    refine (yields_modify _).mono ?_
    rintro _ _ rfl a
    rw [marginOf_insert]
    split
    next ha => rw [← ha, hsum, RunState.marginOf]
    next => exact (Int.add_zero _).symm

end RunM
end PerpExchange
