import PerpExchange.Proofs.RunSteps

/-! Runs that end alike: the rules by which two programs are compared that share their submissions,
and of which only one takes some steps that come to nothing. -/
namespace PerpExchange.RunM
variable {σ α β γ δ : Type} {r r' : RunState σ}
variable {R R' : α → β → Prop} {S : γ → δ → Prop}
variable {p : EStateM.Result Fault (RunState σ) α} {q : EStateM.Result Fault (RunState σ) β}

/-- Two ends of runs: with answers that are related and in one state, or at one fault and in one
state. Nothing but the answers tells them apart, the executor and the journal included. -/
inductive Alike (R : α → β → Prop) :
    EStateM.Result Fault (RunState σ) α → EStateM.Result Fault (RunState σ) β → Prop
  | ok {a : α} {b : β} {r : RunState σ} (h : R a b) : Alike R (.ok a r) (.ok b r)
  | error {f : Fault} {r : RunState σ} : Alike R (.error f r) (.error f r)

theorem Alike.mono (h : Alike R p q) (hR : ∀ a b, R a b → R' a b) : Alike R' p q := by
  cases h with
  | ok h => exact .ok (hR _ _ h)
  | error => exact .error

theorem alike_refl (p : EStateM.Result Fault (RunState σ) α) : Alike Eq p p := by
  cases p with
  | ok => exact .ok rfl
  | error => exact .error

theorem run_bind_congr {x y : RunM σ α} {f : α → RunM σ β} (h : x.run r = y.run r) :
    (x >>= f).run r = (y >>= f).run r := by
  rw [EStateM.run_bind, EStateM.run_bind, h]

/-- First steps that end alike, and rests that do so after them. -/
theorem Alike.bind {x : RunM σ α} {y : RunM σ β} {f : α → RunM σ γ} {g : β → RunM σ δ}
    (h : Alike R (x.run r) (y.run r))
    (hrest : ∀ a b r', R a b → x.run r = .ok a r' → Alike S ((f a).run r') ((g b).run r')) :
    Alike S ((x >>= f).run r) ((y >>= g).run r) := by
  rw [EStateM.run_bind, EStateM.run_bind]
  generalize hx : x.run r = p at h
  generalize y.run r = q at h
  cases h with
  | ok h => exact hrest _ _ _ h hx
  | error => exact .error

/-- A first step that both programs take. -/
theorem alike_bind {x : RunM σ α} {f : α → RunM σ γ} {g : α → RunM σ δ}
    (hrest : ∀ a r', x.run r = .ok a r' → Alike S ((f a).run r') ((g a).run r')) :
    Alike S ((x >>= f).run r) ((x >>= g).run r) := by
  apply (alike_refl _).bind
  rintro a _ r' rfl hx
  exact hrest a r' hx

/-- A test that both programs make. -/
theorem alike_ite {c : Prop} [Decidable c] {x y : RunM σ α} {x' y' : RunM σ β}
    (hpos : c → Alike R (x.run r) (x'.run r)) (hneg : ¬ c → Alike R (y.run r) (y'.run r)) :
    Alike R ((if c then x else y).run r) ((if c then x' else y').run r) := by
  split
  next h => exact hpos h
  next h => exact hneg h

end PerpExchange.RunM
