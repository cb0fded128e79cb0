import PerpExchange.Proofs.Alike
import PerpExchange.Proofs.FillBudget

/-! The loops of a run, one turn at a time: where a run stands between two turns, with all working
orders as they are then, and what the next turn makes of that. Liquidating positions and crossing
markets is to take such turns in a row. -/
namespace PerpExchange

/-- Where the loops of a run stand. Orders that have had their turn are kept apart from those whose
turn is still to come. -/
inductive Stage where
  /-- Some positions are left to liquidate. -/
  | liquidating (positions : List LiquidablePosition) (books : Map MarketId WorkingBook)
  /-- What remains of a position is offered to the orders ahead. -/
  | absorbing (p : LiquidablePosition) (remaining : Amount) (past ahead : List Order)
    (book : WorkingBook) (positions : List LiquidablePosition) (books : Map MarketId WorkingBook)
  /-- Some markets are left to cross. -/
  | crossing (done todo : List (MarketId × WorkingBook))
  /-- The longs ahead are left to be offered to the shorts of their market. -/
  | offering (m : MarketId) (past ahead shorts : List Order)
    (done todo : List (MarketId × WorkingBook))
  /-- A long is offered to the shorts that are left. -/
  | meeting (m : MarketId) (past : List Order) (long : Order) (ahead met left : List Order)
    (done todo : List (MarketId × WorkingBook))

namespace Stage

/-- All working orders, by market and side. -/
def books : Stage → List (MarketId × WorkingBook)
  | .liquidating _ books => books.toList
  | .absorbing p _ past ahead book _ books =>
    (books.insert p.market (book.withSide p.side (past ++ ahead))).toList
  | .crossing done todo => done ++ todo
  | .offering m past ahead shorts done todo => done ++ (m, ⟨past ++ ahead, shorts⟩) :: todo
  | .meeting m past long ahead met left done todo =>
    done ++ (m, ⟨past ++ long :: ahead, met ++ left⟩) :: todo

/-- What remains of the position in hand, if there is one. -/
def remaining? : Stage → Option Amount
  | .absorbing _ remaining .. => some remaining
  | .liquidating .. | .crossing .. | .offering .. | .meeting .. => none

end Stage

variable {σ : Type}

/-- An order is offered what remains of a position. What remains then and the order as it then stands
come with whether the walk goes on. -/
def absorbTurn (t : LiquidationTerms σ) (p : LiquidablePosition) (remaining : Amount) (o : Order) :
    RunM σ (Amount × Order × Bool) := do
  if remaining = 0 then return (remaining, o, false)
  if (t.bounds p.market).excludes p.side o.price then return (remaining, o, false)
  if (← get).isSkipped o then return (remaining, o, true)
  let fill ← remaining.minAbs (← o.unfilled)
  if fill = 0 then return (remaining, o, true)
  match ← RunM.reserve t.margin (t.bounds p.market).upperLimit? o fill with
  | none =>
    RunM.count .insufficientMargin
    return (remaining, o, true)
  | some reserved =>
    if ← RunM.submit t.executor (.liquidate p.trader o fill) then
      let filled ← o.filled.add (← fill.mul o.side.sign)
      let remaining ← remaining.sub fill
      modify fun r => { r with liquidationCount := r.liquidationCount + 1 }
      RunM.count .liquidationSubmitted
      return (remaining, { o with filled := filled }, true)
    else
      RunM.count .liquidationRefused
      RunM.release o.trader reserved
      RunM.skip o.id
      return (remaining, o, false)

/-- A long is offered to a short. Both as they then stand come with whether the walk goes on. -/
def crossTurn (t : MatchTerms σ) (long short : Order) : RunM σ (Order × Order × Bool) := do
  if (← long.unfilled) = 0 then return (long, short, false)
  if long.price < short.price then return (long, short, false)
  if (← get).isSkipped short then return (long, short, true)
  match ← tradePair t long short with
  | .passed => return (long, short, true)
  | .filled long short => return (long, short, true)
  | .refused => return (long, short, false)

/-- A walk over resting orders is a turn of the first, and the walk over the rest if it goes on. -/
theorem absorb_cons (t : LiquidationTerms σ) (p : LiquidablePosition) (remaining : Amount)
    (o : Order) (rest : List Order) :
    absorb t p remaining (o :: rest) = do
      let (remaining, o, on) ← absorbTurn t p remaining o
      if on then
        let (remaining, rest) ← absorb t p remaining rest
        return (remaining, o :: rest)
      else return (remaining, o :: rest) := by
  rw [absorb]
  unfold absorbTurn
  split
  · simp
  split
  · simp
  rw [bind_assoc]
  congr 1
  funext r
  split
  · simp
  simp only [bind_assoc]
  congr 1
  funext unfilled
  congr 1
  funext fill
  split
  · simp
  simp only [bind_assoc]
  congr 1
  funext reserved
  cases reserved with
  | none => simp
  | some reserved =>
    simp only [bind_assoc]
    congr 1
    funext accepted
    cases accepted <;> simp

theorem crossLong_cons (t : MatchTerms σ) (long short : Order) (rest : List Order) :
    crossLong t long (short :: rest) = do
      let (long, short, on) ← crossTurn t long short
      if on then
        let (long, rest) ← crossLong t long rest
        return (long, short :: rest)
      else return (long, short :: rest) := by
  rw [crossLong]
  unfold crossTurn
  simp only [bind_assoc]
  congr 1
  funext unfilled
  split
  · simp
  split
  · simp
  simp only [bind_assoc]
  congr 1
  funext r
  split
  · simp
  simp only [bind_assoc]
  congr 1
  funext result
  cases result <;> simp

/-- A turn passes over a pair and goes on or stops, or it makes of the pair what comes of trading it.
It does not go on after a refusal. -/
theorem crossTurn_cases {t : MatchTerms σ} {long long' short short' : Order} {on : Bool}
    {r r' : RunState σ} (h : (crossTurn t long short).run r = .ok (long', short', on) r') :
    (long' = long ∧ short' = short ∧ r' = r) ∨
      (¬ r.isSkipped short ∧ ∃ result, Trades t long short r result r' ∧
        result.after long short = (long', short') ∧ (on = true → result ≠ .refused)) := by
  unfold crossTurn at h
  obtain ⟨_, _, hx, h⟩ := RunM.bind_ok.mp h
  obtain ⟨-, rfl⟩ := RunM.lift_ok.mp hx
  split at h
  · obtain ⟨he, rfl⟩ := RunM.pure_ok.mp h
    cases he
    exact .inl ⟨rfl, rfl, rfl⟩
  split at h
  · obtain ⟨he, rfl⟩ := RunM.pure_ok.mp h
    cases he
    exact .inl ⟨rfl, rfl, rfl⟩
  obtain ⟨_, _, hg, h⟩ := RunM.bind_ok.mp h
  obtain ⟨rfl, rfl⟩ := RunM.get_ok.mp hg
  split at h
  · obtain ⟨he, rfl⟩ := RunM.pure_ok.mp h
    cases he
    exact .inl ⟨rfl, rfl, rfl⟩
  next hs =>
  obtain ⟨result, r₁, ht, h⟩ := RunM.bind_ok.mp h
  have ht := trades_of_run ht
  cases result with
  | passed =>
    obtain ⟨he, rfl⟩ := RunM.pure_ok.mp h
    cases he
    exact .inr ⟨hs, _, ht, rfl, by simp⟩
  | filled long₁ short₁ =>
    obtain ⟨he, rfl⟩ := RunM.pure_ok.mp h
    cases he
    exact .inr ⟨hs, _, ht, rfl, by simp⟩
  | refused =>
    obtain ⟨he, rfl⟩ := RunM.pure_ok.mp h
    cases he
    exact .inr ⟨hs, _, ht, rfl, by simp⟩

section
variable (executor : Executor σ) (margin : MarginTerms) (config : Configuration)

/-- The next turn of a run. -/
def Stage.turn : Stage → RunM σ Stage
  | .liquidating [] books => return .crossing [] (config.inTurn books)
  | .liquidating (p :: positions) books => do
    let remaining ← p.unfilled
    match books[p.market]? with
    | none => return .liquidating positions books
    | some book => return .absorbing p remaining [] (book.side p.side) book positions books
  | .absorbing p _ past [] book positions books => do
    let book ← (book.withSide p.side past).prune
    return .liquidating positions (books.insert p.market book)
  | .absorbing p remaining past (o :: ahead) book positions books => do
    let (remaining, o, on) ← absorbTurn ⟨executor, margin, config.liquidationBounds⟩ p remaining o
    if on then return .absorbing p remaining (past ++ [o]) ahead book positions books
    else return .absorbing p remaining (past ++ o :: ahead) [] book positions books
  | .crossing done [] => return .crossing done []
  | .crossing done ((m, book) :: todo) => return .offering m [] book.longs book.shorts done todo
  | .offering m past [] shorts done todo => return .crossing (done ++ [(m, ⟨past, shorts⟩)]) todo
  | .offering m past (long :: ahead) [] done todo =>
    return .crossing (done ++ [(m, ⟨past ++ long :: ahead, []⟩)]) todo
  | .offering m past (long :: ahead) (best :: shorts) done todo => do
    if long.price < best.price then
      return .crossing (done ++ [(m, ⟨past ++ long :: ahead, best :: shorts⟩)]) todo
    if (← get).isSkipped long then
      return .offering m (past ++ [long]) ahead (best :: shorts) done todo
    return .meeting m past long ahead [] (best :: shorts) done todo
  | .meeting m past long ahead met [] done todo => do
    let shorts ← openOrders met
    return .offering m (past ++ [long]) ahead shorts done todo
  | .meeting m past long ahead met (short :: left) done todo => do
    let upperBound := (config.acceptableBounds m).upperLimit?
    let (long, short, on) ← crossTurn ⟨executor, margin, upperBound⟩ long short
    if on then return .meeting m past long ahead (met ++ [short]) left done todo
    else return .meeting m past long ahead (met ++ short :: left) [] done todo

/-- Some turns in a row. -/
inductive Leads : Stage → RunState σ → Stage → RunState σ → Prop
  | refl (c : Stage) (r : RunState σ) : Leads c r c r
  | step {c c₁ c' : Stage} {r r₁ r' : RunState σ}
    (h : (c.turn executor margin config).run r = .ok c₁ r₁) (hrest : Leads c₁ r₁ c' r') :
    Leads c r c' r'

end

section
variable {executor : Executor σ} {margin : MarginTerms} {config : Configuration}
variable {c c₁ c' : Stage} {r r₁ r' : RunState σ} {m : MarketId}
variable {past ahead ahead' shorts shorts' met left left' : List Order}
variable {book : WorkingBook} {done todo : List (MarketId × WorkingBook)}
variable {positions rest : List LiquidablePosition} {books books' : Map MarketId WorkingBook}

theorem Leads.one (h : (c.turn executor margin config).run r = .ok c' r') :
    Leads executor margin config c r c' r' := .step h (.refl c' r')

theorem Leads.trans (h : Leads executor margin config c r c₁ r₁)
    (h' : Leads executor margin config c₁ r₁ c' r') : Leads executor margin config c r c' r' := by
  induction h with
  | refl => exact h'
  | step hturn _ ih => exact .step hturn (ih h')

theorem absorb_leads (past : List Order) {p : LiquidablePosition} {a a' : Amount}
    (h : (absorb ⟨executor, margin, config.liquidationBounds⟩ p a ahead).run r =
      .ok (a', ahead') r') :
    Leads executor margin config (.absorbing p a past ahead book positions books) r
      (.absorbing p a' (past ++ ahead') [] book positions books) r' := by
  induction ahead generalizing a ahead' past r with
  | nil =>
    obtain ⟨he, rfl⟩ := RunM.pure_ok.mp h
    cases he
    rw [List.append_nil]
    exact .refl _ _
  | cons o ahead ih =>
    rw [absorb_cons] at h
    obtain ⟨⟨a₁, o₁, on⟩, r₁, hturn, h⟩ := RunM.bind_ok.mp h
    cases on with
    | true =>
      obtain ⟨⟨a₂, ahead₂⟩, r₂, hrest, h⟩ := RunM.bind_ok.mp h
      obtain ⟨he, rfl⟩ := RunM.pure_ok.mp h
      cases he
      have hnext := ih (past ++ [o₁]) hrest
      rw [List.append_assoc] at hnext
      refine .step ?_ hnext
      exact RunM.run_bind_of_ok hturn
    | false =>
      obtain ⟨he, rfl⟩ := RunM.pure_ok.mp h
      cases he
      exact .one (RunM.run_bind_of_ok hturn)

theorem liquidate_leads {p : LiquidablePosition}
    (h : (liquidate ⟨executor, margin, config.liquidationBounds⟩ p books).run r =
      .ok books' r') :
    Leads executor margin config (.liquidating (p :: rest) books) r (.liquidating rest books')
      r' := by
  unfold liquidate at h
  obtain ⟨remaining, _, hx, h⟩ := RunM.bind_ok.mp h
  obtain ⟨hremaining, rfl⟩ := RunM.lift_ok.mp hx
  cases hbook : books[p.market]? with
  | none =>
    rw [hbook] at h
    obtain ⟨rfl, rfl⟩ := RunM.pure_ok.mp h
    apply Leads.one
    refine (RunM.run_bind_of_ok hx).trans ?_
    rw [hbook]
    rfl
  | some book =>
    rw [hbook] at h
    obtain ⟨⟨a, orders⟩, r₁, habs, h⟩ := RunM.bind_ok.mp h
    obtain ⟨pruned, _, hp, h⟩ := RunM.bind_ok.mp h
    obtain ⟨-, rfl⟩ := RunM.lift_ok.mp hp
    obtain ⟨rfl, rfl⟩ := RunM.pure_ok.mp h
    have hfirst : ((Stage.liquidating (p :: rest) books).turn executor margin config).run r =
        .ok (.absorbing p remaining [] (book.side p.side) book rest books) r := by
      refine (RunM.run_bind_of_ok hx).trans ?_
      rw [hbook]
      rfl
    have hlast : ((Stage.absorbing p a ([] ++ orders) [] book rest books).turn executor margin
        config).run r₁ = .ok (.liquidating rest (books.insert p.market pruned)) r₁ :=
      RunM.run_bind_of_ok hp
    exact .step hfirst ((absorb_leads [] habs).trans (.one hlast))

theorem liquidateAll_leads
    (h : (liquidateAll ⟨executor, margin, config.liquidationBounds⟩ positions
      books).run r = .ok books' r') :
    Leads executor margin config (.liquidating positions books) r (.liquidating [] books') r' := by
  induction positions generalizing books r with
  | nil =>
    obtain ⟨rfl, rfl⟩ := RunM.pure_ok.mp h
    exact .refl _ _
  | cons p rest ih =>
    obtain ⟨books₁, r₁, hp, h⟩ := RunM.bind_ok.mp h
    exact (liquidate_leads hp).trans (ih h)

theorem crossLong_leads (met : List Order) {long long' : Order}
    (h : (crossLong ⟨executor, margin, (config.acceptableBounds m).upperLimit?⟩ long left).run
      r = .ok (long', left') r') :
    Leads executor margin config (.meeting m past long ahead met left done todo) r
      (.meeting m past long' ahead (met ++ left') [] done todo) r' := by
  induction left generalizing long left' met r with
  | nil =>
    obtain ⟨he, rfl⟩ := RunM.pure_ok.mp h
    cases he
    rw [List.append_nil]
    exact .refl _ _
  | cons short left ih =>
    rw [crossLong_cons] at h
    obtain ⟨⟨long₁, short₁, on⟩, r₁, hturn, h⟩ := RunM.bind_ok.mp h
    cases on with
    | true =>
      obtain ⟨⟨long₂, left₂⟩, r₂, hrest, h⟩ := RunM.bind_ok.mp h
      obtain ⟨he, rfl⟩ := RunM.pure_ok.mp h
      cases he
      have hnext := ih (met ++ [short₁]) hrest
      rw [List.append_assoc] at hnext
      refine .step ?_ hnext
      exact RunM.run_bind_of_ok hturn
    | false =>
      obtain ⟨he, rfl⟩ := RunM.pure_ok.mp h
      cases he
      exact .one (RunM.run_bind_of_ok hturn)

theorem crossAll_leads (past : List Order)
    (h : (crossAll ⟨executor, margin, (config.acceptableBounds m).upperLimit?⟩ ahead
      shorts).run r = .ok (ahead', shorts') r') :
    Leads executor margin config (.offering m past ahead shorts done todo) r
      (.crossing (done ++ [(m, ⟨past ++ ahead', shorts'⟩)]) todo) r' := by
  induction ahead generalizing ahead' past shorts r with
  | nil =>
    obtain ⟨he, rfl⟩ := RunM.pure_ok.mp h
    cases he
    rw [List.append_nil]
    exact .one rfl
  | cons long ahead ih =>
    cases shorts with
    | nil =>
      obtain ⟨he, rfl⟩ := RunM.pure_ok.mp h
      cases he
      exact .one rfl
    | cons best shorts =>
      unfold crossAll at h
      split at h
      next hp =>
        obtain ⟨he, rfl⟩ := RunM.pure_ok.mp h
        cases he
        apply Leads.one
        simp [Stage.turn, hp]
      next hp =>
      obtain ⟨_, _, hg, h⟩ := RunM.bind_ok.mp h
      obtain ⟨rfl, rfl⟩ := RunM.get_ok.mp hg
      split at h
      next hskip =>
        obtain ⟨⟨ahead₁, shorts₁⟩, r₁, hrest, h⟩ := RunM.bind_ok.mp h
        obtain ⟨he, rfl⟩ := RunM.pure_ok.mp h
        cases he
        have hnext := ih (past ++ [long]) hrest
        rw [List.append_assoc] at hnext
        refine .step ?_ hnext
        simp [Stage.turn, hp, hskip]
      next hskip =>
        obtain ⟨⟨long₁, shorts₁⟩, r₁, hlong, h⟩ := RunM.bind_ok.mp h
        obtain ⟨shorts₂, _, hx, h⟩ := RunM.bind_ok.mp h
        obtain ⟨-, rfl⟩ := RunM.lift_ok.mp hx
        obtain ⟨⟨ahead₁, shorts₃⟩, r₂, hrest, h⟩ := RunM.bind_ok.mp h
        obtain ⟨he, rfl⟩ := RunM.pure_ok.mp h
        cases he
        have hfirst : ((Stage.offering m past (long :: ahead) (best :: shorts) done todo).turn
            executor margin config).run r =
              .ok (.meeting m past long ahead [] (best :: shorts) done todo) r := by
          simp [Stage.turn, hp, hskip]
        have hlast : ((Stage.meeting m past long₁ ahead ([] ++ shorts₁) [] done todo).turn executor
            margin config).run r₁ = .ok (.offering m (past ++ [long₁]) ahead shorts₂ done todo) r₁ :=
          RunM.run_bind_of_ok hx
        have hnext := ih (past ++ [long₁]) hrest
        rw [List.append_assoc] at hnext
        exact .step hfirst ((crossLong_leads [] hlong).trans (.step hlast hnext))

theorem crossMarkets_leads (done : List (MarketId × WorkingBook)) {u : Unit}
    (h : (crossMarkets executor margin config todo).run r = .ok u r') :
    ∃ done', Leads executor margin config (.crossing done todo) r (.crossing done' []) r' := by
  induction todo generalizing done r with
  | nil =>
    obtain ⟨-, rfl⟩ := RunM.pure_ok.mp h
    exact ⟨done, .refl _ _⟩
  | cons e todo ih =>
    obtain ⟨m, book⟩ := e
    obtain ⟨⟨longs, shorts⟩, r₁, hcross, h⟩ := RunM.bind_ok.mp h
    obtain ⟨done', hnext⟩ := ih _ h
    exact ⟨done', .step rfl ((crossAll_leads [] hcross).trans hnext)⟩

/-- The liquidations and the matches of a run are turns in a row, from the first position to the last
market. -/
theorem run_leads {u : Unit}
    (hl : (liquidateAll ⟨executor, margin, config.liquidationBounds⟩ positions
      books).run r = .ok books' r₁)
    (hc : (crossMarkets executor margin config (config.inTurn books')).run r₁ = .ok u r') :
    ∃ done,
      Leads executor margin config (.liquidating positions books) r (.crossing done []) r' := by
  obtain ⟨done, hnext⟩ := crossMarkets_leads [] hc
  exact ⟨done, (liquidateAll_leads hl).trans (.step rfl hnext)⟩

end

end PerpExchange
