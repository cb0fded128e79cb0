import PerpExchange.Matching.BlockRun
import PerpExchange.Proofs.Arithmetic

/-! What the steps of a run do: when a compound step succeeds, what each basic step adds to the
journal, and the walks over resting orders as derivations with one rule for each turn they take. A
run for a block is made of these. -/
namespace PerpExchange

namespace RunM
variable {σ α β : Type} {r r' r'' : RunState σ}

theorem bind_ok {x : RunM σ α} {f : α → RunM σ β} {b : β} :
    (x >>= f).run r = .ok b r'' ↔ ∃ a r', x.run r = .ok a r' ∧ (f a).run r' = .ok b r'' := by
  rw [EStateM.run_bind]
  cases x.run r with
  | ok a r' => exact ⟨fun h => ⟨a, r', rfl, h⟩, by rintro ⟨_, _, ⟨⟩, h⟩; exact h⟩
  | error e r' => simp

/-- A first step that comes to its end leaves the rest of the run. -/
theorem run_bind_of_ok {x : RunM σ α} {f : α → RunM σ β} {a : α} (h : x.run r = .ok a r') :
    (x >>= f).run r = (f a).run r' := by
  rw [EStateM.run_bind, h]

@[simp] theorem pure_ok {a b : α} :
    (pure a : RunM σ α).run r = .ok b r' ↔ a = b ∧ r = r' := by
  simp

@[simp] theorem lift_ok {x : Checked α} {a : α} :
    (liftM x : RunM σ α).run r = .ok a r' ↔ x = .ok a ∧ r = r' := by
  cases x with
  | error e =>
    have herror : (liftM (.error e : Checked α) : RunM σ α).run r = .error e r := rfl
    simp [herror]
  | ok b =>
    have hok : (liftM (.ok b : Checked α) : RunM σ α).run r = .ok b r := rfl
    simp [hok]

@[simp] theorem get_ok {a : RunState σ} :
    (get : RunM σ (RunState σ)).run r = .ok a r' ↔ r = a ∧ r = r' := by
  simp

@[simp] theorem modify_ok {f : RunState σ → RunState σ} {u : PUnit} :
    (modify f : RunM σ PUnit).run r = .ok u r' ↔ f r = r' := by
  simp

theorem count_journal {c : Counter} {u : Unit} (h : (count c : RunM σ Unit).run r = .ok u r') :
    r'.journal = r.journal := by
  cases modify_ok.mp h
  rfl

theorem skip_journal {id : Hash} {u : Unit} (h : (skip id : RunM σ Unit).run r = .ok u r') :
    r'.journal = r.journal := by
  cases modify_ok.mp h
  rfl

/-- What a release credits. -/
inductive Releases (trader : Address) (amount : Amount) (r : RunState σ) : RunState σ → Prop
  | nothing (h : amount = 0) : Releases trader amount r r
  | credited {sum : Amount} (h : amount ≠ 0)
    (hs : (r.availableMargin.getD trader 0).add amount = .ok sum) :
    Releases trader amount r { r with availableMargin := r.availableMargin.insert trader sum }

theorem releases_of_run {trader : Address} {amount : Amount} {u : Unit}
    (h : (release trader amount : RunM σ Unit).run r = .ok u r') :
    Releases trader amount r r' := by
  unfold release at h
  split at h
  next h0 =>
    obtain ⟨-, rfl⟩ := pure_ok.mp h
    exact .nothing h0
  next h0 =>
    obtain ⟨_, _, hg, h⟩ := bind_ok.mp h
    obtain ⟨rfl, rfl⟩ := get_ok.mp hg
    obtain ⟨sum, _, hx, h⟩ := bind_ok.mp h
    obtain ⟨hs, rfl⟩ := lift_ok.mp hx
    cases modify_ok.mp h
    exact .credited h0 hs

theorem release_journal {trader : Address} {a : Amount} {u : Unit}
    (h : (release trader a : RunM σ Unit).run r = .ok u r') : r'.journal = r.journal := by
  cases releases_of_run h with
  | nothing => rfl
  | credited => rfl

/-- What a reserve debits. A trader who is short of margin is listed with what there is. -/
inductive Reserves (terms : MarginTerms) (bound : Option Amount) (o : Order) (fill : Amount)
    (r : RunState σ) : Option Amount → RunState σ → Prop
  | exempt (h : o.isMarginExempt) : Reserves terms bound o fill r (some 0) r
  | short {required : Amount} (h : ¬ o.isMarginExempt)
    (hq : requiredMargin o.price (o.side = .short) fill bound terms.minAllowable terms.takerFee =
      .ok required)
    (hlt : r.availableMargin.getD o.trader 0 < required) :
    Reserves terms bound o fill r none { r with
      availableMargin := r.availableMargin.insert o.trader (r.availableMargin.getD o.trader 0) }
  | debited {required left : Amount} (h : ¬ o.isMarginExempt)
    (hq : requiredMargin o.price (o.side = .short) fill bound terms.minAllowable terms.takerFee =
      .ok required)
    (hle : ¬ r.availableMargin.getD o.trader 0 < required)
    (hl : (r.availableMargin.getD o.trader 0).sub required = .ok left) :
    Reserves terms bound o fill r (some required) { r with
      availableMargin := (r.availableMargin.insert o.trader
        (r.availableMargin.getD o.trader 0)).insert o.trader left }

theorem reserves_of_run {terms : MarginTerms} {bound : Option Amount} {o : Order} {fill : Amount}
    {a : Option Amount}
    (h : (reserve terms bound o fill : RunM σ (Option Amount)).run r = .ok a r') :
    Reserves terms bound o fill r a r' := by
  unfold reserve at h
  split at h
  next he =>
    obtain ⟨rfl, rfl⟩ := pure_ok.mp h
    exact .exempt he
  next he =>
    obtain ⟨required, _, hx, h⟩ := bind_ok.mp h
    obtain ⟨hq, rfl⟩ := lift_ok.mp hx
    obtain ⟨_, _, hg, h⟩ := bind_ok.mp h
    obtain ⟨rfl, rfl⟩ := get_ok.mp hg
    obtain ⟨_, _, hm, h⟩ := bind_ok.mp h
    cases modify_ok.mp hm
    split at h
    next hlt =>
      obtain ⟨rfl, rfl⟩ := pure_ok.mp h
      exact .short he hq hlt
    next hle =>
      obtain ⟨left, _, hx, h⟩ := bind_ok.mp h
      obtain ⟨hl, rfl⟩ := lift_ok.mp hx
      obtain ⟨_, _, hm, h⟩ := bind_ok.mp h
      cases modify_ok.mp hm
      obtain ⟨rfl, rfl⟩ := pure_ok.mp h
      exact .debited he hq hle hl

theorem reserve_journal {terms : MarginTerms} {bound : Option Amount} {o : Order} {fill : Amount}
    {a : Option Amount}
    (h : (reserve terms bound o fill : RunM σ (Option Amount)).run r = .ok a r') :
    r'.journal = r.journal := by
  cases reserves_of_run h with
  | exempt => rfl
  | short => rfl
  | debited => rfl

/-- A submission is noted with its verdict, last in the journal. -/
theorem submit_journal {executor : Executor σ} {s : Submission} {accepted : Bool}
    (h : (submit executor s).run r = .ok accepted r') :
    r'.journal = r.journal ++ [⟨s, accepted⟩] := by
  unfold submit at h
  obtain ⟨_, _, hg, h⟩ := bind_ok.mp h
  obtain ⟨rfl, rfl⟩ := get_ok.mp hg
  obtain ⟨_, _, hs, h⟩ := bind_ok.mp h
  cases hs
  obtain ⟨rfl, rfl⟩ := pure_ok.mp h
  rfl

/-- A fill of one order that is refused is noted so, whatever was reserved for it. -/
theorem refused_journal {executor : Executor σ} {terms : MarginTerms} {bound : Option Amount}
    {o : Order} {fill reserved : Amount} {s : Submission} {c : Counter} {u v w : Unit}
    {r₁ r₂ r₃ r₄ : RunState σ} (hr : (reserve terms bound o fill).run r = .ok (some reserved) r₁)
    (ht : (submit executor s).run r₁ = .ok false r₂) (hc : (count c).run r₂ = .ok u r₃)
    (hl : (release o.trader reserved).run r₃ = .ok v r₄) (hk : (skip o.id).run r₄ = .ok w r') :
    r'.journal = r.journal ++ [⟨s, false⟩] := by
  rw [skip_journal hk, release_journal hl, count_journal hc, submit_journal ht, reserve_journal hr]

end RunM

section
variable {σ : Type} {r r' : RunState σ}

/-- How far two orders get in agreeing on a fill. -/
inductive Agrees (t : MatchTerms σ) (long short : Order) (r : RunState σ) :
    Option Agreement → RunState σ → Prop
  | apart (hp : long.price < short.price) : Agrees t long short r none r
  | untimely (hp : ¬ long.price < short.price) (hc : ¬ canCrossInTime long short) :
    Agrees t long short r none r
  | full {longOpen shortOpen : Amount} (hp : ¬ long.price < short.price)
    (hc : canCrossInTime long short) (hl : long.unfilled = .ok longOpen)
    (hs : short.unfilled = .ok shortOpen) (hf : longOpen.minAbs shortOpen = .ok 0) :
    Agrees t long short r none r
  | longLacks {longOpen shortOpen fill : Amount} {r₁ r₂ : RunState σ} {u : Unit}
    (hp : ¬ long.price < short.price) (hc : canCrossInTime long short)
    (hl : long.unfilled = .ok longOpen) (hs : short.unfilled = .ok shortOpen)
    (hf : longOpen.minAbs shortOpen = .ok fill) (h0 : fill ≠ 0)
    (hrl : (RunM.reserve t.margin t.upperBound long fill).run r = .ok none r₁)
    (hm : (RunM.count .insufficientMargin).run r₁ = .ok u r₂) :
    Agrees t long short r none r₂
  | shortLacks {longOpen shortOpen fill longMargin : Amount} {r₁ r₂ r₃ r₄ : RunState σ} {u v : Unit}
    (hp : ¬ long.price < short.price) (hc : canCrossInTime long short)
    (hl : long.unfilled = .ok longOpen) (hs : short.unfilled = .ok shortOpen)
    (hf : longOpen.minAbs shortOpen = .ok fill) (h0 : fill ≠ 0)
    (hrl : (RunM.reserve t.margin t.upperBound long fill).run r = .ok (some longMargin) r₁)
    (hrs : (RunM.reserve t.margin t.upperBound short fill).run r₁ = .ok none r₂)
    (hm : (RunM.count .insufficientMargin).run r₂ = .ok u r₃)
    (hb : (RunM.release long.trader longMargin).run r₃ = .ok v r₄) :
    Agrees t long short r none r₄
  | agreed {longOpen shortOpen fill longMargin shortMargin : Amount} {r₁ r₂ : RunState σ}
    (hp : ¬ long.price < short.price) (hc : canCrossInTime long short)
    (hl : long.unfilled = .ok longOpen) (hs : short.unfilled = .ok shortOpen)
    (hf : longOpen.minAbs shortOpen = .ok fill) (h0 : fill ≠ 0)
    (hrl : (RunM.reserve t.margin t.upperBound long fill).run r = .ok (some longMargin) r₁)
    (hrs : (RunM.reserve t.margin t.upperBound short fill).run r₁ = .ok (some shortMargin) r₂) :
    Agrees t long short r (some ⟨fill, longMargin, shortMargin⟩) r₂

theorem agrees_of_run {t : MatchTerms σ} {long short : Order} {a : Option Agreement}
    (h : (agree t long short).run r = .ok a r') : Agrees t long short r a r' := by
  unfold agree at h
  split at h
  next hp =>
    obtain ⟨rfl, rfl⟩ := RunM.pure_ok.mp h
    exact .apart hp
  next hp =>
  split at h
  next hc =>
    obtain ⟨rfl, rfl⟩ := RunM.pure_ok.mp h
    exact .untimely hp (by simpa using hc)
  next hc =>
  have hc : canCrossInTime long short := by simpa using hc
  obtain ⟨longOpen, _, hx, h⟩ := RunM.bind_ok.mp h
  obtain ⟨hl, rfl⟩ := RunM.lift_ok.mp hx
  obtain ⟨shortOpen, _, hx, h⟩ := RunM.bind_ok.mp h
  obtain ⟨hs, rfl⟩ := RunM.lift_ok.mp hx
  obtain ⟨fill, _, hx, h⟩ := RunM.bind_ok.mp h
  obtain ⟨hf, rfl⟩ := RunM.lift_ok.mp hx
  split at h
  next h0 =>
    obtain ⟨rfl, rfl⟩ := RunM.pure_ok.mp h
    exact .full hp hc hl hs (h0 ▸ hf)
  next h0 =>
  obtain ⟨longMargin, r₁, hrl, h⟩ := RunM.bind_ok.mp h
  cases longMargin with
  | none =>
    obtain ⟨u, r₂, hm, h⟩ := RunM.bind_ok.mp h
    obtain ⟨rfl, rfl⟩ := RunM.pure_ok.mp h
    exact .longLacks hp hc hl hs hf h0 hrl hm
  | some longMargin =>
  obtain ⟨shortMargin, r₂, hrs, h⟩ := RunM.bind_ok.mp h
  cases shortMargin with
  | none =>
    obtain ⟨u, r₃, hm, h⟩ := RunM.bind_ok.mp h
    obtain ⟨v, r₄, hb, h⟩ := RunM.bind_ok.mp h
    obtain ⟨rfl, rfl⟩ := RunM.pure_ok.mp h
    exact .shortLacks hp hc hl hs hf h0 hrl hrs hm hb
  | some shortMargin =>
    obtain ⟨rfl, rfl⟩ := RunM.pure_ok.mp h
    exact .agreed hp hc hl hs hf h0 hrl hrs

/-- Looking for an agreement submits nothing. -/
theorem agree_journal {t : MatchTerms σ} {long short : Order} {a : Option Agreement}
    (h : (agree t long short).run r = .ok a r') : r'.journal = r.journal := by
  cases agrees_of_run h with
  | apart => rfl
  | untimely => rfl
  | full => rfl
  | longLacks _ _ _ _ _ _ hrl hm => exact (RunM.count_journal hm).trans (RunM.reserve_journal hrl)
  | shortLacks _ _ _ _ _ _ hrl hrs hm hb =>
    rw [RunM.release_journal hb, RunM.count_journal hm, RunM.reserve_journal hrs,
      RunM.reserve_journal hrl]
  | agreed _ _ _ _ _ _ hrl hrs => exact (RunM.reserve_journal hrs).trans (RunM.reserve_journal hrl)

/-- Orders that agree cross in price and time, and agree on the lesser of what is open. -/
theorem agree_some {t : MatchTerms σ} {long short : Order} {a : Agreement}
    (h : (agree t long short).run r = .ok (some a) r') :
    ¬ long.price < short.price ∧ canCrossInTime long short ∧ a.fill ≠ 0 ∧
      ∃ longOpen shortOpen, long.unfilled = .ok longOpen ∧ short.unfilled = .ok shortOpen ∧
        longOpen.minAbs shortOpen = .ok a.fill := by
  cases agrees_of_run h with
  | agreed hp hc hl hs hf h0 => exact ⟨hp, hc, h0, _, _, hl, hs, hf⟩

/-- What comes of a pair. -/
inductive Trades (t : MatchTerms σ) (long short : Order) (r : RunState σ) :
    PairResult → RunState σ → Prop
  | passed {r' : RunState σ} (h : (agree t long short).run r = .ok none r') :
    Trades t long short r .passed r'
  | filled {a : Agreement} {longFilled shortFilled : Amount} {r₁ r₂ r' : RunState σ} {u : Unit}
    (h : (agree t long short).run r = .ok (some a) r₁)
    (ht : (RunM.submit t.executor (.matchOrders long short a.fill)).run r₁ = .ok true r₂)
    (hl : long.filled.add a.fill = .ok longFilled) (hs : short.filled.sub a.fill = .ok shortFilled)
    (hc : (RunM.count .matchSubmitted).run { r₂ with matchCount := r₂.matchCount + 1 } = .ok u r') :
    Trades t long short r
      (.filled { long with filled := longFilled } { short with filled := shortFilled }) r'
  | refused {a : Agreement} {r₁ r₂ r₃ r₄ r₅ r₆ r' : RunState σ} {u v w x y : Unit}
    (h : (agree t long short).run r = .ok (some a) r₁)
    (ht : (RunM.submit t.executor (.matchOrders long short a.fill)).run r₁ = .ok false r₂)
    (hc : (RunM.count .matchRefused).run r₂ = .ok u r₃)
    (hl : (RunM.release long.trader a.longMargin).run r₃ = .ok v r₄)
    (hs : (RunM.release short.trader a.shortMargin).run r₄ = .ok w r₅)
    (hkl : (RunM.skip long.id).run r₅ = .ok x r₆)
    (hks : (RunM.skip short.id).run r₆ = .ok y r') :
    Trades t long short r .refused r'

theorem trades_of_run {t : MatchTerms σ} {long short : Order} {result : PairResult}
    (h : (tradePair t long short).run r = .ok result r') : Trades t long short r result r' := by
  unfold tradePair at h
  obtain ⟨a, r₁, ha, h⟩ := RunM.bind_ok.mp h
  cases a with
  | none =>
    obtain ⟨rfl, rfl⟩ := RunM.pure_ok.mp h
    exact .passed ha
  | some a =>
  obtain ⟨accepted, r₂, ht, h⟩ := RunM.bind_ok.mp h
  cases accepted with
  | true =>
    obtain ⟨longFilled, _, hx, h⟩ := RunM.bind_ok.mp h
    obtain ⟨hl, rfl⟩ := RunM.lift_ok.mp hx
    obtain ⟨shortFilled, _, hx, h⟩ := RunM.bind_ok.mp h
    obtain ⟨hs, rfl⟩ := RunM.lift_ok.mp hx
    obtain ⟨_, r₃, hx, h⟩ := RunM.bind_ok.mp h
    cases RunM.modify_ok.mp hx
    obtain ⟨u, r₄, hc, h⟩ := RunM.bind_ok.mp h
    obtain ⟨rfl, rfl⟩ := RunM.pure_ok.mp h
    exact .filled ha ht hl hs hc
  | false =>
    obtain ⟨_, r₃, hc, h⟩ := RunM.bind_ok.mp h
    obtain ⟨_, r₄, hl, h⟩ := RunM.bind_ok.mp h
    obtain ⟨_, r₅, hs, h⟩ := RunM.bind_ok.mp h
    obtain ⟨_, r₆, hkl, h⟩ := RunM.bind_ok.mp h
    obtain ⟨_, r₇, hks, h⟩ := RunM.bind_ok.mp h
    obtain ⟨rfl, rfl⟩ := RunM.pure_ok.mp h
    exact .refused ha ht hc hl hs hkl hks

/-- A pair that is refused has agreed on a fill, and is noted with it. -/
theorem Trades.refused_journal {t : MatchTerms σ} {long short : Order}
    (h : Trades t long short r .refused r') :
    ∃ a r₁, (agree t long short).run r = .ok (some a) r₁ ∧
      r'.journal = r.journal ++ [⟨.matchOrders long short a.fill, false⟩] := by
  cases h with
  | refused h ht hc hl hs hkl hks =>
    refine ⟨_, _, h, ?_⟩
    rw [RunM.skip_journal hks, RunM.skip_journal hkl, RunM.release_journal hs,
      RunM.release_journal hl, RunM.count_journal hc, RunM.submit_journal ht, agree_journal h]

/-- The turns a long takes through the shorts. -/
inductive CrossesLong (t : MatchTerms σ) :
    Order → List Order → RunState σ → Order → List Order → RunState σ → Prop
  | nil {long : Order} {r : RunState σ} : CrossesLong t long [] r long [] r
  | full {long short : Order} {rest : List Order} {r : RunState σ} (h : long.unfilled = .ok 0) :
    CrossesLong t long (short :: rest) r long (short :: rest) r
  | beyond {long short : Order} {rest : List Order} {r : RunState σ} {unfilled : Amount}
    (hu : long.unfilled = .ok unfilled) (h0 : unfilled ≠ 0) (h : long.price < short.price) :
    CrossesLong t long (short :: rest) r long (short :: rest) r
  | skipped {long long' short : Order} {rest rest' : List Order} {r r' : RunState σ}
    {unfilled : Amount} (hu : long.unfilled = .ok unfilled) (h0 : unfilled ≠ 0)
    (hp : ¬ long.price < short.price) (hs : r.isSkipped short)
    (h : CrossesLong t long rest r long' rest' r') :
    CrossesLong t long (short :: rest) r long' (short :: rest') r'
  | passed {long long' short : Order} {rest rest' : List Order} {r r₁ r' : RunState σ}
    {unfilled : Amount} (hu : long.unfilled = .ok unfilled) (h0 : unfilled ≠ 0)
    (hp : ¬ long.price < short.price) (hs : ¬ r.isSkipped short)
    (ht : Trades t long short r .passed r₁)
    (h : CrossesLong t long rest r₁ long' rest' r') :
    CrossesLong t long (short :: rest) r long' (short :: rest') r'
  | filled {long long₁ long' short short₁ : Order} {rest rest' : List Order}
    {r r₁ r' : RunState σ} {unfilled : Amount} (hu : long.unfilled = .ok unfilled)
    (h0 : unfilled ≠ 0) (hp : ¬ long.price < short.price) (hs : ¬ r.isSkipped short)
    (ht : Trades t long short r (.filled long₁ short₁) r₁)
    (h : CrossesLong t long₁ rest r₁ long' rest' r') :
    CrossesLong t long (short :: rest) r long' (short₁ :: rest') r'
  | refused {long short : Order} {rest : List Order} {r r' : RunState σ} {unfilled : Amount}
    (hu : long.unfilled = .ok unfilled) (h0 : unfilled ≠ 0) (hp : ¬ long.price < short.price)
    (hs : ¬ r.isSkipped short) (ht : Trades t long short r .refused r') :
    CrossesLong t long (short :: rest) r long (short :: rest) r'

theorem crossesLong_of_run {t : MatchTerms σ} {long long' : Order} {shorts shorts' : List Order}
    (h : (crossLong t long shorts).run r = .ok (long', shorts') r') :
    CrossesLong t long shorts r long' shorts' r' := by
  induction shorts generalizing long shorts' r with
  | nil =>
    obtain ⟨he, rfl⟩ := RunM.pure_ok.mp h
    cases he
    exact .nil
  | cons short rest ih =>
    unfold crossLong at h
    obtain ⟨unfilled, _, hx, h⟩ := RunM.bind_ok.mp h
    obtain ⟨hu, rfl⟩ := RunM.lift_ok.mp hx
    split at h
    next h0 =>
      obtain ⟨he, rfl⟩ := RunM.pure_ok.mp h
      cases he
      exact .full (h0 ▸ hu)
    next h0 =>
    split at h
    next hp =>
      obtain ⟨he, rfl⟩ := RunM.pure_ok.mp h
      cases he
      exact .beyond hu h0 hp
    next hp =>
    obtain ⟨_, _, hg, h⟩ := RunM.bind_ok.mp h
    obtain ⟨rfl, rfl⟩ := RunM.get_ok.mp hg
    split at h
    next hs =>
      obtain ⟨⟨long₁, rest'⟩, r₁, hr, h⟩ := RunM.bind_ok.mp h
      obtain ⟨he, rfl⟩ := RunM.pure_ok.mp h
      cases he
      exact .skipped hu h0 hp hs (ih hr)
    next hs =>
    obtain ⟨result, r₁, ht, h⟩ := RunM.bind_ok.mp h
    cases result with
    | passed =>
      obtain ⟨⟨long₁, rest'⟩, r₂, hr, h⟩ := RunM.bind_ok.mp h
      obtain ⟨he, rfl⟩ := RunM.pure_ok.mp h
      cases he
      exact .passed hu h0 hp hs (trades_of_run ht) (ih hr)
    | filled long₁ short₁ =>
      obtain ⟨⟨long₂, rest'⟩, r₂, hr, h⟩ := RunM.bind_ok.mp h
      obtain ⟨he, rfl⟩ := RunM.pure_ok.mp h
      cases he
      exact .filled hu h0 hp hs (trades_of_run ht) (ih hr)
    | refused =>
      obtain ⟨he, rfl⟩ := RunM.pure_ok.mp h
      cases he
      exact .refused hu h0 hp hs (trades_of_run ht)

/-- The turns the longs of a market take. -/
inductive CrossesAll (t : MatchTerms σ) :
    List Order → List Order → RunState σ → List Order → List Order → RunState σ → Prop
  | noLong {shorts : List Order} {r : RunState σ} : CrossesAll t [] shorts r [] shorts r
  | noShort {long : Order} {longs : List Order} {r : RunState σ} :
    CrossesAll t (long :: longs) [] r (long :: longs) [] r
  | beyond {long best : Order} {longs shorts : List Order} {r : RunState σ}
    (h : long.price < best.price) :
    CrossesAll t (long :: longs) (best :: shorts) r (long :: longs) (best :: shorts) r
  | skipped {long best : Order} {longs longs' shorts shorts' : List Order} {r r' : RunState σ}
    (hp : ¬ long.price < best.price) (hs : r.isSkipped long)
    (h : CrossesAll t longs (best :: shorts) r longs' shorts' r') :
    CrossesAll t (long :: longs) (best :: shorts) r (long :: longs') shorts' r'
  | crossed {long long' best : Order} {longs longs' shorts shorts₁ shorts₂ shorts' : List Order}
    {r r₁ r' : RunState σ} (hp : ¬ long.price < best.price) (hs : ¬ r.isSkipped long)
    (hl : CrossesLong t long (best :: shorts) r long' shorts₁ r₁)
    (ho : openOrders shorts₁ = .ok shorts₂)
    (h : CrossesAll t longs shorts₂ r₁ longs' shorts' r') :
    CrossesAll t (long :: longs) (best :: shorts) r (long' :: longs') shorts' r'

theorem crossesAll_of_run {t : MatchTerms σ} {longs longs' shorts shorts' : List Order}
    (h : (crossAll t longs shorts).run r = .ok (longs', shorts') r') :
    CrossesAll t longs shorts r longs' shorts' r' := by
  induction longs generalizing longs' shorts r with
  | nil =>
    obtain ⟨he, rfl⟩ := RunM.pure_ok.mp h
    cases he
    exact .noLong
  | cons long longs ih =>
    cases shorts with
    | nil =>
      obtain ⟨he, rfl⟩ := RunM.pure_ok.mp h
      cases he
      exact .noShort
    | cons best shorts =>
      unfold crossAll at h
      split at h
      next hp =>
        obtain ⟨he, rfl⟩ := RunM.pure_ok.mp h
        cases he
        exact .beyond hp
      next hp =>
      obtain ⟨_, _, hg, h⟩ := RunM.bind_ok.mp h
      obtain ⟨rfl, rfl⟩ := RunM.get_ok.mp hg
      split at h
      next hs =>
        obtain ⟨⟨longs₁, shorts₁⟩, r₁, hr, h⟩ := RunM.bind_ok.mp h
        obtain ⟨he, rfl⟩ := RunM.pure_ok.mp h
        cases he
        exact .skipped hp hs (ih hr)
      next hs =>
      obtain ⟨⟨long₁, shorts₁⟩, r₁, hl, h⟩ := RunM.bind_ok.mp h
      obtain ⟨shorts₂, _, hx, h⟩ := RunM.bind_ok.mp h
      obtain ⟨ho, rfl⟩ := RunM.lift_ok.mp hx
      obtain ⟨⟨longs₂, shorts₃⟩, r₂, hr, h⟩ := RunM.bind_ok.mp h
      obtain ⟨he, rfl⟩ := RunM.pure_ok.mp h
      cases he
      exact .crossed hp hs (crossesLong_of_run hl) ho (ih hr)

/-- The orders a position is offered to. -/
inductive Absorbs (t : LiquidationTerms σ) (p : LiquidablePosition) :
    Amount → List Order → RunState σ → Amount → List Order → RunState σ → Prop
  | nil {a : Amount} {r : RunState σ} : Absorbs t p a [] r a [] r
  | done {o : Order} {rest : List Order} {r : RunState σ} :
    Absorbs t p 0 (o :: rest) r 0 (o :: rest) r
  | beyond {a : Amount} {o : Order} {rest : List Order} {r : RunState σ} (h0 : a ≠ 0)
    (h : (t.bounds p.market).excludes p.side o.price) :
    Absorbs t p a (o :: rest) r a (o :: rest) r
  | skipped {a a' : Amount} {o : Order} {rest rest' : List Order} {r r' : RunState σ} (h0 : a ≠ 0)
    (hb : ¬ (t.bounds p.market).excludes p.side o.price) (hs : r.isSkipped o)
    (h : Absorbs t p a rest r a' rest' r') :
    Absorbs t p a (o :: rest) r a' (o :: rest') r'
  | full {a a' unfilled : Amount} {o : Order} {rest rest' : List Order} {r r' : RunState σ}
    (h0 : a ≠ 0) (hb : ¬ (t.bounds p.market).excludes p.side o.price) (hs : ¬ r.isSkipped o)
    (hu : o.unfilled = .ok unfilled) (hf : a.minAbs unfilled = .ok 0)
    (h : Absorbs t p a rest r a' rest' r') :
    Absorbs t p a (o :: rest) r a' (o :: rest') r'
  | short {a a' unfilled fill : Amount} {o : Order} {rest rest' : List Order}
    {r r₁ r₂ r' : RunState σ} {u : Unit} (h0 : a ≠ 0)
    (hb : ¬ (t.bounds p.market).excludes p.side o.price) (hs : ¬ r.isSkipped o)
    (hu : o.unfilled = .ok unfilled) (hf : a.minAbs unfilled = .ok fill) (hf0 : fill ≠ 0)
    (hr : (RunM.reserve t.margin (t.bounds p.market).upperLimit? o fill).run r = .ok none r₁)
    (hc : (RunM.count .insufficientMargin).run r₁ = .ok u r₂)
    (h : Absorbs t p a rest r₂ a' rest' r') :
    Absorbs t p a (o :: rest) r a' (o :: rest') r'
  | filled {a a₁ a' unfilled fill signed filled reserved : Amount} {o : Order}
    {rest rest' : List Order} {r r₁ r₂ r₃ r' : RunState σ} {u : Unit} (h0 : a ≠ 0)
    (hb : ¬ (t.bounds p.market).excludes p.side o.price) (hs : ¬ r.isSkipped o)
    (hu : o.unfilled = .ok unfilled) (hf : a.minAbs unfilled = .ok fill) (hf0 : fill ≠ 0)
    (hr : (RunM.reserve t.margin (t.bounds p.market).upperLimit? o fill).run r =
      .ok (some reserved) r₁)
    (ht : (RunM.submit t.executor (.liquidate p.trader o fill)).run r₁ = .ok true r₂)
    (hm : fill.mul o.side.sign = .ok signed) (ha : o.filled.add signed = .ok filled)
    (hd : a.sub fill = .ok a₁)
    (hc : (RunM.count .liquidationSubmitted).run
      { r₂ with liquidationCount := r₂.liquidationCount + 1 } = .ok u r₃)
    (h : Absorbs t p a₁ rest r₃ a' rest' r') :
    Absorbs t p a (o :: rest) r a' ({ o with filled := filled } :: rest') r'
  | refused {a unfilled fill reserved : Amount} {o : Order} {rest : List Order}
    {r r₁ r₂ r₃ r₄ r' : RunState σ} {u v w : Unit} (h0 : a ≠ 0)
    (hb : ¬ (t.bounds p.market).excludes p.side o.price) (hs : ¬ r.isSkipped o)
    (hu : o.unfilled = .ok unfilled) (hf : a.minAbs unfilled = .ok fill) (hf0 : fill ≠ 0)
    (hr : (RunM.reserve t.margin (t.bounds p.market).upperLimit? o fill).run r =
      .ok (some reserved) r₁)
    (ht : (RunM.submit t.executor (.liquidate p.trader o fill)).run r₁ = .ok false r₂)
    (hc : (RunM.count .liquidationRefused).run r₂ = .ok u r₃)
    (hl : (RunM.release o.trader reserved).run r₃ = .ok v r₄)
    (hk : (RunM.skip o.id).run r₄ = .ok w r') :
    Absorbs t p a (o :: rest) r a (o :: rest) r'

theorem absorbs_of_run {t : LiquidationTerms σ} {p : LiquidablePosition} {a a' : Amount}
    {orders orders' : List Order} (h : (absorb t p a orders).run r = .ok (a', orders') r') :
    Absorbs t p a orders r a' orders' r' := by
  induction orders generalizing a orders' r with
  | nil =>
    obtain ⟨he, rfl⟩ := RunM.pure_ok.mp h
    cases he
    exact .nil
  | cons o rest ih =>
    unfold absorb at h
    split at h
    next h0 =>
      obtain ⟨he, rfl⟩ := RunM.pure_ok.mp h
      cases he
      cases h0
      exact .done
    next h0 =>
    split at h
    next hb =>
      obtain ⟨he, rfl⟩ := RunM.pure_ok.mp h
      cases he
      exact .beyond h0 hb
    next hb =>
    obtain ⟨_, _, hg, h⟩ := RunM.bind_ok.mp h
    obtain ⟨rfl, rfl⟩ := RunM.get_ok.mp hg
    split at h
    next hs =>
      obtain ⟨⟨a₁, rest'⟩, r₁, hr, h⟩ := RunM.bind_ok.mp h
      obtain ⟨he, rfl⟩ := RunM.pure_ok.mp h
      cases he
      exact .skipped h0 hb hs (ih hr)
    next hs =>
    obtain ⟨unfilled, _, hx, h⟩ := RunM.bind_ok.mp h
    obtain ⟨hu, rfl⟩ := RunM.lift_ok.mp hx
    obtain ⟨fill, _, hx, h⟩ := RunM.bind_ok.mp h
    obtain ⟨hf, rfl⟩ := RunM.lift_ok.mp hx
    split at h
    next hf0 =>
      obtain ⟨⟨a₁, rest'⟩, r₁, hr, h⟩ := RunM.bind_ok.mp h
      obtain ⟨he, rfl⟩ := RunM.pure_ok.mp h
      cases he
      exact .full h0 hb hs hu (hf0 ▸ hf) (ih hr)
    next hf0 =>
    obtain ⟨reserved, r₁, hr, h⟩ := RunM.bind_ok.mp h
    cases reserved with
    | none =>
      obtain ⟨u, r₂, hc, h⟩ := RunM.bind_ok.mp h
      obtain ⟨⟨a₁, rest'⟩, r₃, hrest, h⟩ := RunM.bind_ok.mp h
      obtain ⟨he, rfl⟩ := RunM.pure_ok.mp h
      cases he
      exact .short h0 hb hs hu hf hf0 hr hc (ih hrest)
    | some reserved =>
    obtain ⟨accepted, r₂, ht, h⟩ := RunM.bind_ok.mp h
    cases accepted with
    | true =>
      obtain ⟨signed, _, hx, h⟩ := RunM.bind_ok.mp h
      obtain ⟨hm, rfl⟩ := RunM.lift_ok.mp hx
      obtain ⟨filled, _, hx, h⟩ := RunM.bind_ok.mp h
      obtain ⟨ha, rfl⟩ := RunM.lift_ok.mp hx
      obtain ⟨a₁, _, hx, h⟩ := RunM.bind_ok.mp h
      obtain ⟨hd, rfl⟩ := RunM.lift_ok.mp hx
      obtain ⟨_, r₃, hx, h⟩ := RunM.bind_ok.mp h
      cases RunM.modify_ok.mp hx
      obtain ⟨u, r₄, hc, h⟩ := RunM.bind_ok.mp h
      obtain ⟨⟨a₂, rest'⟩, r₅, hrest, h⟩ := RunM.bind_ok.mp h
      obtain ⟨he, rfl⟩ := RunM.pure_ok.mp h
      cases he
      exact .filled h0 hb hs hu hf hf0 hr ht hm ha hd hc (ih hrest)
    | false =>
      obtain ⟨u, r₃, hc, h⟩ := RunM.bind_ok.mp h
      obtain ⟨v, r₄, hl, h⟩ := RunM.bind_ok.mp h
      obtain ⟨w, r₅, hk, h⟩ := RunM.bind_ok.mp h
      obtain ⟨he, rfl⟩ := RunM.pure_ok.mp h
      cases he
      exact .refused h0 hb hs hu hf hf0 hr ht hc hl hk

/-- The parts of a run for a block. -/
inductive RunsBlock (executor : Executor σ) (config : Configuration) (s : Store)
    (block : BlockNumber) (now : Timestamp) (r r' : RunState σ) : Prop
  | parts {funding sample : Bool} {found : SweepResult} {cancelled : List Hash}
    {books books' : Map MarketId WorkingBook} {r₁ r₂ r₃ r₄ r₅ : RunState σ} {u v : Unit}
    (hfunding : (submitIfDue executor (s.fundingDue now) .settleFunding).run
      { r with desk := executor.purge r.desk } = .ok funding r₁)
    (hsample : (submitIfDue executor (s.sampleDue now) .samplePremium).run r₁ = .ok sample r₂)
    (hsweep : s.sweep config.toRiskState = .ok found)
    (hcancel : (cancelAll executor (found.ordersToCancel.values.flatMap (batches maxCancelBatch))).run
      { r₂ with availableMargin := found.availableMargin } = .ok cancelled r₃)
    (hbooks : s.workingBooks config block now cancelled = .ok books)
    (hliquidate : (liquidateAll ⟨executor, ⟨config.minAllowableMargin, config.takerFee⟩,
      config.liquidationBounds⟩ found.liquidable books).run r₃ = .ok books' r₄)
    (hcross : (crossMarkets executor ⟨config.minAllowableMargin, config.takerFee⟩ config
      (config.inTurn books')).run r₄ = .ok u r₅)
    (hcount : (RunM.count .pipelineRun).run r₅ = .ok v r')

theorem runsBlock_of_run {executor : Executor σ} {config : Configuration} {s : Store}
    {block : BlockNumber} {now : Timestamp} {outcome : RunOutcome}
    (h : (runBlock executor config s block now).run r = .ok outcome r') :
    RunsBlock executor config s block now r r' := by
  unfold runBlock at h
  obtain ⟨_, _, hm, h⟩ := RunM.bind_ok.mp h
  cases RunM.modify_ok.mp hm
  obtain ⟨funding, r₁, hfunding, h⟩ := RunM.bind_ok.mp h
  obtain ⟨sample, r₂, hsample, h⟩ := RunM.bind_ok.mp h
  obtain ⟨found, _, hx, h⟩ := RunM.bind_ok.mp h
  obtain ⟨hsweep, rfl⟩ := RunM.lift_ok.mp hx
  obtain ⟨_, _, hm, h⟩ := RunM.bind_ok.mp h
  cases RunM.modify_ok.mp hm
  obtain ⟨cancelled, r₃, hcancel, h⟩ := RunM.bind_ok.mp h
  obtain ⟨books, _, hx, h⟩ := RunM.bind_ok.mp h
  obtain ⟨hbooks, rfl⟩ := RunM.lift_ok.mp hx
  obtain ⟨books', r₄, hliquidate, h⟩ := RunM.bind_ok.mp h
  obtain ⟨_, r₅, hcross, h⟩ := RunM.bind_ok.mp h
  obtain ⟨_, r₆, hcount, h⟩ := RunM.bind_ok.mp h
  obtain ⟨_, _, hg, h⟩ := RunM.bind_ok.mp h
  obtain ⟨rfl, rfl⟩ := RunM.get_ok.mp hg
  obtain ⟨-, rfl⟩ := RunM.pure_ok.mp h
  exact .parts hfunding hsample hsweep hcancel hbooks hliquidate hcross hcount

end
end PerpExchange
