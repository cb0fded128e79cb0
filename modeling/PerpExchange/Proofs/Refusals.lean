import PerpExchange.Proofs.MarginConservation
import PerpExchange.Proofs.Stages
import PerpExchange.Proofs.Turns

/-! A refused submission changes no order and no margin, it counts as one failure, and the orders that
it names are named no more in the run. -/
namespace PerpExchange

namespace RunM
variable {σ : Type} {r r' : RunState σ} {u : Unit}

theorem count_failures {c : Counter} (h : (count c).run r = .ok u r') :
    r'.failures = r.failures := by
  cases modify_ok.mp h
  rfl

theorem skip_failures {id : Hash} (h : (skip id).run r = .ok u r') : r'.failures = r.failures := by
  cases modify_ok.mp h
  rfl

theorem release_failures {trader : Address} {a : Amount} (h : (release trader a).run r = .ok u r') :
    r'.failures = r.failures := by
  cases releases_of_run h with
  | nothing => rfl
  | credited => rfl

theorem reserve_failures {terms : MarginTerms} {bound : Option Amount} {o : Order} {fill : Amount}
    {a : Option Amount} (h : (reserve terms bound o fill).run r = .ok a r') :
    r'.failures = r.failures := by
  cases reserves_of_run h with
  | exempt => rfl
  | short => rfl
  | debited => rfl

/-- A refusal is one failure. -/
theorem submit_failures {executor : Executor σ} {s : Submission}
    (h : (submit executor s).run r = .ok false r') : r'.failures = r.failures + 1 := by
  unfold submit at h
  obtain ⟨_, _, hg, h⟩ := bind_ok.mp h
  obtain ⟨rfl, rfl⟩ := get_ok.mp hg
  obtain ⟨_, _, hs, h⟩ := bind_ok.mp h
  cases hs
  obtain ⟨hrefused, rfl⟩ := pure_ok.mp h
  simp [hrefused]

end RunM

/-- What a turn tries: nothing; or a submission that is taken; or one that is refused, and then no
margin has changed, there is one failure more, its orders sit out, and what the turn is to keep it
keeps. None of the orders of a submission has sat out before. -/
inductive Tries {σ : Type} (keeps : Prop) (r r' : RunState σ) : Option Receipt → Prop
  | nothing (hj : r'.journal = r.journal) (hs : r'.skipped = r.skipped) : Tries keeps r r' none
  | taken {x : Submission} (hj : r'.journal = r.journal ++ [⟨x, true⟩])
    (hs : r'.skipped = r.skipped) (hin : ∀ o ∈ x.orders, o.id ∉ r.skipped) :
    Tries keeps r r' (some ⟨x, true⟩)
  | refused {x : Submission} (hj : r'.journal = r.journal ++ [⟨x, false⟩])
    (hs : ∀ id ∈ r.skipped, id ∈ r'.skipped) (hin : ∀ o ∈ x.orders, o.id ∉ r.skipped)
    (hout : ∀ o ∈ x.orders, o.id ∈ r'.skipped) (hm : r'.marginOf = r.marginOf)
    (hf : r'.failures = r.failures + 1) (hkeeps : keeps) : Tries keeps r r' (some ⟨x, false⟩)

section
variable {σ : Type} {r r' : RunState σ} {keeps keeps' : Prop} {x : Option Receipt} {y : Receipt}

namespace Tries

theorem journal (h : Tries keeps r r' x) : r'.journal = r.journal ++ x.toList := by
  cases h with
  | nothing hj => simp [hj]
  | taken hj => exact hj
  | refused hj => exact hj

theorem skipped (h : Tries keeps r r' x) : ∀ id ∈ r.skipped, id ∈ r'.skipped := by
  cases h with
  | nothing _ hs => exact fun id hid => hs ▸ hid
  | taken _ hs => exact fun id hid => hs ▸ hid
  | refused _ hs => exact hs

theorem fresh (h : Tries keeps r r' (some y)) : ∀ o ∈ y.submission.orders, o.id ∉ r.skipped := by
  cases h with
  | taken _ _ hin => exact hin
  | refused _ _ hin => exact hin

theorem mono (h : Tries keeps r r' x) (hk : keeps → keeps') : Tries keeps' r r' x := by
  cases h with
  | nothing hj hs => exact .nothing hj hs
  | taken hj hs hin => exact .taken hj hs hin
  | refused hj hs hin hout hm hf hkeeps => exact .refused hj hs hin hout hm hf (hk hkeeps)

theorem refl (r : RunState σ) : Tries keeps r r none := .nothing rfl rfl

end Tries
end

section
variable {σ : Type} {r r' : RunState σ} {t : MatchTerms σ} {long long' short short' : Order}

theorem agree_failures {a : Option Agreement} (h : (agree t long short).run r = .ok a r') :
    r'.failures = r.failures := by
  cases agrees_of_run h with
  | apart | untimely | full => rfl
  | longLacks _ _ _ _ _ _ hrl hm => rw [RunM.count_failures hm, RunM.reserve_failures hrl]
  | shortLacks _ _ _ _ _ _ hrl hrs hm hb =>
    rw [RunM.release_failures hb, RunM.count_failures hm, RunM.reserve_failures hrs,
      RunM.reserve_failures hrl]
  | agreed _ _ _ _ _ _ hrl hrs => rw [RunM.reserve_failures hrs, RunM.reserve_failures hrl]

theorem Trades.refused_failures (h : Trades t long short r .refused r') :
    r'.failures = r.failures + 1 := by
  cases h with
  | refused h ht hc hrl hrs hkl hks =>
    rw [RunM.skip_failures hks, RunM.skip_failures hkl, RunM.release_failures hrs,
      RunM.release_failures hrl, RunM.count_failures hc, RunM.submit_failures ht, agree_failures h]

theorem not_mem_of_not_isSkipped {o : Order} (h : ¬ r.isSkipped o) : o.id ∉ r.skipped := by
  rw [← Std.ExtTreeSet.contains_iff_mem]
  exact h

/-- A pair that may trade tries at most one match, and is left as it was if that is refused. -/
theorem Trades.tries {result : PairResult} (h : Trades t long short r result r')
    (hl : long.id ∉ r.skipped) (hs : short.id ∉ r.skipped) :
    ∃ x, Tries (result.after long short = (long, short)) r r' x := by
  have hin : ∀ fill, ∀ o ∈ (Submission.matchOrders long short fill).orders, o.id ∉ r.skipped := by
    intro fill o ho
    rcases List.mem_pair.mp ho with rfl | rfl
    · exact hl
    · exact hs
  cases result with
  | passed =>
    have hskipped := h.passed_skipped
    cases h with
    | passed h => exact ⟨none, .nothing (agree_journal h) hskipped⟩
  | filled long₁ short₁ =>
    obtain ⟨fill, hj, -⟩ := h.fills
    exact ⟨_, .taken hj h.filled_skipped (hin fill)⟩
  | refused =>
    have hskipped := h.refused_skipped
    obtain ⟨a, _, -, hj⟩ := h.refused_journal
    refine ⟨_, .refused hj ?_ (hin a.fill) ?_ h.refused_margin h.refused_failures rfl⟩
    · intro id hid
      rw [hskipped, Std.ExtTreeSet.mem_insert, Std.ExtTreeSet.mem_insert]
      exact .inr (.inr hid)
    · intro o ho
      rw [hskipped]
      rcases List.mem_pair.mp ho with rfl | rfl <;> simp

/-- A turn of a long that does not sit out. It goes on only if the long still does not. -/
theorem crossTurn_tries {on : Bool}
    (h : (crossTurn t long short).run r = .ok (long', short', on) r') (hl : long.id ∉ r.skipped) :
    (∃ x, Tries (long' = long ∧ short' = short) r r' x) ∧ (on = true → long'.id ∉ r'.skipped) := by
  rcases crossTurn_cases h with ⟨rfl, rfl, rfl⟩ | ⟨hs, result, ht, hafter, hon⟩
  · exact ⟨⟨none, .refl _⟩, fun _ => hl⟩
  obtain ⟨x, hx⟩ := ht.tries hl (not_mem_of_not_isSkipped hs)
  rw [hafter] at hx
  refine ⟨⟨x, hx.mono Prod.mk.inj⟩, fun h => ?_⟩
  cases result with
  | passed =>
    cases hafter
    exact ht.passed_skipped ▸ hl
  | filled long₁ short₁ =>
    cases hafter
    obtain ⟨fill, -, hfills⟩ := ht.fills
    rw [ht.filled_skipped, hfills.long_copy]
    exact hl
  | refused => exact absurd rfl (hon h)

end

section
variable {σ : Type} {r r' : RunState σ} {t : LiquidationTerms σ} {p : LiquidablePosition}
variable {a a' : Amount} {o o' : Order}

/-- An order is offered to a position in at most one liquidation, which leaves both as they were if it
is refused. -/
theorem Absorbs.tries (h : Absorbs t p a [o] r a' [o'] r') :
    ∃ x, Tries (a' = a ∧ o' = o) r r' x := by
  cases h with
  | done => exact ⟨none, .refl r⟩
  | beyond => exact ⟨none, .refl r⟩
  | skipped _ _ _ h =>
    cases h
    exact ⟨none, .refl r⟩
  | full _ _ _ _ _ h =>
    cases h
    exact ⟨none, .refl r⟩
  | short _ _ _ _ _ _ hr hc h =>
    cases h
    refine ⟨none, .nothing ?_ ?_⟩
    · rw [RunM.count_journal hc, RunM.reserve_journal hr]
    · rw [RunM.count_skipped hc, RunM.reserve_skipped hr]
  | filled _ _ hs _ _ _ hr ht _ _ _ hc h =>
    cases h
    have hj := RunM.submit_journal ht
    rw [RunM.reserve_journal hr] at hj
    refine ⟨_, .taken ((RunM.count_journal hc).trans hj) ?_ ?_⟩
    · rw [RunM.count_skipped hc]
      exact (RunM.submit_skipped ht).trans (RunM.reserve_skipped hr)
    · exact List.forall_mem_singleton.mpr (not_mem_of_not_isSkipped hs)
  | refused _ _ hs _ _ _ hr ht hc hl hk =>
    have hskipped : r'.skipped = r.skipped.insert o.id := by
      rw [RunM.skip_skipped hk, RunM.release_skipped hl, RunM.count_skipped hc,
        RunM.submit_skipped ht, RunM.reserve_skipped hr]
    refine ⟨_, .refused (RunM.refused_journal hr ht hc hl hk) ?_ ?_ ?_
      (RunM.refused_margin hr ht hc hl hk) ?_ ⟨rfl, rfl⟩⟩
    · intro id hid
      rw [hskipped]
      exact Std.ExtTreeSet.mem_insert.mpr (.inr hid)
    · exact List.forall_mem_singleton.mpr (not_mem_of_not_isSkipped hs)
    · rw [hskipped]
      exact List.forall_mem_singleton.mpr Std.ExtTreeSet.mem_insert_self
    · rw [RunM.skip_failures hk, RunM.release_failures hl, RunM.count_failures hc,
        RunM.submit_failures ht, RunM.reserve_failures hr]

theorem absorbTurn_tries {on : Bool}
    (h : (absorbTurn t p a o).run r = .ok (a', o', on) r') :
    ∃ x, Tries (a' = a ∧ o' = o) r r' x := by
  apply Absorbs.tries (t := t) (p := p)
  apply absorbs_of_run
  rw [absorb_cons, RunM.run_bind_of_ok h]
  cases on <;> rfl

end

/-- The long in hand does not sit out as long as there is a short to offer it to. -/
def Stage.InHand {σ : Type} (r : RunState σ) : Stage → Prop
  | .meeting _ _ long _ _ (_ :: _) _ _ => long.id ∉ r.skipped
  | _ => True

section
variable {σ : Type} {executor : Executor σ} {margin : MarginTerms} {config : Configuration}
variable {c c' : Stage} {r r' : RunState σ} {before after : List Receipt} {y : Receipt}

namespace Stage

theorem absorbing_tries {p : LiquidablePosition} {remaining : Amount} {o : Order}
    {past ahead : List Order} {book : WorkingBook} {positions : List LiquidablePosition}
    {books : Map MarketId WorkingBook}
    (h : ((absorbing p remaining past (o :: ahead) book positions books).turn executor margin
      config).run r = .ok c' r') :
    c'.InHand r' ∧
      ∃ x, Tries (c'.books = (absorbing p remaining past (o :: ahead) book positions books).books ∧
        c'.remaining? = some remaining) r r' x := by
  obtain ⟨⟨remaining', o', on⟩, r₁, hturn, h⟩ := RunM.bind_ok.mp h
  obtain ⟨x, hx⟩ := absorbTurn_tries hturn
  cases on with
  | true =>
    obtain ⟨rfl, rfl⟩ := RunM.pure_ok.mp h
    refine ⟨trivial, x, hx.mono ?_⟩
    rintro ⟨rfl, rfl⟩
    simp [Stage.books, Stage.remaining?]
  | false =>
    obtain ⟨rfl, rfl⟩ := RunM.pure_ok.mp h
    refine ⟨trivial, x, hx.mono ?_⟩
    rintro ⟨rfl, rfl⟩
    simp [Stage.books, Stage.remaining?]

theorem meeting_tries {m : MarketId} {long short : Order} {past ahead met left : List Order}
    {done todo : List (MarketId × WorkingBook)}
    (h : ((meeting m past long ahead met (short :: left) done todo).turn executor margin
      config).run r = .ok c' r') (hin : long.id ∉ r.skipped) :
    c'.InHand r' ∧
      ∃ x, Tries (c'.books = (meeting m past long ahead met (short :: left) done todo).books ∧
        c'.remaining? = none) r r' x := by
  obtain ⟨⟨long', short', on⟩, r₁, hturn, h⟩ := RunM.bind_ok.mp h
  obtain ⟨⟨x, hx⟩, hstays⟩ := crossTurn_tries hturn hin
  cases on with
  | true =>
    obtain ⟨rfl, rfl⟩ := RunM.pure_ok.mp h
    refine ⟨?_, x, hx.mono ?_⟩
    · cases left with
      | nil => exact trivial
      | cons => exact hstays rfl
    · rintro ⟨rfl, rfl⟩
      simp [Stage.books, Stage.remaining?]
  | false =>
    obtain ⟨rfl, rfl⟩ := RunM.pure_ok.mp h
    refine ⟨trivial, x, hx.mono ?_⟩
    rintro ⟨rfl, rfl⟩
    simp [Stage.books, Stage.remaining?]

/-- A turn tries at most one submission. If it is refused, all orders and what remains of the position
are as they were. -/
theorem turn_tries (h : (c.turn executor margin config).run r = .ok c' r') (hc : c.InHand r) :
    c'.InHand r' ∧
      ∃ x, Tries (c'.books = c.books ∧ c'.remaining? = c.remaining?) r r' x := by
  cases c with
  | liquidating positions books =>
    cases positions with
    | nil =>
      obtain ⟨rfl, rfl⟩ := RunM.pure_ok.mp h
      exact ⟨trivial, none, .refl r⟩
    | cons p positions =>
      obtain ⟨_, _, hx, h⟩ := RunM.bind_ok.mp h
      obtain ⟨-, rfl⟩ := RunM.lift_ok.mp hx
      split at h <;>
        obtain ⟨rfl, rfl⟩ := RunM.pure_ok.mp h <;>
        exact ⟨trivial, none, .refl r⟩
  | absorbing p remaining past ahead book positions books =>
    cases ahead with
    | nil =>
      obtain ⟨_, _, hx, h⟩ := RunM.bind_ok.mp h
      obtain ⟨-, rfl⟩ := RunM.lift_ok.mp hx
      obtain ⟨rfl, rfl⟩ := RunM.pure_ok.mp h
      exact ⟨trivial, none, .refl r⟩
    | cons o ahead => exact absorbing_tries h
  | crossing done todo =>
    cases todo with
    | nil =>
      obtain ⟨rfl, rfl⟩ := RunM.pure_ok.mp h
      exact ⟨trivial, none, .refl r⟩
    | cons e todo =>
      obtain ⟨rfl, rfl⟩ := RunM.pure_ok.mp h
      exact ⟨trivial, none, .refl r⟩
  | offering m past ahead shorts done todo =>
    cases ahead with
    | nil =>
      obtain ⟨rfl, rfl⟩ := RunM.pure_ok.mp h
      exact ⟨trivial, none, .refl r⟩
    | cons long ahead =>
      cases shorts with
      | nil =>
        obtain ⟨rfl, rfl⟩ := RunM.pure_ok.mp h
        exact ⟨trivial, none, .refl r⟩
      | cons best shorts =>
        rw [Stage.turn] at h
        split at h
        · obtain ⟨rfl, rfl⟩ := RunM.pure_ok.mp h
          exact ⟨trivial, none, .refl r⟩
        obtain ⟨_, _, hg, h⟩ := RunM.bind_ok.mp h
        obtain ⟨rfl, rfl⟩ := RunM.get_ok.mp hg
        split at h
        · obtain ⟨rfl, rfl⟩ := RunM.pure_ok.mp h
          exact ⟨trivial, none, .refl r⟩
        next hs =>
          obtain ⟨rfl, rfl⟩ := RunM.pure_ok.mp h
          exact ⟨not_mem_of_not_isSkipped hs, none, .refl r⟩
  | meeting m past long ahead met left done todo =>
    cases left with
    | nil =>
      obtain ⟨_, _, hx, h⟩ := RunM.bind_ok.mp h
      obtain ⟨-, rfl⟩ := RunM.lift_ok.mp hx
      obtain ⟨rfl, rfl⟩ := RunM.pure_ok.mp h
      exact ⟨trivial, none, .refl r⟩
    | cons short left => exact meeting_tries h hc

end Stage

namespace Leads

/-- What turns submit has no order that sat out before them. -/
theorem journal (h : Leads executor margin config c r c' r') (hc : c.InHand r) :
    ∃ j, r'.journal = r.journal ++ j ∧
      ∀ y ∈ j, ∀ o ∈ y.submission.orders, o.id ∉ r.skipped := by
  induction h with
  | refl c r => exact ⟨[], by simp, by simp⟩
  | @step c c₁ c' r r₁ r' hturn _ ih =>
    obtain ⟨hc₁, x, hx⟩ := Stage.turn_tries hturn hc
    obtain ⟨j, hj, hfresh⟩ := ih hc₁
    refine ⟨x.toList ++ j, by rw [hj, hx.journal, List.append_assoc], ?_⟩
    intro y hy o ho
    rcases List.mem_append.mp hy with hy | hy
    · cases Option.mem_toList.mp hy
      exact hx.fresh o ho
    · exact fun hid => hfresh y hy o ho (hx.skipped _ hid)

/-- The turn in which something was submitted, with the turns before and after it. -/
theorem split (h : Leads executor margin config c r c' r') (hc : c.InHand r)
    (hj : r'.journal = r.journal ++ (before ++ y :: after)) :
    ∃ c₁ s₁ c₂ s₂, Leads executor margin config c r c₁ s₁ ∧
      (c₁.turn executor margin config).run s₁ = .ok c₂ s₂ ∧
      Leads executor margin config c₂ s₂ c' r' ∧ s₁.journal = r.journal ++ before ∧
      c₂.InHand s₂ ∧
      Tries (c₂.books = c₁.books ∧ c₂.remaining? = c₁.remaining?) s₁ s₂ (some y) := by
  induction h generalizing before with
  | refl c r => simp at hj
  | @step c c₁ c' r r₁ r' hturn hrest ih =>
    obtain ⟨hc₁, x, hx⟩ := Stage.turn_tries hturn hc
    obtain ⟨j, hj', -⟩ := hrest.journal hc₁
    have hx' := hx.journal
    have hentries : x.toList ++ j = before ++ y :: after := by
      rw [hj', hx', List.append_assoc] at hj
      exact List.append_cancel_left hj
    -- this turn submits what we look for, or something before it, or nothing
    have hcases : (x = some y ∧ before = []) ∨
        ∃ rest, before = x.toList ++ rest ∧ j = rest ++ y :: after := by
      cases x with
      | none => exact .inr ⟨before, rfl, hentries⟩
      | some z =>
        cases before with
        | nil =>
          cases hentries
          exact .inl ⟨rfl, rfl⟩
        | cons b before =>
          cases hentries
          exact .inr ⟨before, rfl, rfl⟩
    rcases hcases with ⟨rfl, rfl⟩ | ⟨rest, rfl, rfl⟩
    · exact ⟨c, r, c₁, r₁, .refl c r, hturn, hrest, by simp, hc₁, hx⟩
    · obtain ⟨c₂, s₂, c₃, s₃, hleads, hthen, hleads', hbefore, htried⟩ := ih hc₁ hj'
      refine ⟨c₂, s₂, c₃, s₃, .step hturn hleads, hthen, hleads', ?_, htried⟩
      rw [hbefore, hx', List.append_assoc]

end Leads

variable {positions : List LiquidablePosition} {books books' : Map MarketId WorkingBook}
variable {r₁ : RunState σ} {x : Submission} {u : Unit}

/-- A submission that is refused in the liquidations or the matches of a run is tried in a turn that
changes no order, nothing that remains of a position and no margin. It is one failure, and nothing that
is submitted after it has an order of it. -/
theorem refusal_is_atomic_and_final
    (hl : (liquidateAll ⟨executor, margin, config.liquidationBounds⟩ positions
      books).run r = .ok books' r₁)
    (hc : (crossMarkets executor margin config (config.inTurn books')).run r₁ = .ok u r')
    (hj : r'.journal = r.journal ++ (before ++ ⟨x, false⟩ :: after)) :
    ∃ c₁ s₁ c₂ s₂ done,
      Leads executor margin config (.liquidating positions books) r c₁ s₁ ∧
        (c₁.turn executor margin config).run s₁ = .ok c₂ s₂ ∧
        Leads executor margin config c₂ s₂ (.crossing done []) r' ∧
      s₁.journal = r.journal ++ before ∧ s₂.journal = s₁.journal ++ [⟨x, false⟩] ∧
      c₂.books = c₁.books ∧ c₂.remaining? = c₁.remaining? ∧ s₂.marginOf = s₁.marginOf ∧
      s₂.failures = s₁.failures + 1 ∧
      ∀ y ∈ after, ∀ o ∈ x.orders, ∀ o' ∈ y.submission.orders, o'.id ≠ o.id := by
  obtain ⟨done, hleads⟩ := run_leads hl hc
  obtain ⟨c₁, s₁, c₂, s₂, hfirst, hturn, hrest, hbefore, hin, htries⟩ := hleads.split trivial hj
  cases htries with
  | refused hrefused _ _ hout hmargin hfailures hkeeps =>
  obtain ⟨hbooks, hremaining⟩ := hkeeps
  refine ⟨c₁, s₁, c₂, s₂, done, hfirst, hturn, hrest, hbefore, hrefused, hbooks, hremaining, hmargin,
    hfailures, ?_⟩
  intro y hy o ho o' ho' hid
  obtain ⟨j, hj', hfresh⟩ := hrest.journal hin
  have hafter : j = after := by
    rw [hj, hrefused, hbefore] at hj'
    simpa using hj'.symm
  rw [hafter] at hfresh
  exact hfresh y hy o' ho' (hid ▸ hout o ho)

end

/-- Orders 1 and 3 are refused after order 1 has taken part in a liquidation, and after that only orders
2 and 4 are matched. -/
theorem refused_match_of_takers :
    ∃ books' r₁ r' x y z,
      (liquidateAll ⟨Desk.executor, ⟨200000, 500⟩, oneMarket.configuration.liquidationBounds⟩
        [twoUnits] takersBooks).run (.start ((∅ : Map Address Amount).insert (Bytes.ofWord 20 1)
          50000000) default { (default : Desk) with refusedOrders := [Bytes.ofWord 32 3] }) =
            .ok books' r₁ ∧
      (crossMarkets Desk.executor ⟨200000, 500⟩ oneMarket.configuration
        (oneMarket.configuration.inTurn books')).run r₁ = .ok () r' ∧
      r'.journal = [y, ⟨x, false⟩, z] ∧ y.submission.orders.map Order.id = [Bytes.ofWord 32 1] ∧
      x.orders.map Order.id = [Bytes.ofWord 32 1, Bytes.ofWord 32 3] ∧
      z.submission.orders.map Order.id = [Bytes.ofWord 32 2, Bytes.ofWord 32 4] ∧
      ∃ (c₁ c₂ : Stage) (s₁ s₂ : RunState Desk),
        (c₁.turn Desk.executor ⟨200000, 500⟩ oneMarket.configuration).run s₁ = .ok c₂ s₂ ∧
        s₁.journal = [y] ∧ s₂.journal = [y, ⟨x, false⟩] ∧ c₂.books = c₁.books ∧
        c₂.remaining? = c₁.remaining? ∧ s₂.marginOf = s₁.marginOf ∧
        s₂.failures = s₁.failures + 1 ∧
        ∀ w ∈ [z], ∀ o ∈ x.orders, ∀ o' ∈ w.submission.orders, o'.id ≠ o.id := by
  have hrun : (match (liquidateAll ⟨Desk.executor, ⟨200000, 500⟩,
      oneMarket.configuration.liquidationBounds⟩ [twoUnits] takersBooks).run
        (.start ((∅ : Map Address Amount).insert (Bytes.ofWord 20 1) 50000000) default
          { (default : Desk) with refusedOrders := [Bytes.ofWord 32 3] }) with
    | .ok books' r₁ =>
      match (crossMarkets Desk.executor ⟨200000, 500⟩ oneMarket.configuration
          (oneMarket.configuration.inTurn books')).run r₁ with
      | .ok _ r' => r'.journal.map fun y => (y.submission.orders.map Order.id, y.accepted)
      | .error _ _ => []
    | .error _ _ => []) = [([Bytes.ofWord 32 1], true),
      ([Bytes.ofWord 32 1, Bytes.ofWord 32 3], false),
      ([Bytes.ofWord 32 2, Bytes.ofWord 32 4], true)] := by decide +kernel
  split at hrun
  next books' r₁ hl =>
    split at hrun
    next u r' hc =>
      obtain ⟨y, _, hj, hy, hrun⟩ := List.map_eq_cons_iff.mp hrun
      obtain ⟨⟨x, accepted⟩, _, rfl, hx, hrun⟩ := List.map_eq_cons_iff.mp hrun
      obtain ⟨z, _, rfl, hz, hrun⟩ := List.map_eq_cons_iff.mp hrun
      cases List.map_eq_nil_iff.mp hrun
      obtain ⟨hx, rfl⟩ := Prod.mk.inj hx
      have hj' : r'.journal = [] ++ ([y] ++ ⟨x, false⟩ :: [z]) := hj
      obtain ⟨c₁, s₁, c₂, s₂, _, -, hturn, -, hbefore, hrefused, hkept⟩ :=
        refusal_is_atomic_and_final hl hc hj'
      refine ⟨books', r₁, r', x, y, z, hl, hc, hj, (Prod.mk.inj hy).1, hx, (Prod.mk.inj hz).1,
        c₁, c₂, s₁, s₂, hturn, hbefore, ?_, hkept⟩
      rw [hrefused, hbefore]
      rfl
    next => cases hrun
  next => cases hrun

end PerpExchange
