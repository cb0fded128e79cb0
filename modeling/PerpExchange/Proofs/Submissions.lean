import PerpExchange.Proofs.FillBudget
import PerpExchange.Proofs.MarginFlow
import PerpExchange.Proofs.RunJournal

/-! What the steps of a run submit, whether they answer or stop at a fault: the walks over books only
trade, and name no orders but those they are given. -/
namespace PerpExchange

namespace RunM
variable {σ α β : Type} {r r' : RunState σ} {x : RunM σ α} {f : α → RunM σ β}
  {P : Submission → Prop} {Q : α → Prop} {R : β → Prop}

/-- The state a step leaves behind, whichever way it ends. -/
def left (x : RunM σ α) (r : RunState σ) : RunState σ :=
  match x.run r with
  | .ok _ r' | .error _ r' => r'

theorem left_of_ok {a : α} (h : x.run r = .ok a r') : x.left r = r' := by
  rw [left, h]

theorem left_of_error {e : Fault} (h : x.run r = .error e r') : x.left r = r' := by
  rw [left, h]

theorem left_bind_of_ok {a : α} (h : x.run r = .ok a r') : (x >>= f).left r = (f a).left r' := by
  rw [left, left, run_bind_of_ok h]

theorem left_bind_of_error {e : Fault} (h : x.run r = .error e r') : (x >>= f).left r = r' := by
  unfold left
  rw [EStateM.run_bind, h]

theorem run_modify_bind {g : RunState σ → RunState σ} {f : PUnit → RunM σ β} :
    (modify g >>= f).run r = (f ⟨⟩).run (g r) := rfl

/-- A step submits nothing without a property, whichever way it ends, and if it answers, then with
something that has one. -/
def Submits (x : RunM σ α) (P : Submission → Prop) (Q : α → Prop) : Prop :=
  ∀ r, (∃ j, (x.left r).journal = r.journal ++ j ∧ ∀ y ∈ j, P y.submission) ∧
    ∀ a r', x.run r = .ok a r' → Q a

theorem Submits.bind (h : Submits x P Q) (hf : ∀ a, Q a → Submits (f a) P R) :
    Submits (x >>= f) P R := by
  intro r
  obtain ⟨⟨j, hj, hp⟩, hq⟩ := h r
  cases hx : x.run r with
  | error e r₁ =>
    rw [left_of_error hx] at hj
    rw [left_bind_of_error hx]
    refine ⟨⟨j, hj, hp⟩, fun b r' hb => ?_⟩
    obtain ⟨a, r₂, ha, -⟩ := bind_ok.mp hb
    rw [hx] at ha
    cases ha
  | ok a r₁ =>
    obtain ⟨⟨j', hj', hp'⟩, hr⟩ := hf a (hq a r₁ hx) r₁
    rw [left_of_ok hx] at hj
    rw [left_bind_of_ok hx]
    refine ⟨⟨j ++ j', ?_, List.forall_mem_append.mpr ⟨hp, hp'⟩⟩, fun b r' hb => ?_⟩
    · rw [hj', hj, List.append_assoc]
    · obtain ⟨a', r₂, ha, hb⟩ := bind_ok.mp hb
      rw [hx] at ha
      cases ha
      exact hr b r' hb

theorem Submits.andThen (h : Submits x P fun _ => True) (hf : ∀ a, Submits (f a) P R) :
    Submits (x >>= f) P R := h.bind fun a _ => hf a

/-- A step that leaves the journal alone submits nothing. -/
theorem submits_of_journal_eq (hj : ∀ r, (x.left r).journal = r.journal)
    (hq : ∀ a r r', x.run r = .ok a r' → Q a) : Submits x P Q :=
  fun r => ⟨⟨[], by rw [hj, List.append_nil], fun y hy => absurd hy List.not_mem_nil⟩,
    fun a r' ha => hq a r r' ha⟩

theorem submits_pure {a : α} (h : Q a) : Submits (pure a : RunM σ α) P Q := by
  refine submits_of_journal_eq (fun _ => rfl) fun b r r' hb => ?_
  obtain ⟨rfl, -⟩ := pure_ok.mp hb
  exact h

theorem submits_lift {y : Checked α} (h : ∀ a, y = .ok a → Q a) :
    Submits (liftM y : RunM σ α) P Q := by
  refine submits_of_journal_eq (fun r => ?_) fun a r r' ha => h a (lift_ok.mp ha).1
  cases y <;> rfl

theorem submits_get : Submits (get : RunM σ (RunState σ)) P fun _ => True :=
  submits_of_journal_eq (fun _ => rfl) fun _ _ _ _ => trivial

theorem submits_modify {g : RunState σ → RunState σ} (hg : ∀ r, (g r).journal = r.journal) :
    Submits (modify g : RunM σ PUnit) P fun _ => True :=
  submits_of_journal_eq hg fun _ _ _ _ => trivial

theorem Submits.afterModify {g : RunState σ → RunState σ} {y : RunM σ β}
    (hg : ∀ r, (g r).journal = r.journal) (h : Submits y P R) :
    Submits (modify g >>= fun _ => y) P R := (submits_modify hg).andThen fun _ => h

theorem submits_count (c : Counter) : Submits (count c : RunM σ Unit) P fun _ => True :=
  submits_modify fun _ => rfl

theorem submits_skip (id : Hash) : Submits (skip id : RunM σ Unit) P fun _ => True :=
  submits_modify fun _ => rfl

theorem submits_submit {executor : Executor σ} {y : Submission} (h : P y) :
    Submits (submit executor y) P fun _ => True := by
  intro r
  obtain ⟨accepted, r', hr, -⟩ := yields_submit (r := r) executor y
  refine ⟨⟨[⟨y, accepted⟩], ?_, List.forall_mem_singleton.mpr h⟩, fun _ _ _ => trivial⟩
  rw [left_of_ok hr]
  exact submit_journal hr

theorem submits_release (trader : Address) (amount : Amount) :
    Submits (release trader amount : RunM σ Unit) P fun _ => True := by
  unfold release
  split
  · exact submits_pure trivial
  · refine submits_get.andThen fun r => ?_
    refine (submits_lift fun _ _ => trivial).andThen fun sum => ?_
    exact submits_modify fun _ => rfl

theorem submits_reserve (terms : MarginTerms) (bound : Option Amount) (o : Order) (fill : Amount) :
    Submits (reserve terms bound o fill : RunM σ (Option Amount)) P fun _ => True := by
  unfold reserve
  split
  · exact submits_pure trivial
  · refine (submits_lift fun _ _ => trivial).andThen fun required => ?_
    refine submits_get.andThen fun r => ?_
    refine Submits.afterModify (fun _ => rfl) ?_
    split
    · exact submits_pure trivial
    · refine (submits_lift fun _ _ => trivial).andThen fun left => ?_
      refine Submits.afterModify (fun _ => rfl) ?_
      exact submits_pure trivial

end RunM

/-- A submission trades, and all orders it names are under ids with a property. -/
structure Submission.TradesOnly (K : Hash → Prop) (x : Submission) : Prop where
  trades : x.Trades
  names : ∀ o ∈ x.orders, K o.id

/-- All orders of the books are under ids with a property. -/
def HoldOnly (K : Hash → Prop) (books : Map MarketId WorkingBook) : Prop :=
  ∀ (m : MarketId) (b : WorkingBook), books[m]? = some b → ∀ side, ∀ o ∈ b.side side, K o.id

section
open RunM
variable {σ : Type} {K : Hash → Prop} {P : Submission → Prop}

theorem submits_agree (t : MatchTerms σ) (long short : Order) :
    Submits (agree t long short) P fun _ => True := by
  unfold agree
  split
  · exact submits_pure trivial
  split
  · exact submits_pure trivial
  refine (submits_lift fun _ _ => trivial).andThen fun longOpen => ?_
  refine (submits_lift fun _ _ => trivial).andThen fun shortOpen => ?_
  refine (submits_lift fun _ _ => trivial).andThen fun fill => ?_
  split
  · exact submits_pure trivial
  refine (submits_reserve t.margin t.upperBound long fill).andThen fun longMargin => ?_
  cases longMargin with
  | none => exact (submits_count _).andThen fun _ => submits_pure trivial
  | some longMargin =>
    refine (submits_reserve t.margin t.upperBound short fill).andThen fun shortMargin => ?_
    cases shortMargin with
    | none =>
      refine (submits_count _).andThen fun _ => ?_
      exact (submits_release _ _).andThen fun _ => submits_pure trivial
    | some shortMargin => exact submits_pure trivial

/-- A pair names the two, and leaves two under the same ids. -/
theorem submits_tradePair (t : MatchTerms σ) {long short : Order} (hl : K long.id)
    (hs : K short.id) :
    Submits (tradePair t long short) (Submission.TradesOnly K) fun result =>
      K (result.after long short).1.id ∧ K (result.after long short).2.id := by
  unfold tradePair
  refine (submits_agree t long short).andThen fun agreement => ?_
  cases agreement with
  | none => exact submits_pure ⟨hl, hs⟩
  | some x =>
    have hnames : Submission.TradesOnly K (.matchOrders long short x.fill) := by
      refine ⟨trivial, fun o ho => ?_⟩
      rcases List.mem_cons.mp ho with rfl | ho
      · exact hl
      · rw [List.mem_singleton.mp ho]
        exact hs
    refine (submits_submit hnames).andThen fun accepted => ?_
    split
    · refine (submits_lift fun _ _ => trivial).andThen fun longFilled => ?_
      refine (submits_lift fun _ _ => trivial).andThen fun shortFilled => ?_
      refine Submits.afterModify (fun _ => rfl) ?_
      refine (submits_count _).andThen fun _ => ?_
      exact submits_pure ⟨hl, hs⟩
    · refine (submits_count _).andThen fun _ => ?_
      refine (submits_release _ _).andThen fun _ => ?_
      refine (submits_release _ _).andThen fun _ => ?_
      refine (submits_skip _).andThen fun _ => ?_
      exact (submits_skip _).andThen fun _ => submits_pure ⟨hl, hs⟩

theorem submits_crossLong (t : MatchTerms σ) {long : Order} {shorts : List Order}
    (hl : K long.id) (hs : ∀ o ∈ shorts, K o.id) :
    Submits (crossLong t long shorts) (Submission.TradesOnly K) fun x =>
      K x.1.id ∧ ∀ o ∈ x.2, K o.id := by
  induction shorts generalizing long with
  | nil => exact submits_pure ⟨hl, hs⟩
  | cons short rest ih =>
    obtain ⟨hshort, hrest⟩ := List.forall_mem_cons.mp hs
    -- The walk goes on with a long, and puts a short back in front.
    have hgoOn : ∀ {l s : Order}, K l.id → K s.id → Submits (do
        let x ← crossLong t l rest
        return (x.1, s :: x.2)) (Submission.TradesOnly K) fun x =>
          K x.1.id ∧ ∀ o ∈ x.2, K o.id :=
      fun hl hs => (ih hl hrest).bind fun x hx =>
        submits_pure ⟨hx.1, List.forall_mem_cons.mpr ⟨hs, hx.2⟩⟩
    unfold crossLong
    refine (submits_lift fun _ _ => trivial).andThen fun unfilled => ?_
    split
    · exact submits_pure ⟨hl, hs⟩
    split
    · exact submits_pure ⟨hl, hs⟩
    refine submits_get.andThen fun r => ?_
    split
    · exact hgoOn hl hshort
    apply (submits_tradePair t hl hshort).bind
    intro result hresult
    cases result with
    | passed => exact hgoOn hl hshort
    | filled l s => exact hgoOn hresult.1 hresult.2
    | refused => exact submits_pure ⟨hl, hs⟩

theorem submits_crossAll (t : MatchTerms σ) {longs shorts : List Order}
    (hl : ∀ o ∈ longs, K o.id) (hs : ∀ o ∈ shorts, K o.id) :
    Submits (crossAll t longs shorts) (Submission.TradesOnly K) fun _ => True := by
  induction longs generalizing shorts with
  | nil => exact submits_pure trivial
  | cons long longs ih =>
    obtain ⟨hlong, hl⟩ := List.forall_mem_cons.mp hl
    cases shorts with
    | nil => exact submits_pure trivial
    | cons best shorts =>
      unfold crossAll
      split
      · exact submits_pure trivial
      refine submits_get.andThen fun r => ?_
      split
      · exact (ih hl hs).bind fun _ _ => submits_pure trivial
      apply (submits_crossLong t hlong hs).bind
      rintro ⟨long', shorts'⟩ ⟨-, hs'⟩
      apply (submits_lift (Q := fun kept => ∀ o ∈ kept, K o.id) fun kept hkept o ho =>
        hs' o (mem_of_openOrders hkept o ho)).bind
      intro kept hkept
      exact (ih hl hkept).bind fun _ _ => submits_pure trivial

theorem submits_absorb (t : LiquidationTerms σ) (p : LiquidablePosition) (a : Amount)
    {orders : List Order} (ho : ∀ o ∈ orders, K o.id) :
    Submits (absorb t p a orders) (Submission.TradesOnly K) fun x => ∀ o ∈ x.2, K o.id := by
  induction orders generalizing a with
  | nil => exact submits_pure ho
  | cons o rest ih =>
    obtain ⟨hfirst, hrest⟩ := List.forall_mem_cons.mp ho
    have hgoOn : ∀ (a : Amount) {o : Order}, K o.id → Submits (do
        let x ← absorb t p a rest
        return (x.1, o :: x.2)) (Submission.TradesOnly K) fun x => ∀ o ∈ x.2, K o.id :=
      fun a _ ho => (ih a hrest).bind fun x hx =>
        submits_pure (List.forall_mem_cons.mpr ⟨ho, hx⟩)
    unfold absorb
    split
    · exact submits_pure ho
    split
    · exact submits_pure ho
    refine submits_get.andThen fun r => ?_
    split
    · exact hgoOn a hfirst
    refine (submits_lift fun _ _ => trivial).andThen fun unfilled => ?_
    refine (submits_lift fun _ _ => trivial).andThen fun fill => ?_
    split
    · exact hgoOn a hfirst
    refine (submits_reserve _ _ o fill).andThen fun reserved => ?_
    cases reserved with
    | none => exact (submits_count _).andThen fun _ => hgoOn a hfirst
    | some reserved =>
      have hnames : Submission.TradesOnly K (.liquidate p.trader o fill) :=
        ⟨trivial, List.forall_mem_singleton.mpr hfirst⟩
      refine (submits_submit hnames).andThen fun accepted => ?_
      split
      · refine (submits_lift fun _ _ => trivial).andThen fun signed => ?_
        refine (submits_lift fun _ _ => trivial).andThen fun filled => ?_
        refine (submits_lift fun _ _ => trivial).andThen fun left => ?_
        refine Submits.afterModify (fun _ => rfl) ?_
        refine (submits_count _).andThen fun _ => ?_
        exact hgoOn left hfirst
      · refine (submits_count _).andThen fun _ => ?_
        refine (submits_release _ _).andThen fun _ => ?_
        exact (submits_skip _).andThen fun _ => submits_pure ho

theorem submits_liquidate (t : LiquidationTerms σ) (p : LiquidablePosition)
    {books : Map MarketId WorkingBook} (hb : HoldOnly K books) :
    Submits (liquidate t p books) (Submission.TradesOnly K) (HoldOnly K) := by
  unfold liquidate
  refine (submits_lift fun _ _ => trivial).andThen fun remaining => ?_
  cases hbook : books[p.market]? with
  | none => exact submits_pure hb
  | some b =>
    apply (submits_absorb t p remaining (hb p.market b hbook p.side)).bind
    rintro ⟨a, orders⟩ ho
    have hsides : ∀ side, ∀ o ∈ (b.withSide p.side orders).side side, K o.id := by
      intro side
      rw [WorkingBook.side_withSide]
      split
      · exact ho
      · exact hb p.market b hbook side
    apply (submits_lift (Q := fun pruned => ∀ side, ∀ o ∈ pruned.side side, K o.id)
      fun pruned hpruned side o ho =>
        hsides side o (mem_of_openOrders (WorkingBook.prune_eq_ok hpruned side) o ho)).bind
    intro pruned hpruned
    refine submits_pure fun m b' hb' => ?_
    rw [Map.getElem?_insert_key] at hb'
    split at hb'
    · cases hb'
      exact hpruned
    · exact hb m b' hb'

theorem submits_liquidateAll (t : LiquidationTerms σ) (positions : List LiquidablePosition)
    {books : Map MarketId WorkingBook} (hb : HoldOnly K books) :
    Submits (liquidateAll t positions books) (Submission.TradesOnly K) (HoldOnly K) := by
  induction positions generalizing books with
  | nil => exact submits_pure hb
  | cons p rest ih => exact (submits_liquidate t p hb).bind fun _ hb' => ih hb'

theorem submits_crossMarkets (executor : Executor σ) (margin : MarginTerms)
    (config : Configuration) {entries : List (MarketId × WorkingBook)}
    (he : ∀ e ∈ entries, ∀ side, ∀ o ∈ e.2.side side, K o.id) :
    Submits (crossMarkets executor margin config entries) (Submission.TradesOnly K)
      fun _ => True := by
  induction entries with
  | nil => exact submits_pure trivial
  | cons e rest ih =>
    rcases e with ⟨m, b⟩
    obtain ⟨hb, hrest⟩ := List.forall_mem_cons.mp he
    exact (submits_crossAll _ (hb .long) (hb .short)).bind fun _ _ => ih hrest

end
end PerpExchange
