import PerpExchange.Proofs.Alike
import PerpExchange.Proofs.Maximality

/-! Crossing stops early without loss: where it passes over pairs, because prices no longer cross, a
long is used up or a submission was refused, a walk over all pairs finds nothing to do. -/
namespace PerpExchange

section
variable {σ : Type}

/-- Tries to trade a pair, if neither order sits out and both have something open. -/
def tryPair (t : MatchTerms σ) (long short : Order) : RunM σ (Order × Order) := do
  if (← get).isSkipped long then return (long, short)
  if (← get).isSkipped short then return (long, short)
  if (← long.unfilled) = 0 then return (long, short)
  if (← short.unfilled) = 0 then return (long, short)
  return (← tradePair t long short).after long short

/-- Tries a long with every short in turn. -/
def tryShorts (t : MatchTerms σ) (long : Order) : List Order → RunM σ (Order × List Order)
  | [] => return (long, [])
  | short :: rest => do
    let (long, short) ← tryPair t long short
    let (long, rest) ← tryShorts t long rest
    return (long, short :: rest)

/-- Tries every long with every short in turn, and drops none of them. -/
def tryAll (t : MatchTerms σ) : List Order → List Order → RunM σ (List Order × List Order)
  | [], shorts => return ([], shorts)
  | long :: longs, shorts => do
    let (long, shorts) ← tryShorts t long shorts
    let (longs, shorts) ← tryAll t longs shorts
    return (long :: longs, shorts)

/-- Two orders that cannot trade as things stand. -/
def Idle (r : RunState σ) (long short : Order) : Prop :=
  r.isSkipped long ∨ r.isSkipped short ∨ long.openSize = 0 ∨ short.openSize = 0 ∨
    long.price < short.price

/-- The shorts that a long was offered to, all of them and without some that are used up: filled
within their sizes, and at the prices they had. -/
structure Tracks (shorts kept' shorts' : List Order) : Prop where
  prunes : Prunes shorts' kept'
  within : ∀ o ∈ shorts', o.FilledWithin .short
  prices : shorts'.map Order.price = shorts.map Order.price

/-- The turns of a long end with the same long, and with shorts that differ in some that are used
up. -/
def SameTurns (shorts : List Order) (a b : Order × List Order) : Prop :=
  a.1 = b.1 ∧ Tracks shorts a.2 b.2

variable {t : MatchTerms σ} {r : RunState σ} {long short short' : Order}
variable {longs shorts kept kept' orders rest rest' : List Order}

theorem Tracks.refl (h : Prunes shorts kept) (hs : ∀ o ∈ shorts, o.FilledWithin .short) :
    Tracks shorts kept shorts where
  prunes := h
  within := hs
  prices := rfl

theorem Tracks.keep (h : Tracks rest kept' rest') (hs : short'.FilledWithin .short)
    (hp : short'.price = short.price) :
    Tracks (short :: rest) (short' :: kept') (short' :: rest') where
  prunes := h.prunes.keep short'
  within := List.forall_mem_cons.mpr ⟨hs, h.within⟩
  prices := by rw [List.map_cons, List.map_cons, hp, h.prices]

theorem Tracks.drop (h : Tracks rest kept' rest') (hs : short.FilledWithin .short)
    (h0 : short.openSize = 0) : Tracks (short :: rest) kept' (short :: rest') where
  prunes := h.prunes.drop h0
  within := List.forall_mem_cons.mpr ⟨hs, h.within⟩
  prices := by rw [List.map_cons, List.map_cons, h.prices]

theorem tryPair_of_idle (h : Idle r long short) (hl : long.FilledWithin .long)
    (hs : short.FilledWithin .short) : (tryPair t long short).run r = .ok (long, short) r := by
  obtain ⟨a, ha⟩ := hl.exists_unfilled
  obtain ⟨b, hb⟩ := hs.exists_unfilled
  unfold tryPair
  rw [RunM.run_bind_of_ok (RunM.get_ok.mpr ⟨rfl, rfl⟩)]
  split
  next => rfl
  next hlong =>
  rw [RunM.run_bind_of_ok (RunM.get_ok.mpr ⟨rfl, rfl⟩)]
  split
  next => rfl
  next hshort =>
  rw [RunM.run_bind_of_ok (RunM.lift_ok.mpr ⟨ha, rfl⟩)]
  split
  next => rfl
  next ha0 =>
  rw [RunM.run_bind_of_ok (RunM.lift_ok.mpr ⟨hb, rfl⟩)]
  split
  next => rfl
  next hb0 =>
  rw [← Order.openSize_eq_zero ha] at ha0
  rw [← Order.openSize_eq_zero hb] at hb0
  have hp : long.price < short.price := by
    simpa [Idle, hlong, hshort, ha0, hb0] using h
  simp [tradePair, agree, hp, PairResult.after]

/-- A long that can trade with none of the shorts leaves all as it is. -/
theorem tryShorts_of_idle (h : ∀ short ∈ shorts, Idle r long short) (hl : long.FilledWithin .long)
    (hs : ∀ o ∈ shorts, o.FilledWithin .short) :
    (tryShorts t long shorts).run r = .ok (long, shorts) r := by
  induction shorts with
  | nil => rfl
  | cons short rest ih =>
    obtain ⟨hshort, hrest⟩ := List.forall_mem_cons.mp hs
    obtain ⟨hfirst, hlater⟩ := List.forall_mem_cons.mp h
    unfold tryShorts
    rw [RunM.run_bind_of_ok (tryPair_of_idle hfirst hl hshort),
      RunM.run_bind_of_ok (ih hlater hrest)]
    rfl

theorem tryAll_of_idle (h : ∀ long ∈ longs, ∀ short ∈ shorts, Idle r long short)
    (hl : ∀ o ∈ longs, o.FilledWithin .long) (hs : ∀ o ∈ shorts, o.FilledWithin .short) :
    (tryAll t longs shorts).run r = .ok (longs, shorts) r := by
  induction longs with
  | nil => rfl
  | cons long longs ih =>
    obtain ⟨hlong, hlongs⟩ := List.forall_mem_cons.mp hl
    obtain ⟨hfirst, hlater⟩ := List.forall_mem_cons.mp h
    unfold tryAll
    rw [RunM.run_bind_of_ok (tryShorts_of_idle hfirst hlong hs),
      RunM.run_bind_of_ok (ih hlater hlongs)]
    rfl

/-- A pair with a short that is used up is passed over. -/
theorem tradePair_of_full (hl : long.FilledWithin .long) (hs : short.FilledWithin .short)
    (h0 : short.openSize = 0) : (tradePair t long short).run r = .ok .passed r := by
  obtain ⟨a, ha⟩ := hl.exists_unfilled
  obtain ⟨b, hb⟩ := hs.exists_unfilled
  have hb0 : b = 0 := (Order.openSize_eq_zero hb).mp h0
  have hfill : a.minAbs 0 = .ok 0 := by
    have ha0 : a ≠ Amount.least := by
      have hopen := Amount.sub_eq_ok_iff.mp ha
      have hle := Amount.le_iff.mp hl.2
      rw [Amount.ne_least_iff]
      omega
    obtain ⟨c, hc, hmin⟩ := Amount.yields_minAbs ha0 (show (0 : Amount) ≠ Amount.least by decide)
    have hc0 : c = 0 := by
      rw [Amount.eq_iff, hmin, Amount.toInt_zero]
      omega
    rw [hc, hc0]
  have hagree : (agree t long short).run r = .ok none r := by
    unfold agree
    split
    next => rfl
    split
    next => rfl
    rw [RunM.run_bind_of_ok (RunM.lift_ok.mpr ⟨ha, rfl⟩),
      RunM.run_bind_of_ok (RunM.lift_ok.mpr ⟨hb, rfl⟩), hb0,
      RunM.run_bind_of_ok (RunM.lift_ok.mpr ⟨hfill, rfl⟩)]
    rfl
  unfold tradePair
  rw [RunM.run_bind_of_ok hagree]
  rfl

/-- A pair that neither order of which sits out, or is used up, is tried. -/
theorem tryPair_of_open (hl : long.FilledWithin .long) (hs : short.FilledWithin .short)
    (hlong : ¬ r.isSkipped long) (hshort : ¬ r.isSkipped short) (hl0 : long.openSize ≠ 0)
    (hs0 : short.openSize ≠ 0) :
    (tryPair t long short).run r =
      (do return (← tradePair t long short).after long short : RunM σ (Order × Order)).run r := by
  obtain ⟨a, ha⟩ := hl.exists_unfilled
  obtain ⟨b, hb⟩ := hs.exists_unfilled
  rw [Ne, Order.openSize_eq_zero ha] at hl0
  rw [Ne, Order.openSize_eq_zero hb] at hs0
  unfold tryPair
  rw [RunM.run_bind_of_ok (RunM.get_ok.mpr ⟨rfl, rfl⟩), if_neg hlong,
    RunM.run_bind_of_ok (RunM.get_ok.mpr ⟨rfl, rfl⟩), if_neg hshort,
    RunM.run_bind_of_ok (RunM.lift_ok.mpr ⟨ha, rfl⟩), if_neg hl0,
    RunM.run_bind_of_ok (RunM.lift_ok.mpr ⟨hb, rfl⟩), if_neg hs0]


/-- Where a long stops, no pair is left that could be tried. -/
theorem alike_stop (hk : Prunes shorts kept) (hl : long.FilledWithin .long)
    (hs : ∀ o ∈ shorts, o.FilledWithin .short) (hidle : ∀ o ∈ shorts, Idle r long o) :
    RunM.Alike (SameTurns shorts) (.ok (long, kept) r) ((tryShorts t long shorts).run r) := by
  rw [tryShorts_of_idle hidle hl hs]
  exact .ok ⟨rfl, .refl hk hs⟩

/-- Where a long passes on to the next short, so does the walk over all pairs. -/
theorem alike_next
    (h : RunM.Alike (SameTurns rest) ((crossLong t long kept).run r) ((tryShorts t long rest).run r))
    (hs : short'.FilledWithin .short) (hp : short'.price = short.price) :
    RunM.Alike (SameTurns (short :: rest))
      ((do
        let (long, rest) ← crossLong t long kept
        return (long, short' :: rest) : RunM σ (Order × List Order)).run r)
      ((do
        let (long, rest) ← tryShorts t long rest
        return (long, short' :: rest) : RunM σ (Order × List Order)).run r) := by
  apply h.bind
  rintro ⟨long₁, kept₁⟩ ⟨_, rest₁⟩ r₁ ⟨rfl, htracks⟩ -
  exact .ok ⟨rfl, htracks.keep hs hp⟩

/-- A pair that is tried by both. A refused long has no more turns either way: it sits out. -/
theorem alike_trade (hk : Prunes rest kept) (hl : long.FilledWithin .long)
    (hs : short.FilledWithin .short) (hrest : ∀ o ∈ rest, o.FilledWithin .short)
    (hlong : ¬ r.isSkipped long) (hshort : ¬ r.isSkipped short) (hl0 : long.openSize ≠ 0)
    (hs0 : short.openSize ≠ 0)
    (ih : ∀ {long : Order} {r : RunState σ}, long.FilledWithin .long → ¬ r.isSkipped long →
      RunM.Alike (SameTurns rest) ((crossLong t long kept).run r)
        ((tryShorts t long rest).run r)) :
    RunM.Alike (SameTurns (short :: rest))
      ((do
        match ← tradePair t long short with
        | .passed =>
          let (long, rest) ← crossLong t long kept
          return (long, short :: rest)
        | .filled long short =>
          let (long, rest) ← crossLong t long kept
          return (long, short :: rest)
        | .refused => return (long, short :: kept) : RunM σ (Order × List Order)).run r)
      ((tryShorts t long (short :: rest)).run r) := by
  unfold tryShorts
  rw [RunM.run_bind_congr (tryPair_of_open hl hs hlong hshort hl0 hs0), bind_assoc]
  apply RunM.alike_bind
  intro result r₁ htrade
  have htrade := trades_of_run htrade
  rw [pure_bind]
  cases result with
  | passed =>
    have hin : ¬ r₁.isSkipped long := by
      rw [RunState.isSkipped, htrade.passed_skipped]
      exact hlong
    exact alike_next (ih hl hin) hs rfl
  | filled long₁ short₁ =>
    obtain ⟨fill, -, hfills⟩ := htrade.fills
    have hin : ¬ r₁.isSkipped long₁ := by
      rw [RunState.isSkipped, htrade.filled_skipped, hfills.long_copy]
      exact hlong
    have hprice : short₁.price = short.price := by rw [hfills.short_copy]
    exact alike_next (ih (hfills.long_within hl) hin) (hfills.short_within hs) hprice
  | refused =>
    have hout : r₁.isSkipped long := by
      rw [RunState.isSkipped, htrade.refused_skipped]
      simp
    dsimp only [PairResult.after]
    rw [RunM.run_bind_of_ok (tryShorts_of_idle (fun o _ => .inl hout) hl hrest)]
    exact .ok ⟨rfl, .refl (hk.keep short) (List.forall_mem_cons.mpr ⟨hs, hrest⟩)⟩

/-- A long stops at the shorts where trying it with all of them does nothing more. -/
theorem crossLong_alike (hk : Prunes shorts kept) (hl : long.FilledWithin .long)
    (hs : ∀ o ∈ shorts, o.FilledWithin .short)
    (hsorted : shorts.Pairwise fun o p => o.price ≤ p.price) (hin : ¬ r.isSkipped long) :
    RunM.Alike (SameTurns shorts) ((crossLong t long kept).run r)
      ((tryShorts t long shorts).run r) := by
  induction hk generalizing long r with
  | nil => exact .ok ⟨rfl, .refl .nil hs⟩
  | @drop rest kept short h0 hk ih =>
    obtain ⟨hshort, hrest⟩ := List.forall_mem_cons.mp hs
    have hidle : Idle r long short := by simp [Idle, h0]
    unfold tryShorts
    rw [RunM.run_bind_of_ok (tryPair_of_idle hidle hl hshort), ← bind_pure (crossLong t long kept)]
    apply (ih hl hrest (List.pairwise_cons.mp hsorted).2 hin).bind
    rintro ⟨long₁, kept₁⟩ ⟨_, rest₁⟩ r₁ ⟨rfl, htracks⟩ -
    exact .ok ⟨rfl, htracks.drop hshort h0⟩
  | @keep rest kept short hk ih =>
    obtain ⟨hshort, hrest⟩ := List.forall_mem_cons.mp hs
    obtain ⟨hle, hsorted⟩ := List.pairwise_cons.mp hsorted
    obtain ⟨a, ha⟩ := hl.exists_unfilled
    unfold crossLong
    rw [RunM.run_bind_of_ok (RunM.lift_ok.mpr ⟨ha, rfl⟩)]
    split
    next ha0 =>
      have hfull : long.openSize = 0 := (Order.openSize_eq_zero ha).mpr ha0
      exact alike_stop (hk.keep short) hl hs fun o _ => by simp [Idle, hfull]
    next ha0 =>
    have hopen : long.openSize ≠ 0 := fun h => ha0 ((Order.openSize_eq_zero ha).mp h)
    split
    next hp =>
      apply alike_stop (hk.keep short) hl hs
      intro o ho
      rcases List.mem_cons.mp ho with rfl | ho
      · simp [Idle, hp]
      · have hfar : long.price < o.price := Int.lt_of_lt_of_le hp (hle o ho)
        simp [Idle, hfar]
    next hp =>
    rw [RunM.run_bind_of_ok (RunM.get_ok.mpr ⟨rfl, rfl⟩)]
    split
    next hskip =>
      have hidle : Idle r long short := by simp [Idle, hskip]
      unfold tryShorts
      rw [RunM.run_bind_of_ok (tryPair_of_idle hidle hl hshort)]
      exact alike_next (ih hl hrest hsorted hin) hshort rfl
    next hskip =>
    by_cases h0 : short.openSize = 0
    · have hidle : Idle r long short := by simp [Idle, h0]
      unfold tryShorts
      rw [RunM.run_bind_of_ok (tradePair_of_full hl hshort h0),
        RunM.run_bind_of_ok (tryPair_of_idle hidle hl hshort)]
      exact alike_next (ih hl hrest hsorted hin) hshort rfl
    · exact alike_trade hk hl hshort hrest hin hskip hopen h0 fun hl hin => ih hl hrest hsorted hin

/-- Crossing stops where trying all pairs does nothing more. -/
theorem crossAll_alike (hk : Prunes shorts kept) (hl : ∀ o ∈ longs, o.FilledWithin .long)
    (hs : ∀ o ∈ shorts, o.FilledWithin .short)
    (hlongs : longs.Pairwise fun o p => p.price ≤ o.price)
    (hshorts : shorts.Pairwise fun o p => o.price ≤ p.price) :
    RunM.Alike (fun a b => a.1 = b.1 ∧ Prunes b.2 a.2)
      ((crossAll t longs kept).run r) ((tryAll t longs shorts).run r) := by
  induction longs generalizing shorts kept r with
  | nil => exact .ok ⟨rfl, hk⟩
  | cons long longs ih =>
    have hstop : (∀ l ∈ long :: longs, ∀ o ∈ shorts, Idle r l o) →
        RunM.Alike (fun a b => a.1 = b.1 ∧ Prunes b.2 a.2)
          (.ok (long :: longs, kept) r) ((tryAll t (long :: longs) shorts).run r) := by
      intro hidle
      rw [tryAll_of_idle hidle hl hs]
      exact .ok ⟨rfl, hk⟩
    obtain ⟨hlong, hl⟩ := List.forall_mem_cons.mp hl
    obtain ⟨hfront, hlongs⟩ := List.pairwise_cons.mp hlongs
    cases kept with
    | nil =>
      apply hstop
      intro l _ o ho
      by_cases h0 : o.openSize = 0
      · simp [Idle, h0]
      · exact absurd (hk.mem ho h0) List.not_mem_nil
    | cons best kept =>
    unfold crossAll
    split
    next hp =>
      apply hstop
      intro l hlmem o ho
      by_cases h0 : o.openSize = 0
      · simp [Idle, h0]
      · have hlow : l.price ≤ long.price := by
          rcases List.mem_cons.mp hlmem with rfl | hlmem
          · exact Int.le_refl _
          · exact hfront l hlmem
        have hhigh : best.price ≤ o.price := by
          rcases List.mem_cons.mp (hk.mem ho h0) with rfl | ho
          · exact Int.le_refl _
          · exact (List.pairwise_cons.mp (hshorts.sublist hk.sublist)).1 o ho
        have hfar : l.price < o.price := Int.lt_of_le_of_lt hlow (Int.lt_of_lt_of_le hp hhigh)
        simp [Idle, hfar]
    next hp =>
    rw [RunM.run_bind_of_ok (RunM.get_ok.mpr ⟨rfl, rfl⟩)]
    split
    next hskip =>
      unfold tryAll
      rw [RunM.run_bind_of_ok (tryShorts_of_idle (fun o _ => .inl hskip) hlong hs)]
      apply (ih hk hl hs hlongs hshorts).bind
      rintro ⟨longs₁, kept₁⟩ ⟨_, shorts₁⟩ r₁ ⟨rfl, hk₁⟩ -
      exact .ok ⟨rfl, hk₁⟩
    next hskip =>
    unfold tryAll
    apply (crossLong_alike hk hlong hs hshorts hskip).bind
    rintro ⟨long₁, kept₁⟩ ⟨_, shorts₁⟩ r₁ ⟨rfl, htracks⟩ -
    have hkept : ∀ o ∈ kept₁, o.FilledWithin .short :=
      fun o ho => htracks.within o (htracks.prunes.sublist.subset ho)
    have hsorted : shorts₁.Pairwise fun o p => o.price ≤ p.price := by
      rw [← List.pairwise_map (R := (· ≤ ·)), htracks.prices]
      exact List.pairwise_map.mpr hshorts
    dsimp only
    rw [RunM.run_bind_of_ok (RunM.lift_ok.mpr ⟨openOrders_of_within hkept, rfl⟩)]
    apply (ih htracks.prunes.filter hl htracks.within hlongs hsorted).bind
    rintro ⟨longs₂, kept₂⟩ ⟨_, shorts₂⟩ r₂ ⟨rfl, hk₂⟩ -
    exact .ok ⟨rfl, hk₂⟩

/-- The early exits of crossing lose nothing. Longs and shorts in the order of their prices, each
filled within its size, are crossed as if every long were tried with every short, whatever the
margins are, whatever the executor answers and whoever sits out. The same is submitted in the same
order, a fault comes at the same step, and in the end margins, skipped orders, failures and longs
are the same, and so are the shorts with anything open. -/
theorem crossing_tries_every_pair (hl : ∀ o ∈ longs, o.FilledWithin .long)
    (hs : ∀ o ∈ shorts, o.FilledWithin .short)
    (hlongs : longs.Pairwise fun o p => p.price ≤ o.price)
    (hshorts : shorts.Pairwise fun o p => o.price ≤ p.price) :
    RunM.Alike (fun a b => a.1 = b.1 ∧ (a.2.filter fun o => o.openSize ≠ 0) =
        b.2.filter fun o => o.openSize ≠ 0)
      ((crossAll t longs shorts).run r) ((tryAll t longs shorts).run r) :=
  (crossAll_alike (.refl shorts) hl hs hlongs hshorts).mono fun _ _ h => ⟨h.1, h.2.filter_eq⟩

end

/-- The first pair is refused and the second long uses up the second short, whether or not all pairs
are tried. -/
theorem refused_pair_tried_once :
    ∃ early every r', (crossAll queueTerms queuedLongs queuedShorts).run (.start ∅ default wary) =
        .ok early r' ∧
      (tryAll queueTerms queuedLongs queuedShorts).run (.start ∅ default wary) = .ok every r' ∧
      early.1 = every.1 ∧ early.2.map Order.openSize = [4] ∧
      every.2.map Order.openSize = [4, 0] ∧ r'.journal.map Receipt.accepted = [false, true] := by
  have hrun : (match (crossAll queueTerms queuedLongs queuedShorts).run (.start ∅ default wary),
      (tryAll queueTerms queuedLongs queuedShorts).run (.start ∅ default wary) with
    | .ok early r, .ok every _ => (early.2.map Order.openSize, every.2.map Order.openSize,
        r.journal.map Receipt.accepted)
    | _, _ => ([], [], [])) = ([4], [4, 0], [false, true]) := by decide +kernel
  have halike : RunM.Alike _
      ((crossAll queueTerms queuedLongs queuedShorts).run (.start ∅ default wary))
      ((tryAll queueTerms queuedLongs queuedShorts).run (.start ∅ default wary)) :=
    crossing_tries_every_pair (by decide) (by decide) (by decide) (by decide)
  generalize hx : (crossAll queueTerms queuedLongs queuedShorts).run (.start ∅ default wary) = p
    at hrun halike
  generalize hy : (tryAll queueTerms queuedLongs queuedShorts).run (.start ∅ default wary) = q
    at hrun halike
  cases halike with
  | @ok early every r' h =>
    obtain ⟨hearly, hrest⟩ := Prod.mk.inj hrun
    obtain ⟨hevery, haccepted⟩ := Prod.mk.inj hrest
    exact ⟨early, every, r', rfl, rfl, h.1, hearly, hevery, haccepted⟩
  | error => cases hrun

end PerpExchange
