import PerpExchange.Feed

/-! What subscribers get to read. What has been asked of a feed, and answered, settles how each of
its subscriptions stands: whether events reach it, which were due to it, and which are still to be
read. -/
namespace PerpExchange
variable {α : Type}

/-- What can be asked of a feed. -/
inductive FeedRequest (α : Type) where
  | subscribe
  | unsubscribe (id : Nat)
  | drop (id : Nat)
  | publish (event : α)
  | receive (id : Nat)
  | drain (id : Nat)

/-- A request that was met, with its answer. -/
inductive FeedEntry (α : Type) where
  | subscribed (id : Nat)
  | refused (fault : Fault)
  | unsubscribed (id : Nat) (reached : Bool)
  | dropped (id : Nat) (held : Bool)
  | published (event : α) (delivery : Delivery)
  | received (id : Nat) (event : Option α)
  | drained (id : Nat) (events : List α)

namespace Feed

/-- What a request makes of a feed. A subscription that cannot be laid out leaves the feed alone. -/
def meet (f : Feed α) : FeedRequest α → Feed α × FeedEntry α
  | .subscribe =>
    match f.subscribe with
    | .ok (f', i) => (f', .subscribed i)
    | .error fault => (f, .refused fault)
  | .unsubscribe i => (f.unsubscribe i).map id (.unsubscribed i)
  | .drop i => (f.drop i).map id (.dropped i)
  | .publish event => (f.publish event).map id (.published event)
  | .receive i => (f.receive i).map id (.received i)
  | .drain i => (f.drain i).map id (.drained i)

/-- The subscriptions that events still reach, by their ids. -/
def reached (f : Feed α) : List Nat := (f.subscriptions.filter Subscription.registered).map (·.id)

end Feed

/-- What has happened at a feed, the latest first. -/
abbrev FeedPast (α : Type) : Type := List (FeedEntry α)

namespace FeedPast

/-- The ids that were given out, in order. -/
@[simp]
def opened : FeedPast α → List Nat
  | [] => []
  | .subscribed i :: past => opened past ++ [i]
  | _ :: past => opened past

/-- The events that were published, in order. -/
@[simp]
def published : FeedPast α → List α
  | [] => []
  | .published event _ :: past => published past ++ [event]
  | _ :: past => published past

/-- Whether there is a reader: the subscription was given out and has not been dropped since. -/
@[simp]
def held : FeedPast α → Nat → Bool
  | [], _ => false
  | .subscribed j :: past, i => j = i || held past i
  | .dropped j _ :: past, i => j ≠ i && held past i
  | _ :: past, i => held past i

/-- Whether the feed knows a subscription: it was given out, it has not been cancelled since, and
nothing has been published while it had no reader. -/
@[simp]
def registered : FeedPast α → Nat → Bool
  | [], _ => false
  | .subscribed j :: past, i => j = i || registered past i
  | .unsubscribed j _ :: past, i => j ≠ i && registered past i
  | .published _ _ :: past, i => registered past i && held past i
  | _ :: past, i => registered past i

/-- What a subscription has read. -/
@[simp]
def readBy : FeedPast α → Nat → List α
  | [], _ => []
  | .received j event :: past, i => if j = i then readBy past i ++ event.toList else readBy past i
  | .drained j events :: past, i => if j = i then readBy past i ++ events else readBy past i
  | _ :: past, i => readBy past i

/-- The events that were published while a subscription was registered and had fewer of them left to
read than there is room for. -/
@[simp]
def due (room : Nat) : FeedPast α → Nat → List α
  | [], _ => []
  | .published event _ :: past, i =>
    if registered past i ∧ (due room past i).length - (readBy past i).length < room then
      due room past i ++ [event]
    else due room past i
  | _ :: past, i => due room past i

variable {room : Nat} {past : FeedPast α} {i j : Nat}

/-- How many events a subscription has left to read. -/
def waiting (room : Nat) (past : FeedPast α) (i : Nat) : Nat :=
  (past.due room i).length - (past.readBy i).length

/-- Whether the feed knows a subscription that has a reader and room for one more event. -/
def hasRoom (room : Nat) (past : FeedPast α) (i : Nat) : Bool :=
  past.registered i && past.held i && past.waiting room i < room

/-- Whether the feed knows a subscription that has a reader and no room. -/
def isFull (room : Nat) (past : FeedPast α) (i : Nat) : Bool :=
  past.registered i && past.held i && room ≤ past.waiting room i

/-- How often something was published while a subscription was full, each of them counted. -/
def missed (room : Nat) : FeedPast α → Nat
  | [] => 0
  | .published _ _ :: past => missed room past + (opened past).countP (isFull room past)
  | _ :: past => missed room past

/-- What a subscription has left to read. One without a reader has nothing left. -/
def unread (room : Nat) (past : FeedPast α) (i : Nat) : List α :=
  if past.held i then (past.due room i).drop (past.readBy i).length else []

/-- How a subscription stands. -/
def standing (room : Nat) (past : FeedPast α) (i : Nat) : Subscription α :=
  ⟨i, past.registered i, past.held i, past.unread room i⟩

/-- Subscriptions have read what was due to them, as far as they have got. -/
def ReadInOrder (room : Nat) (past : FeedPast α) : Prop :=
  ∀ i, past.readBy i <+: past.due room i

theorem mem_opened_cons {entry : FeedEntry α} (h : i ∈ past.opened) :
    i ∈ opened (entry :: past) := by
  unfold opened
  split <;> simp_all

theorem mem_opened_of_held (h : past.held i) : i ∈ past.opened := by
  fun_induction held past i with
  | case1 => cases h
  | case2 j past i ih =>
    rcases Bool.or_eq_true_iff.mp h with hj | hrest
    · simp [(of_decide_eq_true hj : j = i)]
    · exact mem_opened_cons (ih hrest)
  | case3 j _ past i ih => exact mem_opened_cons (ih (Bool.and_eq_true_iff.mp h).2)
  | case4 entry past i _ _ ih => exact mem_opened_cons (ih h)

theorem mem_opened_of_registered (h : past.registered i) : i ∈ past.opened := by
  fun_induction registered past i with
  | case1 => cases h
  | case2 j past i ih =>
    rcases Bool.or_eq_true_iff.mp h with hj | hrest
    · simp [(of_decide_eq_true hj : j = i)]
    · exact mem_opened_cons (ih hrest)
  | case3 j _ past i ih => exact mem_opened_cons (ih (Bool.and_eq_true_iff.mp h).2)
  | case4 _ _ past i ih => exact mem_opened_cons (ih (Bool.and_eq_true_iff.mp h).1)
  | case5 entry past i _ _ _ ih => exact mem_opened_cons (ih h)

/-- Nothing is due to a subscription that was not given out. -/
theorem due_eq_nil (h : i ∉ past.opened) : past.due room i = [] := by
  fun_induction due room past i with
  | case1 => rfl
  | case2 event _ past i hroom ih =>
    exact absurd (mem_opened_cons (mem_opened_of_registered hroom.1)) h
  | case3 event _ past i _ ih => exact ih fun hmem => h (mem_opened_cons hmem)
  | case4 entry past i _ ih => exact ih fun hmem => h (mem_opened_cons hmem)

theorem due_sublist (room : Nat) (past : FeedPast α) (i : Nat) :
    (past.due room i).Sublist past.published := by
  fun_induction due room past i with
  | case1 => exact .slnil
  | case2 event _ past i _ ih => exact ih.append (.refl _)
  | case3 event _ past i _ ih => exact ih.trans (List.sublist_append_left _ _)
  | case4 entry past i hne ih =>
    rw [published]
    · exact ih
    · exact hne

/-- What is read is not left to read any more. -/
theorem unread_of_readBy {entry : FeedEntry α} {events : List α}
    (hheld : held (entry :: past) i = past.held i)
    (hdue : due room (entry :: past) i = past.due room i)
    (hread : readBy (entry :: past) i = past.readBy i ++ events) :
    unread room (entry :: past) i = (past.unread room i).drop events.length := by
  rw [unread, unread, hheld, hdue, hread]
  split
  · rw [List.length_append, List.drop_drop]
  · rw [List.drop_nil]

theorem unread_received :
    unread room (.received i (past.unread room i).head? :: past) i =
      (past.unread room i).tail := by
  have hunread : unread room (.received i (past.unread room i).head? :: past) i =
      (past.unread room i).drop (past.unread room i).head?.toList.length :=
    unread_of_readBy rfl rfl (by simp)
  rw [hunread]
  cases past.unread room i <;> rfl

theorem unread_drained : unread room (.drained i (past.unread room i) :: past) i = [] := by
  have hunread : unread room (.drained i (past.unread room i) :: past) i =
      (past.unread room i).drop (past.unread room i).length :=
    unread_of_readBy rfl rfl (by simp)
  rw [hunread, List.drop_length]

theorem length_unread (h : past.held i) :
    (past.unread room i).length = past.waiting room i := by
  rw [unread, if_pos h, List.length_drop, waiting]

namespace ReadInOrder

theorem readBy_append_unread (h : past.ReadInOrder room) (hheld : past.held i) :
    past.readBy i ++ past.unread room i = past.due room i := by
  rw [unread, if_pos hheld]
  exact List.prefix_iff_eq_append.mp (h i)

theorem received (h : past.ReadInOrder room) :
    ReadInOrder room (.received j (past.unread room j).head? :: past) := by
  intro i
  by_cases hj : j = i
  · subst hj
    by_cases hheld : past.held j
    · have hhead : (past.unread room j).head?.toList <+: past.unread room j := by
        cases past.unread room j <;> simp
      have happend := (List.prefix_append_right_inj (past.readBy j)).mpr hhead
      rw [h.readBy_append_unread hheld] at happend
      simpa using happend
    · simpa [unread, hheld] using h j
  · simpa [hj] using h i

theorem drained (h : past.ReadInOrder room) :
    ReadInOrder room (.drained j (past.unread room j) :: past) := by
  intro i
  by_cases hj : j = i
  · subst hj
    by_cases hheld : past.held j
    · simp [h.readBy_append_unread hheld]
    · simpa [unread, hheld] using h j
  · simpa [hj] using h i

theorem published (h : past.ReadInOrder room) {event : α} {delivery : Delivery} :
    ReadInOrder room (.published event delivery :: past) := by
  intro i
  simp only [readBy, due]
  split
  · exact (h i).trans (List.prefix_append _ _)
  · exact h i

end ReadInOrder

section Standing

theorem standing_subscribed (h : i ∈ past.opened) (hj : j ∉ past.opened) :
    standing room (.subscribed j :: past) i = past.standing room i := by
  have hne : j ≠ i := by
    rintro rfl
    exact hj h
  simp [standing, unread, hne]

/-- A new subscription begins with an empty buffer. -/
theorem standing_of_new (hj : j ∉ past.opened) :
    standing room (.subscribed j :: past) j = ⟨j, true, true, []⟩ := by
  have hdue : past.due room j = [] := due_eq_nil hj
  simp [standing, unread, hdue]

theorem standing_unsubscribed {reached : Bool} :
    standing room (.unsubscribed j reached :: past) i =
      if i = j then { past.standing room i with registered := false }
      else past.standing room i := by
  by_cases hj : i = j
  · simp [standing, unread, hj]
  · simp [standing, unread, hj, Ne.symm hj]
    rfl

theorem standing_dropped {had : Bool} :
    standing room (.dropped j had :: past) i =
      if i = j then { past.standing room i with held := false, buffer := [] }
      else past.standing room i := by
  by_cases hj : i = j
  · simp [standing, unread, hj]
  · simp [standing, unread, hj, Ne.symm hj]

/-- What is taken from the buffer has been read. -/
theorem standing_received :
    standing room (.received j (past.unread room j).head? :: past) i =
      if i = j then { past.standing room i with buffer := (past.unread room i).tail }
      else past.standing room i := by
  by_cases hj : i = j
  · subst hj
    simp [standing, unread_received]
  · simp [standing, unread, hj, Ne.symm hj]

theorem standing_drained :
    standing room (.drained j (past.unread room j) :: past) i =
      if i = j then { past.standing room i with buffer := [] } else past.standing room i := by
  by_cases hj : i = j
  · subst hj
    simp [standing, unread_drained]
  · simp [standing, unread, hj, Ne.symm hj]

theorem takes_standing {f : Feed α} (hroom : f.capacity = room) :
    f.takes (past.standing room i) = past.hasRoom room i := by
  by_cases hheld : past.held i
  · simp [Feed.takes, standing, hasRoom, length_unread hheld, hroom]
  · simp [Feed.takes, standing, hasRoom, hheld]

theorem misses_standing {f : Feed α} (hroom : f.capacity = room) :
    f.misses (past.standing room i) = past.isFull room i := by
  by_cases hheld : past.held i
  · simp [Feed.misses, standing, isFull, length_unread hheld, hroom]
  · simp [Feed.misses, standing, isFull, hheld]

/-- An event that is published goes to the end of the buffer if there is room for it. -/
theorem standing_published {f : Feed α} (hroom : f.capacity = room) (h : past.ReadInOrder room)
    {event : α} {delivery : Delivery} :
    standing room (.published event delivery :: past) i = f.offer event (past.standing room i) := by
  rw [Feed.offer, takes_standing hroom]
  by_cases hheld : past.held i
  · by_cases hready : past.registered i ∧ past.waiting room i < room
    · have hunread : unread room (.published event delivery :: past) i =
          past.unread room i ++ [event] := by
        have hdue : due room (.published event delivery :: past) i = past.due room i ++ [event] :=
          if_pos hready
        have hread : readBy (.published event delivery :: past) i = past.readBy i := rfl
        have hcons : held (.published event delivery :: past) i = past.held i := rfl
        rw [unread, unread, hcons, if_pos hheld, if_pos hheld, hdue, hread,
          List.drop_append_of_le_length (h i).length_le]
      simp [standing, hunread, hasRoom, hheld, hready]
    · have hunread : unread room (.published event delivery :: past) i = past.unread room i := by
        have hdue : due room (.published event delivery :: past) i = past.due room i :=
          if_neg hready
        rw [unread, unread, hdue]
        rfl
      have hroom : past.hasRoom room i = false := by simpa [hasRoom, hheld] using hready
      simp [standing, hunread, hroom]
  · simp [standing, unread, hasRoom, hheld]

end Standing

end FeedPast

/-- What was asked of a feed for one subscription, put as if there were no other, so that its id is
one. Publications are for all subscriptions. -/
def FeedEntry.own? (i : Nat) : FeedEntry α → Option (FeedRequest α)
  | .subscribed j => if j = i then some .subscribe else none
  | .refused _ => none
  | .unsubscribed j _ => if j = i then some (.unsubscribe 1) else none
  | .dropped j _ => if j = i then some (.drop 1) else none
  | .published event _ => some (.publish event)
  | .received j _ => if j = i then some (.receive 1) else none
  | .drained j _ => if j = i then some (.drain 1) else none

/-- Entries of two histories that are the same to a subscription, which has the id one in the first.
-/
inductive FeedEntry.SameAs (i : Nat) : FeedEntry α → FeedEntry α → Prop where
  | subscribed : SameAs i (.subscribed 1) (.subscribed i)
  | unsubscribed (b b' : Bool) : SameAs i (.unsubscribed 1 b') (.unsubscribed i b)
  | dropped (b b' : Bool) : SameAs i (.dropped 1 b') (.dropped i b)
  | published (event : α) (d d' : Delivery) : SameAs i (.published event d') (.published event d)
  | received (event : Option α) : SameAs i (.received 1 event) (.received i event)
  | drained (events : List α) : SameAs i (.drained 1 events) (.drained i events)

/-- The requests of one subscription and the publications, in order. -/
def FeedPast.alone (past : FeedPast α) (i : Nat) : List (FeedRequest α) :=
  (past.filterMap (·.own? i)).reverse

namespace FeedPast
variable {room i : Nat} {past own : FeedPast α}

/-- A history and another one stand alike to a subscription that is the only one in the other. -/
structure Alike (room i : Nat) (past own : FeedPast α) : Prop where
  opened_eq_nil : i ∉ past.opened → own.opened = []
  registered_eq : own.registered 1 = past.registered i
  held_eq : own.held 1 = past.held i
  due_eq : own.due room 1 = past.due room i
  readBy_eq : own.readBy 1 = past.readBy i

namespace Alike

theorem unread_eq (h : Alike room i past own) : own.unread room 1 = past.unread room i := by
  rw [unread, unread, h.held_eq, h.due_eq, h.readBy_eq]

/-- What is asked for other subscriptions makes no difference. -/
theorem other (h : Alike room i past own) {entry : FeedEntry α} (hother : entry.own? i = none) :
    Alike room i (entry :: past) own := by
  obtain ⟨hopened, hregistered, hheld, hdue, hread⟩ := h
  cases entry with
  | published event delivery => cases hother
  | refused fault => exact ⟨hopened, hregistered, hheld, hdue, hread⟩
  | _ j =>
    have hj : j ≠ i := by simpa [FeedEntry.own?] using hother
    exact ⟨by simpa [Ne.symm hj] using hopened, by simpa [hj] using hregistered,
      by simpa [hj] using hheld, by simpa using hdue, by simpa [hj] using hread⟩

/-- What is asked for the subscription makes the same difference, with the same answer. -/
theorem same (h : Alike room i past own) {entry entry' : FeedEntry α}
    (hentry : entry'.SameAs i entry) : Alike room i (entry :: past) (entry' :: own) := by
  constructor
  case opened_eq_nil =>
    cases hentry with
    | subscribed => simp
    | _ => exact h.opened_eq_nil
  all_goals
    obtain ⟨-, hregistered, hheld, hdue, hread⟩ := h
    cases hentry <;> simp [*]

end Alike
end FeedPast
end PerpExchange
