import Mathlib.Data.List.Induction
import PerpExchange.Proofs.FeedHistory
import PerpExchange.Proofs.Map

/-! Subscriptions do not get in each other's way. A feed stands as its history says, whatever it is
asked; so each subscription reads what it would read if there were no other. -/
namespace PerpExchange
variable {α : Type}

theorem Metrics.get_add (m : Metrics) (c : Counter) (n : Nat) :
    (m.add c n).get c = m.get c + n := by
  unfold add
  split
  next hn => omega
  next => simp [get]

namespace Feed
variable {f : Feed α}

theorem meet_subscribe_of_error {fault : Fault} (h : f.checkCapacity = .error fault) :
    f.meet .subscribe = (f, .refused fault) := by
  simp [meet, subscribe, h, bind, Except.bind]

theorem meet_subscribe_of_ok (h : f.checkCapacity = .ok ()) :
    f.meet .subscribe = (f.register.1, .subscribed f.nextId) := by
  simp [meet, subscribe, register, h, bind, Except.bind, pure, Except.pure]

end Feed

/-- A feed at work, with what has happened at it. -/
structure FeedRun (α : Type) where
  feed : Feed α
  metrics : Metrics
  past : FeedPast α

/-- Counts the subscribers that an event passed by. -/
def FeedEntry.countOnto (m : Metrics) : FeedEntry α → Metrics
  | .published _ delivery => m.countDelivery delivery
  | _ => m

namespace FeedRun

def step (r : FeedRun α) (q : FeedRequest α) : FeedRun α :=
  let (feed, entry) := r.feed.meet q
  ⟨feed, entry.countOnto r.metrics, entry :: r.past⟩

/-- Some requests to a new feed, one after another. -/
def run (capacity : Nat) (m : Metrics) (requests : List (FeedRequest α)) : FeedRun α :=
  requests.foldl step ⟨.new capacity, m, []⟩

theorem run_append_singleton (capacity : Nat) (m : Metrics) (requests : List (FeedRequest α))
    (q : FeedRequest α) :
    run capacity m (requests ++ [q]) = (run capacity m requests).step q := by
  simp [run]

variable {room i j : Nat} {r : FeedRun α}

/-- A feed stands as its history says. Ids are given out from one on. -/
structure Told (room : Nat) (r : FeedRun α) : Prop where
  capacity_eq : r.feed.capacity = room
  nextId_eq : r.feed.nextId = r.past.opened.length + 1
  opened_eq : r.past.opened = List.range' 1 r.past.opened.length
  subscriptions_eq : r.feed.subscriptions = r.past.opened.map (r.past.standing room)
  readInOrder : r.past.ReadInOrder room

namespace Told

theorem nextId_not_mem (h : r.Told room) : r.feed.nextId ∉ r.past.opened := by
  rw [h.nextId_eq, h.opened_eq, List.length_range', List.mem_range'_1]
  omega

/-- Requests find the subscription that a reader has, and none where there is no reader. -/
theorem buffered?_eq (h : r.Told room) :
    r.feed.buffered? i = if r.past.held i then some (r.past.unread room i) else none := by
  rw [Feed.buffered?, h.subscriptions_eq, List.find?_map, Option.map_map]
  cases hfound : r.past.opened.find? _ with
  | none =>
    have hheld : ¬r.past.held i := by
      intro hheld
      have hnone := List.find?_eq_none.mp hfound i (FeedPast.mem_opened_of_held hheld)
      simp [FeedPast.standing, hheld] at hnone
    simp [hheld]
  | some j =>
    have hj := List.find?_some hfound
    obtain ⟨hi, hheld⟩ := Bool.and_eq_true_iff.mp hj
    obtain rfl : j = i := of_decide_eq_true hi
    have hheld : r.past.held j = true := hheld
    simp [FeedPast.standing, hheld]

theorem received_eq (h : r.Told room) :
    (r.feed.receive i).2 = (r.past.unread room i).head? := by
  rw [Feed.receive, h.buffered?_eq]
  split
  · rfl
  next hheld => simp [FeedPast.unread, hheld]

theorem drained_eq (h : r.Told room) : (r.feed.drain i).2 = r.past.unread room i := by
  rw [Feed.drain, h.buffered?_eq]
  split
  · rfl
  next hheld => simp [FeedPast.unread, hheld]

theorem step_receive (h : r.Told room) : r.step (.receive i) =
    ⟨(r.feed.receive i).1, r.metrics, .received i (r.past.unread room i).head? :: r.past⟩ := by
  rw [← h.received_eq]
  rfl

theorem step_drain (h : r.Told room) : r.step (.drain i) =
    ⟨(r.feed.drain i).1, r.metrics, .drained i (r.past.unread room i) :: r.past⟩ := by
  rw [← h.drained_eq]
  rfl

/-- What is done to one subscription is done to how it stands. -/
theorem adjust (h : r.Told room) {m : Metrics} {entry : FeedEntry α}
    {g : Subscription α → Subscription α}
    (hopened : FeedPast.opened (entry :: r.past) = r.past.opened)
    (hread : FeedPast.ReadInOrder room (entry :: r.past))
    (hstanding : ∀ i, FeedPast.standing room (entry :: r.past) i =
      if i = j then g (r.past.standing room i) else r.past.standing room i) :
    Told room ⟨r.feed.adjust j g, m, entry :: r.past⟩ where
  capacity_eq := h.capacity_eq
  nextId_eq := by rw [hopened]; exact h.nextId_eq
  opened_eq := by rw [hopened]; exact h.opened_eq
  readInOrder := hread
  subscriptions_eq := by
    rw [hopened, Feed.adjust, h.subscriptions_eq, List.map_map]
    refine List.map_congr_left fun i _ => ?_
    rw [hstanding i]
    rfl

theorem subscribe (h : r.Told room) : (r.step .subscribe).Told room := by
  cases hcheck : r.feed.checkCapacity with
  | error fault =>
    rw [FeedRun.step, Feed.meet_subscribe_of_error hcheck]
    exact ⟨h.capacity_eq, h.nextId_eq, h.opened_eq, h.subscriptions_eq, h.readInOrder⟩
  | ok =>
    rw [FeedRun.step, Feed.meet_subscribe_of_ok hcheck]
    refine ⟨h.capacity_eq, ?_, ?_, ?_, h.readInOrder⟩
    · simp [Feed.register, h.nextId_eq]
    · have hnext : r.feed.nextId = 1 + r.past.opened.length := by rw [h.nextId_eq, Nat.add_comm]
      rw [FeedPast.opened, List.length_append, List.length_singleton, List.range'_1_concat,
        ← h.opened_eq, hnext]
    · have hold : r.past.opened.map (FeedPast.standing room (.subscribed r.feed.nextId :: r.past)) =
          r.past.opened.map (r.past.standing room) :=
        List.map_congr_left fun i hi => FeedPast.standing_subscribed hi h.nextId_not_mem
      simp [Feed.register, FeedPast.standing_of_new h.nextId_not_mem, hold,
        h.subscriptions_eq]

theorem step (h : r.Told room) (q : FeedRequest α) : (r.step q).Told room := by
  cases q with
  | subscribe => exact h.subscribe
  | unsubscribe j => exact h.adjust rfl h.readInOrder fun i => FeedPast.standing_unsubscribed
  | drop j => exact h.adjust rfl h.readInOrder fun i => FeedPast.standing_dropped
  | publish event =>
    -- The buffers are full or not as the history has it, so each is offered the event as it stands.
    refine ⟨h.capacity_eq, h.nextId_eq, h.opened_eq, ?_, h.readInOrder.published⟩
    have hoffer : (r.step (.publish event)).feed.subscriptions =
        r.feed.subscriptions.map (r.feed.offer event) := rfl
    rw [hoffer, h.subscriptions_eq, List.map_map]
    exact List.map_congr_left fun i _ =>
      (FeedPast.standing_published h.capacity_eq h.readInOrder).symm
  | receive j =>
    rw [h.step_receive]
    exact h.adjust rfl h.readInOrder.received fun i => FeedPast.standing_received
  | drain j =>
    rw [h.step_drain]
    exact h.adjust rfl h.readInOrder.drained fun i => FeedPast.standing_drained

theorem run (capacity : Nat) (m : Metrics) (requests : List (FeedRequest α)) :
    (FeedRun.run capacity m requests).Told (max capacity 1) := by
  induction requests using List.reverseRecOn with
  | nil => exact ⟨rfl, rfl, rfl, rfl, fun _ => List.prefix_rfl⟩
  | append_singleton requests q ih =>
    rw [run_append_singleton]
    exact ih.step q

/-- Taking the oldest event leaves the others. -/
theorem buffered?_receive (h : r.Told room) (hheld : r.past.held i) :
    (r.feed.receive i).1.buffered? i = some (r.past.unread room i).tail := by
  have htold := h.step (.receive i)
  rw [h.step_receive] at htold
  rw [htold.buffered?_eq, ← FeedPast.unread_received]
  exact if_pos hheld

/-- Taking all events leaves none. -/
theorem buffered?_drain (h : r.Told room) (hheld : r.past.held i) :
    (r.feed.drain i).1.buffered? i = some [] := by
  have htold := h.step (.drain i)
  rw [h.step_drain] at htold
  rw [htold.buffered?_eq, ← FeedPast.unread_drained]
  exact if_pos hheld

/-- An event goes to the subscriptions with a reader and with room, and passes by the full ones. -/
theorem delivery_eq (h : r.Told room) (event : α) :
    (r.feed.publish event).2 =
      ⟨r.past.opened.countP (r.past.hasRoom room), r.past.opened.countP (r.past.isFull room)⟩ := by
  have htakes : r.feed.takes ∘ r.past.standing room = r.past.hasRoom room :=
    funext fun _ => FeedPast.takes_standing h.capacity_eq
  have hmisses : r.feed.misses ∘ r.past.standing room = r.past.isFull room :=
    funext fun _ => FeedPast.misses_standing h.capacity_eq
  simp only [Feed.publish, h.subscriptions_eq, List.countP_map, htakes, hmisses]

theorem reached_eq (h : r.Told room) :
    r.feed.reached = r.past.opened.filter r.past.registered := by
  have hid : (Subscription.id ∘ r.past.standing room) = id := rfl
  have hreg : Subscription.registered ∘ r.past.standing room = r.past.registered := rfl
  rw [Feed.reached, h.subscriptions_eq, List.filter_map, List.map_map, hid, hreg, List.map_id]

/-- Subscriptions without a reader are forgotten when something is published, and no others. -/
theorem reached_publish (h : r.Told room) (event : α) :
    (r.feed.publish event).1.reached = r.feed.reached.filter r.past.held := by
  have hstep : (r.feed.publish event).1.reached = (r.step (.publish event)).feed.reached := rfl
  rw [hstep, (h.step (.publish event)).reached_eq, h.reached_eq, List.filter_filter]
  exact List.filter_congr fun i _ => Bool.and_comm ..

/-- The events that passed subscriptions by are counted. -/
theorem missed_step (h : r.Told room) (q : FeedRequest α) :
    (r.step q).metrics.get .feedEventDropped + r.past.missed room =
      r.metrics.get .feedEventDropped + (r.step q).past.missed room := by
  cases q with
  | subscribe =>
    cases hcheck : r.feed.checkCapacity with
    | error fault => rw [FeedRun.step, Feed.meet_subscribe_of_error hcheck]; rfl
    | ok => rw [FeedRun.step, Feed.meet_subscribe_of_ok hcheck]; rfl
  | publish event =>
    have hmetrics : (r.step (.publish event)).metrics =
        r.metrics.add .feedEventDropped (r.feed.publish event).2.dropped := rfl
    have hmissed : (r.step (.publish event)).past.missed room =
        r.past.missed room + (r.past.opened.countP (r.past.isFull room)) := rfl
    rw [hmetrics, hmissed, Metrics.get_add, h.delivery_eq, Nat.add_right_comm, Nat.add_assoc]
  | _ => rfl

end Told

section Isolation
variable {room i : Nat} {r s : FeedRun α}

/-- What a request leads to that is put to another run as one for a subscription. -/
def stepOwn (s : FeedRun α) (i : Nat) (entry : FeedEntry α) : FeedRun α :=
  (entry.own? i).elim s s.step

variable (hr : r.Told room) (hs : s.Told room) (h : r.past.Alike room i s.past)
include hr hs h

/-- The answer to what is asked for the subscription is the same. -/
theorem answer_same {q own : FeedRequest α} (hown : (r.feed.meet q).2.own? i = some own) :
    (s.feed.meet own).2.SameAs i (r.feed.meet q).2 := by
  cases q with
  | subscribe =>
    cases hcheck : r.feed.checkCapacity with
    | error fault =>
      rw [Feed.meet_subscribe_of_error hcheck] at hown
      cases hown
    | ok =>
      rw [Feed.meet_subscribe_of_ok hcheck] at hown ⊢
      obtain ⟨rfl, hsubscribe⟩ := Option.ite_none_right_eq_some.mp hown
      cases hsubscribe
      have hroom : s.feed.checkCapacity = .ok () := by
        rw [← hcheck, Feed.checkCapacity, Feed.checkCapacity, hs.capacity_eq, hr.capacity_eq]
      -- The id was not given out before, so the other feed has given out none.
      have hnext : s.feed.nextId = 1 := by
        rw [hs.nextId_eq, h.opened_eq_nil hr.nextId_not_mem, List.length_nil]
      rw [Feed.meet_subscribe_of_ok hroom, hnext]
      exact .subscribed
  | publish event =>
    cases hown
    exact .published ..
  | unsubscribe j =>
    obtain ⟨rfl, hreq⟩ := Option.ite_none_right_eq_some.mp hown
    cases hreq
    exact .unsubscribed ..
  | drop j =>
    obtain ⟨rfl, hreq⟩ := Option.ite_none_right_eq_some.mp hown
    cases hreq
    exact .dropped ..
  | receive j =>
    obtain ⟨rfl, hreq⟩ := Option.ite_none_right_eq_some.mp hown
    cases hreq
    have hevent : (s.feed.receive 1).2 = (r.feed.receive j).2 := by
      rw [hs.received_eq, hr.received_eq, h.unread_eq]
    simp only [Feed.meet, Prod.map_snd, hevent]
    exact .received _
  | drain j =>
    obtain ⟨rfl, hreq⟩ := Option.ite_none_right_eq_some.mp hown
    cases hreq
    have hevents : (s.feed.drain 1).2 = (r.feed.drain j).2 := by
      rw [hs.drained_eq, hr.drained_eq, h.unread_eq]
    simp only [Feed.meet, Prod.map_snd, hevents]
    exact .drained _

theorem alike_step (q : FeedRequest α) :
    (r.step q).past.Alike room i (s.stepOwn i (r.feed.meet q).2).past := by
  cases hown : (r.feed.meet q).2.own? i with
  | none =>
    rw [stepOwn, hown]
    exact h.other hown
  | some own =>
    rw [stepOwn, hown]
    exact h.same (answer_same hr hs h hown)

omit hr hs h

theorem run_alone_cons (capacity : Nat) (m : Metrics) (entry : FeedEntry α) (past : FeedPast α) :
    run capacity m (FeedPast.alone (entry :: past) i) =
      (run capacity m (past.alone i)).stepOwn i entry := by
  cases hown : entry.own? i with
  | none => simp [FeedPast.alone, stepOwn, hown]
  | some own => simp [FeedPast.alone, stepOwn, hown, run]

/-- A subscription reads what it would read if there were no other. -/
theorem alike_run (capacity : Nat) (m m' : Metrics) (requests : List (FeedRequest α)) (i : Nat) :
    (run capacity m requests).past.Alike (max capacity 1) i
      (run capacity m' ((run capacity m requests).past.alone i)).past := by
  induction requests using List.reverseRecOn with
  | nil => exact ⟨fun _ => rfl, rfl, rfl, rfl, rfl⟩
  | append_singleton requests q ih =>
    have hpast : (run capacity m (requests ++ [q])).past =
        ((run capacity m requests).feed.meet q).2 :: (run capacity m requests).past := by
      rw [run_append_singleton]
      rfl
    rw [hpast, run_alone_cons]
    exact alike_step (Told.run capacity m requests) (Told.run capacity m' _) ih q

theorem missed_eq (capacity : Nat) (m : Metrics) (requests : List (FeedRequest α)) :
    (run capacity m requests).metrics.get .feedEventDropped =
      m.get .feedEventDropped + (run capacity m requests).past.missed (max capacity 1) := by
  induction requests using List.reverseRecOn with
  | nil => rfl
  | append_singleton requests q ih =>
    have hstep := (Told.run capacity m requests).missed_step q
    rw [run_append_singleton]
    omega

end Isolation

/-- What is read is the beginning of what was due, and the rest of it waits in the buffer. A reader
who asks for one event is handed the oldest that it has not read, and one who asks for all is handed
all of them; what was handed over is gone, and the others stay. The publications and the requests
for a subscription settle what it reads. An event reaches whoever has room; the others are counted,
and those without a reader forgotten. -/
theorem subscriptions_faithful (capacity : Nat) (m : Metrics) (requests : List (FeedRequest α)) :
    let room := max capacity 1
    let r := run capacity m requests
    (∀ i, r.past.readBy i <+: r.past.due room i ∧ (r.past.due room i).Sublist r.past.published) ∧
    (∀ i, (r.feed.buffered? i).isSome = r.past.held i) ∧
    (∀ i buffer, r.feed.buffered? i = some buffer → r.past.readBy i ++ buffer = r.past.due room i) ∧
    (∀ i, (r.feed.receive i).2 = (r.past.unread room i).head? ∧
      (r.feed.drain i).2 = r.past.unread room i) ∧
    (∀ i, r.past.held i →
      (r.feed.receive i).1.buffered? i = some (r.past.unread room i).tail ∧
      (r.feed.drain i).1.buffered? i = some []) ∧
    (∀ m' requests' i j, (run capacity m' requests').past.alone j = r.past.alone i →
      (run capacity m' requests').past.readBy j = r.past.readBy i) ∧
    r.past.opened.Nodup ∧ r.feed.reached = r.past.opened.filter r.past.registered ∧
    (∀ event, (r.feed.publish event).2.delivered = r.past.opened.countP (r.past.hasRoom room)) ∧
    (∀ event, (r.feed.publish event).1.reached = r.feed.reached.filter r.past.held) ∧
    r.metrics.get .feedEventDropped = m.get .feedEventDropped + r.past.missed room := by
  intro room r
  have told : r.Told room := Told.run capacity m requests
  refine ⟨fun i => ⟨told.readInOrder i, FeedPast.due_sublist room r.past i⟩, ?_, ?_,
    fun i => ⟨told.received_eq, told.drained_eq⟩,
    fun i hheld => ⟨told.buffered?_receive hheld, told.buffered?_drain hheld⟩, ?_, ?_,
    told.reached_eq, fun event => by rw [told.delivery_eq], told.reached_publish,
    missed_eq capacity m requests⟩
  · intro i
    rw [told.buffered?_eq]
    cases r.past.held i <;> rfl
  · intro i buffer hbuffer
    rw [told.buffered?_eq, Option.ite_none_right_eq_some] at hbuffer
    rw [← Option.some.inj hbuffer.2]
    exact told.readInOrder.readBy_append_unread hbuffer.1
  · intro m' requests' i j halone
    have hself := alike_run capacity m m requests i
    have hother := alike_run capacity m' m requests' j
    rw [← hself.readBy_eq, ← hother.readBy_eq, halone]
  · rw [told.opened_eq]
    exact List.nodup_range'

/-- A slow subscriber, next to one that keeps up, and on its own. The other has been handed what was
published up to its last request, and would be handed the last event next. -/
theorem subscriptions_faithful_slow :
    let both : FeedRun Nat := run 2 default [.subscribe, .subscribe, .publish 0, .receive 1,
      .drain 2, .publish 1, .publish 2, .drain 2, .publish 3]
    let slow : FeedRun Nat := run 2 default [.subscribe, .publish 0, .receive 1, .publish 1,
      .publish 2, .publish 3]
    both.feed.buffered? 1 = some [1, 2] ∧ both.past.readBy 1 ++ [1, 2] = both.past.due 2 1 ∧
      (both.feed.receive 1).2 = some 1 ∧ (both.feed.receive 1).1.buffered? 1 = some [2] ∧
      both.past.readBy 2 = [0, 1, 2] ∧ (both.feed.drain 2).2 = [3] ∧
      (both.feed.drain 2).1.buffered? 2 = some [] ∧
      slow.past.alone 1 = both.past.alone 1 ∧ slow.past.readBy 1 = both.past.readBy 1 := by
  intro both slow
  have hbuffer : both.feed.buffered? 1 = some [1, 2] := rfl
  have halone : slow.past.alone 1 = both.past.alone 1 := rfl
  obtain ⟨-, -, hrest, hhanded, hleft, hisolated, -⟩ :=
    subscriptions_faithful 2 default [.subscribe, .subscribe, .publish 0, .receive 1, .drain 2,
      .publish 1, .publish 2, .drain 2, .publish 3]
  exact ⟨hbuffer, hrest 1 _ hbuffer, (hhanded 1).1, (hleft 1 rfl).1, rfl, (hhanded 2).2,
    (hleft 2 rfl).2, halone, hisolated _ _ 1 1 halone⟩

end FeedRun
end PerpExchange
