import PerpExchange.Matching.BlockRun

/-!
When runs happen: for every accepted block, on request, and by a timer when no block arrives. The
clock counts milliseconds. A run for an accepted block waits until time passes or somebody waits for
a later one, and one is begun whenever so many requests were answered in a row that the runs get a
turn. Each run that is asked for sets the timer anew, and a run that stops at a fault stops nothing
else.
-/

namespace PerpExchange

/-- Why no run was made. -/
inductive TimetableError where
  | closed
  | stopped (fault : Fault)
  deriving DecidableEq

/-- The message of an error; how a run stopped is told elsewhere. -/
def TimetableError.message? : TimetableError → Option String
  | .closed => some "Pipeline scheduler is shut down"
  | .stopped _ => none

/-- An engine and the times of its runs. -/
structure Timetable (σ : Type) where
  engine : Engine σ
  period : Nat
  /-- How many announcements can be handed in before one is taken up. -/
  room : Nat
  clock : Nat
  nextTick : Nat
  lastBlock : BlockNumber
  /-- The accepted blocks that no run has been made for yet, the oldest first. -/
  waiting : List (BlockNumber × Timestamp)
  /-- Whether the oldest of the waiting runs has been begun. -/
  begun : Bool
  /-- How many requests were answered since the runs had their turn. -/
  answered : Nat
  isOpen : Bool

namespace Timetable

variable {σ : Type}

/-- The most announcements there can be room for. -/
def maxRoom : Nat := 2305843009213693951

/-- How many requests are answered before the runs get a turn. -/
def turnSize : Nat := 128

/-- The longest sleep there is, a good third of a century. -/
def maxSleep : Nat := 1099511627776

/-- A timetable with room for some announcements, at least for one. -/
def start (engine : Engine σ) (period room : Nat) : Checked (Timetable σ) :=
  if maxRoom < room then .error .roomTooLarge
  else .ok ⟨engine, period, max room 1, 0, period, 0, [], false, 0, true⟩

/-- Makes a run for a block and sets the timer anew. -/
def runFor (t : Timetable σ) (block : BlockNumber) (time : Timestamp) :
    Timetable σ × Checked RunOutcome :=
  let (engine, outcome) := t.engine.run block time
  ({ t with engine, lastBlock := max t.lastBlock block, nextTick := t.clock + t.period }, outcome)

/-- Whether runs can be made at all. A timer without a period cannot be set, and nothing is run
where there is no timer. -/
def canRun (t : Timetable σ) : Bool := t.isOpen && t.period ≠ 0

/-- A timetable that makes no more runs. -/
def shut (t : Timetable σ) : Timetable σ :=
  { t with waiting := [], begun := false, isOpen := false }

/-- Makes the oldest of the runs that are waiting. -/
def runOldest (t : Timetable σ) : Timetable σ :=
  match t.waiting with
  | [] => t
  | (block, time) :: rest => { (t.runFor block time).1 with waiting := rest }

/-- Makes the runs that are waiting, while a request waits for them. -/
def settle (t : Timetable σ) : Timetable σ :=
  if t.canRun then
    { t.waiting.foldl (fun t (block, time) => (t.runFor block time).1) t with
      waiting := [], begun := false, answered := 1 }
  else t.shut

/-- Gives the runs a turn: the one that was begun is made, and the next one is begun. -/
def takeTurn (t : Timetable σ) : Timetable σ :=
  if t.canRun then
    let t := if t.begun then t.runOldest else t
    { t with begun := !t.waiting.isEmpty, answered := 0 }
  else t.shut

/-- Counts a request, after a turn of the runs if it is due. -/
def request (t : Timetable σ) : Timetable σ :=
  let t := if t.answered < turnSize then t else t.takeTurn
  { t with answered := t.answered + 1 }

/-- Makes a run at once, after those that are waiting. -/
def runNow (t : Timetable σ) (block : BlockNumber) (time : Timestamp) :
    Timetable σ × Except TimetableError RunOutcome :=
  let t := t.request.settle
  if t.isOpen then
    let (t, outcome) := t.runFor block time
    (t, outcome.mapError .stopped)
  else (t, .error .closed)

/-- Whether there is room for one more announcement. A run that was begun takes none. -/
def hasRoom (t : Timetable σ) : Bool := t.waiting.length < t.room + t.begun.toNat

/-- Asks for a run for an accepted block, and tells nobody of its outcome. The run waits until it is
time for it. Where there is no room the runs get a turn first. -/
def announce (t : Timetable σ) (block : BlockNumber) (time : Timestamp) :
    Timetable σ × Except TimetableError Unit :=
  let t := t.request
  let t := if t.hasRoom then t else { t.takeTurn with answered := 1 }
  if t.isOpen then ({ t with waiting := t.waiting ++ [(block, time)] }, .ok ())
  else (t, .error .closed)

/-- Makes a run for the last block when the timer fires. -/
def tick (now : Timestamp) (t : Timetable σ) : Timetable σ :=
  { t with engine := (t.engine.run t.lastBlock now).1, nextTick := t.nextTick + t.period }

/-- How often the timer fires before a time. -/
def ticksBefore (t : Timetable σ) (clock : Nat) : Nat :=
  if t.isOpen ∧ t.nextTick < clock then (clock - 1 - t.nextTick) / t.period + 1 else 0

/-- Lets time pass, once the waiting runs are made. A timer that is due just when the time is up has
not fired yet, and where no time passes nothing is waited for. -/
def sleep (t : Timetable σ) (milliseconds : Nat) (now : Timestamp) : Timetable σ :=
  let t := t.request
  if milliseconds = 0 then t
  else
    let t := t.settle
    let clock := t.clock + min milliseconds maxSleep
    { (t.ticksBefore clock).repeat (tick now) t with clock }

/-- Makes the runs that are waiting and no more, and answers whether there was anything to close. -/
def close (t : Timetable σ) : Timetable σ × Bool :=
  let t := t.request
  (t.settle.shut, t.isOpen && (t.period ≠ 0 || t.hasRoom))

end Timetable

end PerpExchange
