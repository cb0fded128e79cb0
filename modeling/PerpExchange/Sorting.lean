/-!
The order in which a stable sort first inspects its items, for work that is done at the first look
at an item and may stop there. Items are named by their places.

A few items are inserted one after the other. More of them are cut into stretches, and neighbouring
stretches are joined in a balanced tree over all places. A stretch that is found in order, or in
strictly opposite order, is kept if it is long enough. What lies between is ordered in blocks; where
there are many items, it is gathered first and then ordered around a pivot.
-/

namespace PerpExchange

/-- Neighbouring places, and whether their items are in order by now. -/
structure Stretch where
  start : Nat
  size : Nat
  ordered : Bool
  deriving DecidableEq

namespace Sorting

/-- The most items that are inserted one after the other. -/
def insertionLimit : Nat := 20

/-- The most items that are ordered as one block. -/
def blockLimit : Nat := 32

/-- Insertion: the second item is compared with the first, and each later one with those in front
of it. -/
def oneByOne : List Nat → List Nat
  | first :: second :: rest => second :: first :: rest
  | places => places

/-- The second item of each pair is compared with the first. -/
def byPairs : List Nat → List Nat
  | first :: second :: rest => second :: first :: byPairs rest
  | places => places

/-- A block is ordered by halves. Of two or three items the first is a half of its own, which is
looked at when the halves are merged. In a longer block the front of each half is ordered by pairs,
then the rest of each is inserted. -/
def block (places : List Nat) : List Nat :=
  let half := places.length / 2
  let left := places.take half
  let right := places.drop half
  let paired := if places.length < 16 then 4 else 8
  if places.length < 2 then []
  else if places.length < 4 then oneByOne right ++ left
  else if places.length < 8 then oneByOne left ++ oneByOne right
  else byPairs (left.take paired) ++ byPairs (right.take paired) ++ left.drop paired ++
    right.drop paired

/-- The places whose median is the pivot: the median of three, each of which stands for three
others where the steps between them are long. -/
def pivotSample (start step : Nat) : List Nat :=
  if step < 8 then [start, start + 4 * step, start + 7 * step]
  else pivotSample start (step / 8) ++ pivotSample (start + 4 * step) (step / 8) ++
    pivotSample (start + 7 * step) (step / 8)
termination_by step

end Sorting

namespace Stretch

open Sorting

def places (s : Stretch) : List Nat := List.range' s.start s.size

/-- What is inspected to order a stretch: nothing if it is in order, else the items of a block, or
those that a pivot is chosen from and then all in turn. -/
def inspected (s : Stretch) : List Nat :=
  if s.ordered then []
  else if s.size ≤ blockLimit then block s.places
  else pivotSample s.start (s.size / 8) ++ s.places

/-- Two neighbours as one stretch, and what is inspected to join them. Two that are both unordered
stay so. -/
def join (s t : Stretch) : Stretch × List Nat :=
  if s.ordered || t.ordered then (⟨s.start, s.size + t.size, true⟩, s.inspected ++ t.inspected)
  else (⟨s.start, s.size + t.size, false⟩, [])

/-- How deep in a balanced tree over all places two neighbours are joined: as deep as the binary
digits go that the middles of the two share, as fractions of the whole. -/
def jointDepth (total : Nat) (s t : Stretch) : Nat :=
  let scale := (4611686018427387904 + total - 1) / total
  let left := scale * (2 * s.start + s.size)
  let right := scale * (2 * t.start + t.size)
  63 - (left ^^^ right).log2

end Stretch

namespace Sorting

/-- Stretches with the depths at which they are to be joined with what follows, the last first. -/
abbrev Pending : Type := List (Stretch × Nat)

/-- Joins a stretch with those in front of it that are to be joined at some depth or deeper. -/
def collapse (depth : Nat) : Pending → Stretch → Stretch × Pending × List Nat
  | [], last => (last, [], [])
  | (s, d) :: rest, last =>
    if depth ≤ d then
      let (joined, seen) := s.join last
      let (last, rest, more) := collapse depth rest joined
      (last, rest, seen ++ more)
    else (last, (s, d) :: rest, [])

/-- What is inspected to find stretches and to join them, up to the one that holds all places. -/
def joinAll (total : Nat) : List (Stretch × List Nat) → Pending → Stretch → List Nat
  | [], pending, last =>
    let (whole, _, seen) := collapse 0 pending last
    seen ++ whole.inspected
  | (next, found) :: rest, pending, last =>
    let depth := last.jointDepth total next
    let (joined, pending, seen) := collapse depth pending last
    found ++ seen ++ joinAll total rest ((joined, depth) :: pending) next

/-- How many items of a list go on after one as they began, in order or not. -/
def followers (comesBefore : Nat → Nat → Bool) (opposite : Bool) (last : Nat) : List Nat → Nat
  | [] => 0
  | next :: rest =>
    if comesBefore next last = opposite then followers comesBefore opposite next rest + 1 else 0

/-- How many items at the front of a list are in order, or in strictly opposite order. -/
def orderedSize (comesBefore : Nat → Nat → Bool) : List Nat → Nat
  | first :: second :: rest => followers comesBefore (comesBefore second first) second rest + 2
  | places => places.length

/-- How long a stretch has to be to be kept as it is found. -/
def leastOrderedSize (total : Nat) : Nat :=
  if total ≤ 4096 then min (total - total / 2) 64
  else
    let shift := (total.log2 + 1) / 2
    ((1 <<< shift) + (total >>> shift)) / 2

/-- The stretch at the front of the places that are left, and what is inspected to find it. -/
def nextStretch (comesBefore : Nat → Nat → Bool) (total start : Nat) : Stretch × List Nat :=
  let left := List.range' start (total - start)
  let least := leastOrderedSize total
  let kept := if least ≤ left.length then orderedSize comesBefore left else 0
  let seen := if least ≤ left.length then oneByOne (left.take (kept + 1)) else []
  let size := min blockLimit left.length
  if least ≤ kept then (⟨start, kept, true⟩, seen)
  else if total ≤ 2 * blockLimit then (⟨start, size, true⟩, seen ++ block (left.take size))
  else (⟨start, min least left.length, false⟩, seen)

/-- The stretches from a place on. -/
def stretches (comesBefore : Nat → Nat → Bool) (total start : Nat) : List (Stretch × List Nat) :=
  if start < total then
    let next := nextStretch comesBefore total start
    next :: stretches comesBefore total (start + max next.1.size 1)
  else []
termination_by total - start

/-- The places of some items in the order in which they are first inspected. An item that stands
alone is not inspected; one that has not been inspected by then is so when stretches are merged. -/
def inspectedPlaces (comesBefore : Nat → Nat → Bool) (total : Nat) : List Nat :=
  if total < 2 then []
  else if total ≤ insertionLimit then oneByOne (List.range total)
  else
    match stretches comesBefore total 0 with
    | [] => []
    | (first, found) :: rest =>
      (found ++ joinAll total rest [] first ++ List.range total).eraseDups

/-- Items in the order in which they are first inspected to sort them. -/
def inspected {α : Type} (comesBefore : α → α → Bool) (items : List α) : List α :=
  let items := items.toArray
  let places := inspectedPlaces
    (fun i j => match items[i]?, items[j]? with
      | some a, some b => comesBefore a b
      | _, _ => false)
    items.size
  places.filterMap fun i => items[i]?

@[simp] theorem mem_oneByOne {place : Nat} : {places : List Nat} →
    (place ∈ oneByOne places ↔ place ∈ places)
  | [] | [_] => .rfl
  | _ :: _ :: _ => by simp only [oneByOne, List.mem_cons]; grind

/-- Of several items each is inspected. -/
theorem mem_inspectedPlaces {comesBefore : Nat → Nat → Bool} {total place : Nat}
    (h : 2 ≤ total) (hp : place < total) : place ∈ inspectedPlaces comesBefore total := by
  unfold inspectedPlaces stretches
  simp only [show ¬ total < 2 by omega, show 0 < total by omega, ↓reduceIte]
  split
  · simpa using hp
  · simp [hp]

section

variable {α : Type} {comesBefore : α → α → Bool} {items : List α} {a : α}

/-- Nothing else than the items is inspected. -/
theorem mem_of_mem_inspected (h : a ∈ inspected comesBefore items) : a ∈ items := by
  simp only [inspected, List.mem_filterMap] at h
  obtain ⟨i, -, h⟩ := h
  exact List.mem_toArray.mp (Array.mem_of_getElem? h)

theorem mem_inspected (h : 2 ≤ items.length) (ha : a ∈ items) :
    a ∈ inspected comesBefore items := by
  obtain ⟨i, hi, rfl⟩ := List.mem_iff_getElem.mp ha
  simp only [inspected, List.mem_filterMap]
  exact ⟨i, mem_inspectedPlaces (by simpa using h) (by simpa using hi), by simp [hi]⟩

end

end Sorting

end PerpExchange
