import PerpExchange.Book

/-!
Places in a sorted list, found by halving the stretch they can be in. A search compares an item with
what is looked for and tells whether the item belongs before it, is it, or belongs behind it.
-/

namespace PerpExchange

namespace Bisection

/-- Where a search ends: at an item that is what is looked for, or at the place it would have. -/
inductive Outcome where
  | present (place : Nat)
  | absent (place : Nat)
  deriving DecidableEq

/-- Halves a stretch of places until one is left. The half that begins at the middle is given up if
it lies behind. -/
def narrow (f : Nat → Ordering) (start size : Nat) : Nat :=
  if 1 < size then
    let middle := start + size / 2
    narrow f (if f middle = .gt then start else middle) (size - size / 2)
  else start
termination_by size

variable {α : Type}

/-- How the item at a place compares. There is none at the end, which counts as behind. -/
def compareAt (f : α → Ordering) (xs : List α) (place : Nat) : Ordering :=
  (xs[place]?).elim .gt f

def search (f : α → Ordering) (xs : List α) : Outcome :=
  let place := narrow (compareAt f xs) 0 xs.length
  match compareAt f xs place with
  | .lt => .absent (place + 1)
  | .eq => .present place
  | .gt => .absent place

/-- How many items pass a test that all fail behind the first that fails. -/
def partitionPoint (p : α → Bool) (xs : List α) : Nat :=
  match search (fun x => if p x then .lt else .gt) xs with
  | .present place | .absent place => place

end Bisection

namespace Book
open Bisection

/-- Insertion at the place that halving finds. -/
def insertByBisection (b : Book) (o : Order) : Book :=
  let entries := b.side o.side
  let entry := BookEntry.ofOrder o
  let place := partitionPoint (fun e => BookEntry.priority o.side e entry ≠ .gt) entries
  b.withSide o.side (entries.insertIdx place entry)

/-- Removal of the entry that halving finds; only where there is none is the side looked through for
the id of the order. -/
def removeByBisection? (b : Book) (o : Order) : Option Book :=
  let entries := b.side o.side
  let entry := BookEntry.ofOrder o
  match search (fun e => BookEntry.priority o.side e entry) entries with
  | .present place => some (b.withSide o.side (entries.eraseIdx place))
  | .absent _ =>
    (entries.findIdx? fun e => e.id = o.id).map fun place =>
      b.withSide o.side (entries.eraseIdx place)

end Book

end PerpExchange
