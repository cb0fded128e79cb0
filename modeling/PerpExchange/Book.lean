import PerpExchange.Order.Basic

/-!
The resting orders of one market. Each side is a list of sort keys, the order that trades first in
front: by price, then by block, then orders that trade at once before those that rest, then by id.
-/

namespace PerpExchange

/-- The sort key of a resting order. -/
structure BookEntry where
  id : Hash
  price : Amount
  block : BlockNumber
  isIoc : Bool
  deriving DecidableEq

namespace BookEntry

def ofOrder (o : Order) : BookEntry := ⟨o.id, o.price, o.block, o.isIoc⟩

/-- Which price trades first on a side: the highest of longs, the lowest of shorts. -/
def comparePrice : Side → Amount → Amount → Ordering
  | .long, a, b => compare b a
  | .short, a, b => compare a b

/-- Which entry of a side trades first. -/
def priority (side : Side) (a b : BookEntry) : Ordering :=
  ((comparePrice side a.price b.price).then (compare a.block b.block)).then
    ((compare b.isIoc a.isIoc).then (compare a.id b.id))

end BookEntry

structure Book where
  longs : List BookEntry
  shorts : List BookEntry
  deriving DecidableEq, Inhabited

namespace Book

def empty : Book := ⟨[], []⟩

def side (b : Book) : Side → List BookEntry
  | .long => b.longs
  | .short => b.shorts

/-- Replaces one side. -/
def withSide (b : Book) : Side → List BookEntry → Book
  | .long, entries => { b with longs := entries }
  | .short, entries => { b with shorts := entries }

/-- Puts an entry behind all that trade before it or along with it. -/
def place (side : Side) (e : BookEntry) : List BookEntry → List BookEntry
  | [] => [e]
  | x :: rest =>
    if BookEntry.priority side x e = .gt then e :: x :: rest else x :: place side e rest

/-- Placing adds one entry and keeps all others. -/
theorem perm_place (side : Side) (e : BookEntry) (entries : List BookEntry) :
    (place side e entries).Perm (e :: entries) := by
  induction entries with
  | nil => exact .refl _
  | cons x rest ih =>
    unfold place
    split
    · exact .refl _
    · exact (ih.cons x).trans (.swap e x rest)

def insert (b : Book) (o : Order) : Book :=
  b.withSide o.side (place o.side (BookEntry.ofOrder o) (b.side o.side))

/-- Takes an order off its side: its entry if it is there, else the first entry of the same id. -/
def remove? (b : Book) (o : Order) : Option Book :=
  let entries := b.side o.side
  let entry := BookEntry.ofOrder o
  if entry ∈ entries then some (b.withSide o.side (entries.erase entry))
  else if entries.any fun e => e.id = o.id then
    some (b.withSide o.side (entries.eraseP fun e => e.id = o.id))
  else none

/-- The book without an order. -/
def remove (b : Book) (o : Order) : Book := (b.remove? o).getD b

/-- The ids of all resting orders, longs first. -/
def ids (b : Book) : List Hash := (b.longs ++ b.shorts).map BookEntry.id

def size (b : Book) : Nat := b.longs.length + b.shorts.length

end Book

end PerpExchange
