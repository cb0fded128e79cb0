import Std.Data.ExtTreeSet
import PerpExchange.Store.Basic

/-!
What happens when a block is accepted: orders that can no longer trade leave the store. An order
that trades only against older ones stays as long as one that crosses it stays.
-/

namespace PerpExchange

/-- What becomes of an order at acceptance. -/
inductive AcceptDecision where
  | keep
  | remove
  | keepIfMatcheable
  deriving DecidableEq

/-- Filled and cancelled orders go, as do those that have expired. Limit orders stay, and so do
orders placed after the accepted block. -/
def Order.acceptDecision (o : Order) (accepted : BlockNumber) (time : Timestamp) : AcceptDecision :=
  if o.lifecycle.any fun l => l.status.isTerminal && l.block ≤ accepted then .remove
  else if o.kind = .limit then .keep
  else if o.isExpired time then .remove
  else if accepted < o.block then .keep
  else .keepIfMatcheable

namespace Book

/-- Whether a price on the other side crosses that of an order. -/
def crosses (o : Order) (price : Amount) : Bool :=
  match o.side with
  | .long => price ≤ o.price
  | .short => o.price ≤ price

/-- The entries on the other side of an order. -/
def counterSide (b : Book) (o : Order) : List BookEntry :=
  match o.side with
  | .long => b.shorts
  | .short => b.longs

/-- Whether an order that stays, and is no newer, crosses a given one. -/
def hasCounterMatch (b : Book) (removed : Std.ExtTreeSet Hash) (o : Order) : Bool :=
  ((b.counterSide o).takeWhile fun e => crosses o e.price).any fun e =>
    !removed.contains e.id && e.block ≤ o.block

/-- Looks at orders in turn and removes those nothing matches any more. Answers with the orders
that stay for now, and the removed ones. -/
def sift (b : Book) : List Order → Std.ExtTreeSet Hash → List Order × Std.ExtTreeSet Hash
  | [], removed => ([], removed)
  | o :: rest, removed =>
    if b.hasCounterMatch removed o then
      let (kept, removed) := sift b rest removed
      (o :: kept, removed)
    else sift b rest (removed.insert o.id)

/-- Sifts orders until all that are left stay. -/
def siftAll (b : Book) (orders : List Order) (removed : Std.ExtTreeSet Hash) :
    Std.ExtTreeSet Hash :=
  let sifted := b.sift orders removed
  if sifted.1.length < orders.length then siftAll b sifted.1 sifted.2 else sifted.2
  termination_by orders.length

/-- The orders of a book that leave at acceptance. -/
def leavers (b : Book) (orders : Map Hash Order) (accepted : BlockNumber) (time : Timestamp) :
    Std.ExtTreeSet Hash :=
  let listed := b.ids.filterMap fun id => orders[id]?
  let decided (d : AcceptDecision) := listed.filter fun o => o.acceptDecision accepted time = d
  b.siftAll (decided .keepIfMatcheable)
    ((decided .remove).foldl (fun removed o => removed.insert o.id) ∅)

end Book

namespace Store

/-- Takes orders out of the store. -/
def deleteAll (s : Store) (ids : List Hash) : Store := ids.foldl (fun s id => (s.delete id).1) s

/-- Accepts a block, and answers how many orders left. -/
def accept (s : Store) (accepted : BlockNumber) (time : Timestamp) : Store × Nat :=
  let gone := s.books.values.flatMap fun b => (b.leavers s.orders accepted time).toList
  ({ s.deleteAll gone with lastAcceptedBlock := max s.lastAcceptedBlock accepted }, gone.length)

end Store

end PerpExchange
