import PerpExchange.Book
import PerpExchange.Ledger
import PerpExchange.Metrics

/-!
The store: every order the exchange knows, the ledger of every trader, and the books, which list
the orders of each market by side and priority. Operations that have something to count answer with
the counters to raise.
-/

namespace PerpExchange

/-- What a store holds, apart from the books, which follow from the orders. -/
structure StoreData where
  orders : Map Hash Order
  traders : Map Address Trader
  lastPrice : Map MarketId Amount
  cumulativePremium : Map MarketId Amount
  nextFundingTime : Timestamp
  nextSampleTime : Timestamp
  sampleAttemptedTime : Timestamp
  lastAcceptedBlock : BlockNumber

structure Store extends StoreData where
  books : Map MarketId Book

namespace Store

def empty : Store where
  orders := ∅
  traders := ∅
  lastPrice := ∅
  cumulativePremium := ∅
  nextFundingTime := 0
  nextSampleTime := 0
  sampleAttemptedTime := 0
  lastAcceptedBlock := 0
  books := ∅

instance : Inhabited Store := ⟨empty⟩

/-- The book of a market; that of a market without orders is empty. -/
def book (s : Store) (m : MarketId) : Book := s.books.getD m .empty

/-- Lists an order in the book of its market. -/
def listOrder (books : Map MarketId Book) (o : Order) : Map MarketId Book :=
  books.insert o.market ((books.getD o.market .empty).insert o)

/-- Takes an order off the book of its market. -/
def unlistOrder (books : Map MarketId Book) (o : Order) : Map MarketId Book :=
  books.modify o.market fun b => b.remove o

/-- Adds an order. One with the same id is replaced. -/
def add (s : Store) (o : Order) : Store :=
  let books := match s.orders[o.id]? with
    | some earlier => unlistOrder s.books earlier
    | none => s.books
  { s with orders := s.orders.insert o.id o, books := listOrder books o }

def delete (s : Store) (id : Hash) : Store × List Counter :=
  match s.orders[id]? with
  | none => (s, [.deleteOrderNotFound])
  | some o => ({ s with orders := s.orders.erase id, books := unlistOrder s.books o }, [])

end Store

namespace Order

/-- A fill that is kept within the size of an order: no more than all of it, and never on the other
side. Answers whether it had to be changed. -/
def clampFill (o : Order) (fill : Amount) : Amount × Bool :=
  if o.size.toInt.natAbs < fill.toInt.natAbs then (o.size, true)
  else if fill ≠ 0 ∧ fill.signum ≠ o.size.signum then (0, true)
  else (fill, false)

/-- The lifecycle after a fill has changed: taking back from a filled order ends that status, and
completing an order begins it. -/
def lifecycleAfterFill (o : Order) (delta fill : Amount) (block : BlockNumber) : List Lifecycle :=
  let wasFilled := o.hasStatus .filled
  if delta < 0 then if wasFilled then o.lifecycle.dropLast else o.lifecycle
  else if 0 < delta ∧ fill = o.size ∧ !wasFilled then o.lifecycle ++ [⟨block, .filled, ""⟩]
  else o.lifecycle

/-- Fills more of an order, or less when the change is negative. -/
def fillBy? (o : Order) (delta : Amount) (block : BlockNumber) : Option (Order × Bool) := do
  let (fill, clamped) := o.clampFill (← o.filled.add? (← delta.mul? o.side.sign))
  return ({ o with filled := fill, lifecycle := o.lifecycleAfterFill delta fill block }, clamped)

def pushStatus (o : Order) (l : Lifecycle) : Order := { o with lifecycle := o.lifecycle ++ [l] }

/-- Ends the current status, unless it is the first. -/
def popStatus (o : Order) : Order :=
  if 1 < o.lifecycle.length then { o with lifecycle := o.lifecycle.dropLast } else o

end Order

namespace Store

/-- Changes the fill of an order by an amount, positive for more. -/
def fill (s : Store) (delta : Amount) (id : Hash) (block : BlockNumber) : Store × List Counter :=
  match s.orders[id]? with
  | none => (s, [.fillOrderNotFound])
  | some o =>
    match o.fillBy? delta block with
    | none => (s, [.arithmeticOverflow])
    | some (o, clamped) =>
      ({ s with orders := s.orders.insert id o }, if clamped then [.fillOutOfBounds] else [])

/-- Begins a status of an order, unless the order is unknown. -/
def setStatus? (s : Store) (id : Hash) (l : Lifecycle) : Option Store :=
  (s.orders[id]?).map fun o => { s with orders := s.orders.insert id (o.pushStatus l) }

/-- Ends the current status of an order, unless the order is unknown. -/
def revertStatus? (s : Store) (id : Hash) : Option Store :=
  (s.orders[id]?).map fun o => { s with orders := s.orders.insert id o.popStatus }

/-- The orders of a market as the book lists them, longs first. -/
def marketOrders (s : Store) (m : MarketId) : List Order :=
  (s.book m).ids.filterMap fun id => s.orders[id]?

/-- The orders of a trader whose current status is placed. -/
def openOrdersOf (s : Store) (trader : Address) : List Order :=
  s.orders.values.filter fun o => o.trader = trader && o.hasStatus .placed

end Store

end PerpExchange
