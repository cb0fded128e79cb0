import PerpExchange.Bytes.Sha256
import PerpExchange.Basic
import PerpExchange.Amount

/-!
Orders as traders state them. There are three kinds, which share most of their terms; an order is
known by the digest of everything it states.
-/

namespace PerpExchange

abbrev MarketId : Type := UInt32

/-- The side an order or a position is on. -/
inductive Side where
  | long
  | short
  deriving DecidableEq, Inhabited

namespace Side

/-- Sizes are positive on the long side and negative on the short one; zero counts as long. -/
def of (size : Amount) : Side := if size < 0 then .short else .long

/-- The sign of sizes on this side. -/
def sign : Side → Amount
  | .long => 1
  | .short => ⟨-1, by decide, by decide⟩

end Side

inductive OrderKind where
  | limit
  | ioc
  | signed
  deriving DecidableEq, Inhabited

/-- The byte that opens what is hashed for an order of this kind. -/
def OrderKind.tag : OrderKind → UInt8
  | .limit => 0
  | .ioc => 1
  | .signed => 2

/-- What orders of all kinds state. -/
structure OrderTerms where
  market : MarketId
  trader : Address
  size : Amount
  price : Amount
  salt : Amount
  reduceOnly : Bool
  deriving DecidableEq, Inhabited

/-- An order that rests on the book until it is filled or cancelled. -/
structure LimitOrder extends OrderTerms where
  postOnly : Bool
  deriving DecidableEq, Inhabited

/-- An order that trades against what is resting when it arrives, until it expires. -/
structure IocOrder extends OrderTerms where
  expireAt : Timestamp
  deriving DecidableEq, Inhabited

/-- An order signed away from the chain, which expires. -/
structure SignedOrder extends OrderTerms where
  expireAt : Timestamp
  postOnly : Bool
  deriving DecidableEq, Inhabited

/-- An order as it was placed. -/
inductive RawOrder where
  | limit (order : LimitOrder)
  | ioc (order : IocOrder)
  | signed (order : SignedOrder)
  deriving DecidableEq, Inhabited

namespace RawOrder

def kind : RawOrder → OrderKind
  | .limit _ => .limit
  | .ioc _ => .ioc
  | .signed _ => .signed

def terms : RawOrder → OrderTerms
  | .limit o => o.toOrderTerms
  | .ioc o => o.toOrderTerms
  | .signed o => o.toOrderTerms

/-- A post-only order never takes liquidity. -/
def isPostOnly : RawOrder → Bool
  | .limit o => o.postOnly
  | .ioc _ => false
  | .signed o => o.postOnly

/-- The time after which the order is void; limit orders have none. -/
def expireAt? : RawOrder → Option Timestamp
  | .limit _ => none
  | .ioc o => some o.expireAt
  | .signed o => some o.expireAt

def boolByte (b : Bool) : UInt8 := if b then 1 else 0

/-- Sixteen bytes of two's complement, the highest first. -/
def amountBytes (a : Amount) : List UInt8 :=
  Bytes.bigEndian 16 (a.toInt % 340282366920938463463374607431768211456).toNat

/-- What the id of an order is the digest of. -/
def preimage (r : RawOrder) : List UInt8 :=
  let t := r.terms
  r.kind.tag :: t.trader.toList ++ amountBytes t.salt ++ Bytes.bigEndian 4 t.market.toNat ++
    amountBytes t.size ++ amountBytes t.price ++ [boolByte t.reduceOnly, boolByte r.isPostOnly] ++
    match r.expireAt? with
    | some time => Bytes.bigEndian 8 time.toNat
    | none => []

/-- The id of the order. -/
def hash (r : RawOrder) : Hash := Sha256.digest r.preimage

end RawOrder

end PerpExchange
