import PerpExchange.Order.Codec

/-!
What the exchange keeps for each trader: open positions, deposits of each collateral, and the
margin that is locked against open orders.
-/

namespace PerpExchange

open Json

/-- The index of a collateral; that of the quote asset is zero. -/
abbrev CollateralId : Type := UInt64

/-- A position in one market. The liquidation threshold is how much of the size may be liquidated
at once; it has the sign of the size. -/
structure Position where
  size : Amount
  openNotional : Amount
  unrealisedFunding : Amount
  lastPremium : Amount
  liquidationThreshold : Amount
  deriving DecidableEq

instance : Inhabited Position := ⟨⟨0, 0, 0, 0, 0⟩⟩

instance : JsonCodec Position where
  encode p := ofFields [
    ("size", encode p.size), ("open_notional", encode p.openNotional),
    ("unrealised_funding", encode p.unrealisedFunding),
    ("last_premium_fraction", encode p.lastPremium),
    ("liquidation_threshold", encode p.liquidationThreshold)]
  decode? j := do
    let f ← fields? ["size", "open_notional", "unrealised_funding", "last_premium_fraction",
      "liquidation_threshold"] j
    return {
      size := ← f.get? "size", openNotional := ← f.get? "open_notional"
      unrealisedFunding := ← f.get? "unrealised_funding"
      lastPremium := ← f.get? "last_premium_fraction"
      liquidationThreshold := ← f.get? "liquidation_threshold" }

structure Margin where
  reserved : Amount
  deposited : Map CollateralId Amount

instance : Inhabited Margin := ⟨⟨0, ∅⟩⟩

/-- The deposits of the first collaterals, zero where there is none. -/
def Margin.deposits (m : Margin) (count : Nat) : List Amount :=
  (List.range count).map fun i => m.deposited.getD (UInt64.ofNat i) 0

instance : JsonCodec Margin where
  encode m := ofFields [("reserved", encode m.reserved), ("deposited", encode m.deposited)]
  decode? j := do
    let f ← fields? ["reserved", "deposited"] j
    return { reserved := ← f.get? "reserved", deposited := ← f.get? "deposited" }

structure Trader where
  positions : Map MarketId Position
  margin : Margin

instance : Inhabited Trader := ⟨⟨∅, default⟩⟩

instance : JsonCodec Trader where
  encode t := ofFields [("positions", encode t.positions), ("margin", encode t.margin)]
  decode? j := do
    let f ← fields? ["positions", "margin"] j
    return { positions := ← f.get? "positions", margin := ← f.get? "margin" }

end PerpExchange
