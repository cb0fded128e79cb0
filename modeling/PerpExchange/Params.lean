import PerpExchange.Order.Codec

/-!
The parameters of the protocol: which markets are open and at which prices, which collaterals
count for how much, and what margin is asked for.
-/

namespace PerpExchange

open Json

/-- A token that counts as margin: its price, the share of its value that counts, and the decimals
of deposited amounts. -/
structure Collateral where
  price : Amount
  weight : Amount
  decimals : UInt32
  deriving DecidableEq

instance : JsonCodec Collateral where
  encode c := ofFields [
    ("price", encode c.price), ("weight", encode c.weight), ("decimals", encode c.decimals)]
  decode? j := do
    let f ← fields? ["price", "weight", "decimals"] j
    return { price := ← f.get? "price", weight := ← f.get? "weight"
             decimals := ← f.get? "decimals" }

/-- A band of prices, ends included. -/
structure PriceBounds where
  upper : Amount
  lower : Amount
  deriving DecidableEq

namespace PriceBounds

def unbounded : PriceBounds := ⟨Amount.greatest, 0⟩

/-- The upper end, unless the band has none. -/
def upperLimit? (b : PriceBounds) : Option Amount :=
  if b.upper = Amount.greatest then none else some b.upper

end PriceBounds

instance : JsonCodec PriceBounds where
  encode b := ofFields [("upper", encode b.upper), ("lower", encode b.lower)]
  decode? j := do
    let f ← fields? ["upper", "lower"] j
    return { upper := ← f.get? "upper", lower := ← f.get? "lower" }

/-- The parameters of one market. Orders trade within the acceptable bounds and liquidations within
their own; at most the given share of a position is liquidated at once. -/
structure MarketParams where
  oraclePrice : Amount
  midPrice : Amount
  acceptableBounds : PriceBounds
  liquidationBounds : PriceBounds
  maxLiquidationRatio : Amount
  minSizeRequirement : Amount
  deriving DecidableEq

instance : Inhabited MarketParams := ⟨⟨0, 0, .unbounded, .unbounded, 250000, 0⟩⟩

instance : JsonCodec MarketParams where
  encode p := ofFields [
    ("oracle_price", encode p.oraclePrice), ("mid_price", encode p.midPrice),
    ("acceptable_bounds", encode p.acceptableBounds),
    ("liquidation_bounds", encode p.liquidationBounds),
    ("max_liquidation_ratio", encode p.maxLiquidationRatio),
    ("min_size_requirement", encode p.minSizeRequirement)]
  decode? j := do
    let f ← fields? ["oracle_price", "mid_price", "acceptable_bounds", "liquidation_bounds",
      "max_liquidation_ratio", "min_size_requirement"] j
    return {
      oraclePrice := ← f.get? "oracle_price", midPrice := ← f.get? "mid_price"
      acceptableBounds := ← f.get? "acceptable_bounds"
      liquidationBounds := ← f.get? "liquidation_bounds"
      maxLiquidationRatio := ← f.get? "max_liquidation_ratio"
      minSizeRequirement := ← f.get? "min_size_requirement" }

structure ProtocolParams where
  markets : Map MarketId MarketParams
  collaterals : List Collateral
  maintenanceMargin : Amount
  minAllowableMargin : Amount
  takerFee : Amount

instance : Inhabited ProtocolParams := ⟨⟨∅, [⟨1000000, 1000000, 6⟩], 100000, 200000, 500⟩⟩

instance : JsonCodec ProtocolParams where
  encode p := ofFields [
    ("markets", encode p.markets), ("collaterals", encode p.collaterals),
    ("maintenance_margin", encode p.maintenanceMargin),
    ("min_allowable_margin", encode p.minAllowableMargin), ("taker_fee", encode p.takerFee)]
  decode? j := do
    let f ← fields? ["markets", "collaterals", "maintenance_margin", "min_allowable_margin",
      "taker_fee"] j
    return {
      markets := ← f.getD? "markets" ∅, collaterals := ← f.getD? "collaterals" []
      maintenanceMargin := ← f.get? "maintenance_margin"
      minAllowableMargin := ← f.get? "min_allowable_margin", takerFee := ← f.get? "taker_fee" }

namespace ProtocolParams

/-- The markets that are open, in ascending order. -/
def activeMarkets (p : ProtocolParams) : List MarketId := p.markets.keys

theorem nodup_activeMarkets (p : ProtocolParams) : p.activeMarkets.Nodup :=
  Std.ExtTreeMap.distinct_keys.imp fun hne he => hne (Std.compare_eq_iff_eq.mpr he)

/-- The parameters of a market, those of an unknown one by default. -/
def market (p : ProtocolParams) (m : MarketId) : MarketParams := p.markets.getD m default

/-- Changes the parameters of a market, opening it if need be. -/
def adjustMarket (p : ProtocolParams) (m : MarketId) (f : MarketParams → MarketParams) :
    ProtocolParams :=
  { p with markets := p.markets.insert m (f (p.market m)) }

def setOraclePrice (p : ProtocolParams) (m : MarketId) (price : Amount) : ProtocolParams :=
  p.adjustMarket m fun q => { q with oraclePrice := price }

def setMidPrice (p : ProtocolParams) (m : MarketId) (price : Amount) : ProtocolParams :=
  p.adjustMarket m fun q => { q with midPrice := price }

end ProtocolParams

end PerpExchange
