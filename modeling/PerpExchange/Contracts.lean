import PerpExchange.Event.Codec

/-!
Where the watched contracts are.
-/

namespace PerpExchange

open Json

structure ContractAddresses where
  orderBook : Address
  iocOrderBook : Address
  marginAccount : Address
  clearingHouse : Address
  deriving DecidableEq

namespace ContractAddresses

instance : Inhabited ContractAddresses :=
  ⟨⟨Bytes.ofWord 20 0x300, Bytes.ofWord 20 0x301, Bytes.ofWord 20 0x302, Bytes.ofWord 20 0x303⟩⟩

/-- The contract at an address. Where several share one, the first in order counts. -/
def kindOf? (c : ContractAddresses) (a : Address) : Option ContractKind :=
  if a = c.orderBook then some .orderBook
  else if a = c.iocOrderBook then some .iocOrderBook
  else if a = c.marginAccount then some .marginAccount
  else if a = c.clearingHouse then some .clearingHouse
  else none

end ContractAddresses

instance : JsonCodec ContractAddresses where
  encode c := ofFields [
    ("order_book", encode c.orderBook), ("ioc_order_book", encode c.iocOrderBook),
    ("margin_account", encode c.marginAccount), ("clearing_house", encode c.clearingHouse)]
  decode? j := do
    let f ← fields? ["order_book", "ioc_order_book", "margin_account", "clearing_house"] j
    return {
      orderBook := ← f.get? "order_book", iocOrderBook := ← f.get? "ioc_order_book"
      marginAccount := ← f.get? "margin_account", clearingHouse := ← f.get? "clearing_house" }

end PerpExchange
