import PerpExchange.Event.Log
import PerpExchange.Proofs.Json.Lawful
import PerpExchange.Snapshot.Basic

/-! Orders, events and stores are read back from the documents they are written as. -/
namespace PerpExchange

open Json

instance : LawfulCodec Side where
  decode_encode s := by cases s <;> exact choice?_ofString (by decide)
  plain s := .string s.name

instance : LawfulCodec OrderStatus where
  decode_encode s := by cases s <;> exact choice?_ofString (by decide)
  plain s := .string s.name

instance : LawfulCodec LimitOrder where
  decode_encode o := fields?_bind_eq_some
    (by simp [OrderTerms.fields, OrderTerms.fieldNames]) (by simp [OrderTerms.fields])
    (by simp [OrderTerms.ofFields?, OrderTerms.fields])
  plain o := plain_ofFields (by simp [OrderTerms.fields])

instance : LawfulCodec IocOrder where
  decode_encode o := fields?_bind_eq_some
    (by simp [OrderTerms.fields, OrderTerms.fieldNames]) (by simp [OrderTerms.fields])
    (by simp [OrderTerms.ofFields?, OrderTerms.fields])
  plain o := plain_ofFields (by simp [OrderTerms.fields])

instance : LawfulCodec SignedOrder where
  decode_encode o := fields?_bind_eq_some
    (by simp [OrderTerms.fields, OrderTerms.fieldNames]) (by simp [OrderTerms.fields])
    (by simp [OrderTerms.ofFields?, OrderTerms.fields])
  plain o := plain_ofFields (by simp [OrderTerms.fields])

instance : LawfulCodec RawOrder where
  decode_encode r := by
    cases r with
    | limit o =>
      have hencode : encode (RawOrder.limit o) = ofVariant "limit" (encode o) := rfl
      simp only [hencode, JsonCodec.decode?, payload?_ofVariant, decodeAs_encode, Option.map_some]
    | ioc o =>
      have hencode : encode (RawOrder.ioc o) = ofVariant "ioc" (encode o) := rfl
      simp only [hencode, JsonCodec.decode?, payload?_ofVariant, decodeAs_encode, Option.map_some]
    | signed o =>
      have hencode : encode (RawOrder.signed o) = ofVariant "signed" (encode o) := rfl
      simp only [hencode, JsonCodec.decode?, payload?_ofVariant, decodeAs_encode, Option.map_some]
  plain r := by cases r <;> exact plain_ofVariant (LawfulCodec.plain _)

instance : LawfulCodec Lifecycle where
  decode_encode l := by
    rcases l with ⟨block, status, info⟩
    by_cases hinfo : info = ""
    · subst hinfo
      exact fields?_bind_eq_some (by simp) (by simp)
        (by simp)
    · exact fields?_bind_eq_some (by simp [hinfo]) (by simp [hinfo])
        (by simp [hinfo])
  plain l := plain_ofFields (by by_cases hinfo : l.info = "" <;> simp [hinfo])

instance : LawfulCodec Order where
  decode_encode o := fields?_bind_eq_some (by simp) (by simp)
    (by simp)
  plain o := plain_ofFields (by simp)

instance : LawfulCodec Position where
  decode_encode p := fields?_bind_eq_some (by simp) (by simp) (by simp)
  plain p := plain_ofFields (by simp)

instance : LawfulCodec Margin where
  decode_encode m := fields?_bind_eq_some (by simp) (by simp) (by simp)
  plain m := plain_ofFields (by simp)

instance : LawfulCodec Trader where
  decode_encode t := fields?_bind_eq_some (by simp) (by simp) (by simp)
  plain t := plain_ofFields (by simp)

instance : LawfulCodec StoreData where
  decode_encode s := fields?_bind_eq_some (by simp) (by simp)
    (by simp)
  plain s := plain_ofFields (by simp)

instance : LawfulCodec Snapshot where
  decode_encode s := fields?_bind_eq_some (by simp) (by simp) (by simp)
  plain s := plain_ofFields (by simp)

/-- A snapshot of the version in use is read back from its bytes. -/
theorem Snapshot.ofBytes_toBytes {s : Snapshot} (h : s.version = currentVersion) :
    ofBytes s.toBytes = .ok s := by
  have hread := (LawfulCodec.plain s).readBytes?_utf8
  simp [ofBytes, toBytes, hread, decodeAs, h]

instance : LawfulCodec OrderBookEvent where
  decode_encode e := by
    have hencode : encode e = ofVariant e.name (ofFields e.fields) := rfl
    simp only [hencode, JsonCodec.decode?, payload?_ofVariant, Option.bind_some]
    cases e <;> simp only [OrderBookEvent.name, OrderBookEvent.ofPayload?] <;>
      exact fields?_bind_eq_some (by simp [OrderBookEvent.fields])
        (by simp [OrderBookEvent.fields])
        (by simp [OrderBookEvent.fields])
  plain e := by
    apply plain_ofVariant
    apply plain_ofFields
    cases e <;> simp [OrderBookEvent.fields]

instance : LawfulCodec IocOrderBookEvent where
  decode_encode e := by
    rcases e with ⟨trader, id, order, time⟩
    have hencode : encode (IocOrderBookEvent.orderPlaced trader id order time) =
        ofVariant "OrderPlaced" (ofFields [("trader", encode trader), ("order_hash", encode id),
          ("order", encode order), ("timestamp", encode time)]) := rfl
    simp only [hencode, JsonCodec.decode?, payload?_ofVariant]
    exact fields?_bind_eq_some (by simp) (by simp) (by simp)
  plain e := by
    cases e
    exact plain_ofVariant (plain_ofFields (by simp))

instance : LawfulCodec MarginAccountEvent where
  decode_encode e := by
    have hencode : encode e = ofVariant e.name (ofFields e.fields) := rfl
    simp only [hencode, JsonCodec.decode?, payload?_ofVariant, Option.bind_some]
    cases e <;> simp only [MarginAccountEvent.name, MarginAccountEvent.ofPayload?] <;>
      exact fields?_bind_eq_some (by simp [MarginAccountEvent.fields])
        (by simp [MarginAccountEvent.fields])
        (by simp [MarginAccountEvent.fields])
  plain e := by
    apply plain_ofVariant
    apply plain_ofFields
    cases e <;> simp [MarginAccountEvent.fields]

instance : LawfulCodec PositionChange where
  decode_encode c := fields?_bind_eq_some (by simp) (by simp) (by simp)
  plain c := plain_ofFields (by simp)

instance : LawfulCodec ClearingHouseEvent where
  decode_encode e := by
    have hencode : encode e = ofVariant e.name e.payload := rfl
    simp only [hencode, JsonCodec.decode?, payload?_ofVariant, Option.bind_some]
    cases e with
    | positionModified change =>
      simp only [ClearingHouseEvent.name, ClearingHouseEvent.ofPayload?, ClearingHouseEvent.payload,
        decodeAs_encode, Option.map_some]
    | positionLiquidated change =>
      simp only [ClearingHouseEvent.name, ClearingHouseEvent.ofPayload?, ClearingHouseEvent.payload,
        decodeAs_encode, Option.map_some]
    | _ =>
      simp only [ClearingHouseEvent.name, ClearingHouseEvent.ofPayload?, ClearingHouseEvent.payload]
      exact fields?_bind_eq_some (by simp) (by simp) (by simp)
  plain e := by
    apply plain_ofVariant
    cases e with
    | positionModified change => exact LawfulCodec.plain change
    | positionLiquidated change => exact LawfulCodec.plain change
    | _ => exact plain_ofFields (by simp)

namespace ContractEvent

theorem ofInner?_inner (e : ContractEvent) : ofInner? e.inner e.kind = some e := by
  cases e <;> simp only [inner, kind, ofInner?, decodeAs_encode, Option.map_some]

theorem plain_inner (e : ContractEvent) : Plain e.inner := by
  cases e <;> exact LawfulCodec.plain _

/-- The log of an event carries that event. -/
theorem event_toLog (e : ContractEvent) (address : Address) (block : BlockNumber)
    (index : UInt64) : (e.toLog address block index).event e.kind = .ok e := by
  have hread := e.plain_inner.readBytes?_utf8
  simp only [Log.event, toLog, hread, Option.bind_some, ofInner?_inner, if_true]

end ContractEvent

end PerpExchange
