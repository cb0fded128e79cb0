import PerpExchange.Proofs.Json.Records

/-! A log is read as the event it was written for by the contract that announces the event, and by
no other. Names tell the events of two contracts apart, except that both books place orders; there
the fields that only one kind of order has do. -/
namespace PerpExchange

open Json

namespace Json

/-- A field that a record was written without is not among those it was given. -/
theorem lookup_of_missing {names : List String} {fields : List (String × Json)} {f : Fields}
    {name : String} (h : fields? names (ofFields fields) = some f)
    (hmissing : name ∉ fields.map Prod.fst) : f.given.lookup name = none := by
  simp only [fields?, ofFields, namedMembers_map_escape, Option.bind_eq_bind, Option.bind_some,
    Option.ite_none_right_eq_some, Option.some.injEq] at h
  obtain ⟨-, rfl⟩ := h
  rw [List.lookup_eq_none_iff]
  intro field hfield
  have hmem : field.1 ∈ fields.map Prod.fst :=
    List.mem_map.mpr ⟨field, (List.mem_filter.mp hfield).1, rfl⟩
  rw [bne_iff_ne]
  rintro rfl
  exact hmissing hmem

/-- A record is not read if a field it has to have is missing. -/
theorem fields?_bind_eq_none {α : Type} {names : List String} {fields : List (String × Json)}
    {build : Fields → Option α} {name : String} (hmissing : name ∉ fields.map Prod.fst)
    (hbuild : ∀ f : Fields, f.given.lookup name = none → build f = none) :
    (fields? names (ofFields fields)).bind build = none := by
  cases hf : fields? names (ofFields fields) with
  | none => rfl
  | some f => exact hbuild f (lookup_of_missing hf hmissing)

end Json

/-- A limit order does not say when it expires, so it is not read as an order that trades at once.
-/
theorem decodeAs_ioc_limit (o : LimitOrder) : decodeAs IocOrder (encode o) = none := by
  unfold decodeAs
  have hmissing : "expire_at" ∉ (o.fields ++ [("post_only", encode o.postOnly)]).map Prod.fst := by
    simp [OrderTerms.fields]
  exact fields?_bind_eq_none hmissing fun f hf => by simp [Fields.get?, hf]

/-- An order that trades at once does not say whether it is post-only, so it is not read as a limit
order. -/
theorem decodeAs_limit_ioc (o : IocOrder) : decodeAs LimitOrder (encode o) = none := by
  unfold decodeAs
  have hmissing : "post_only" ∉ (("expire_at", encode o.expireAt) :: o.fields).map Prod.fst := by
    simp [OrderTerms.fields]
  exact fields?_bind_eq_none hmissing fun f hf => by simp [Fields.get?, hf]

/-- The names of the events of a contract. -/
def ContractKind.eventNames : ContractKind → List String
  | .orderBook => ["OrderPlaced", "OrderAccepted", "OrderCancelled", "OrderCancelAccepted",
    "OrdersMatched", "LiquidationOrderMatched", "OrderMatchingError"]
  | .iocOrderBook => ["OrderPlaced"]
  | .marginAccount => ["MarginAdded", "MarginRemoved", "MarginReserved", "MarginReleased",
    "PnLRealized"]
  | .clearingHouse => ["FundingRateUpdated", "FundingPaid", "PositionModified",
    "PositionLiquidated", "PISampledUpdated", "PISampleSkipped"]

namespace ContractEvent

theorem name_mem_eventNames (e : ContractEvent) : e.name ∈ e.kind.eventNames := by
  cases e with
  | orderBook e => cases e <;> simp [name, OrderBookEvent.name, kind, ContractKind.eventNames]
  | iocOrderBook e => simp [name, IocOrderBookEvent.name, kind, ContractKind.eventNames]
  | marginAccount e =>
    cases e <;> simp [name, MarginAccountEvent.name, kind, ContractKind.eventNames]
  | clearingHouse e =>
    cases e <;> simp [name, ClearingHouseEvent.name, kind, ContractKind.eventNames]

/-- The events of different contracts have different names, except those that place an order. -/
theorem eq_orderPlaced_of_mem_eventNames : ∀ k k' : ContractKind, k ≠ k' →
    ∀ name ∈ k.eventNames, name ∈ k'.eventNames → name = "OrderPlaced" ∧
      (k = .orderBook ∧ k' = .iocOrderBook ∨ k = .iocOrderBook ∧ k' = .orderBook) := by
  intro k k'
  cases k <;> cases k' <;> decide

theorem inner_eq (e : ContractEvent) : ∃ p, e.inner = ofVariant e.name p := by
  cases e with
  | orderBook e => exact ⟨_, rfl⟩
  | iocOrderBook e =>
    cases e
    exact ⟨_, rfl⟩
  | marginAccount e => exact ⟨_, rfl⟩
  | clearingHouse e => exact ⟨_, rfl⟩

/-- No contract has an event of a name that is not among its own. -/
theorem ofInner?_of_not_mem {name : String} {k : ContractKind} (h : name ∉ k.eventNames)
    (p : Json) : ofInner? (ofVariant name p) k = none := by
  cases k with
  | orderBook =>
    simp only [ofInner?, decodeAs, JsonCodec.decode?, payload?_ofVariant, Option.bind_some]
    unfold OrderBookEvent.ofPayload?
    split <;> simp_all [ContractKind.eventNames]
  | iocOrderBook =>
    simp only [ofInner?, decodeAs, JsonCodec.decode?, payload?_ofVariant]
    split <;> simp_all [ContractKind.eventNames]
  | marginAccount =>
    simp only [ofInner?, decodeAs, JsonCodec.decode?, payload?_ofVariant, Option.bind_some]
    unfold MarginAccountEvent.ofPayload?
    split <;> simp_all [ContractKind.eventNames]
  | clearingHouse =>
    simp only [ofInner?, decodeAs, JsonCodec.decode?, payload?_ofVariant, Option.bind_some]
    unfold ClearingHouseEvent.ofPayload?
    split <;> simp_all [ContractKind.eventNames]

/-- What both books say of an order that is placed. -/
def placement (trader : Address) (id : Hash) (order : Json) (time : Timestamp) :
    List (String × Json) :=
  [("trader", encode trader), ("order_hash", encode id), ("order", order),
    ("timestamp", encode time)]

section
variable (trader : Address) (id : Hash) (order : Json) (time : Timestamp)

theorem fields?_placement :
    fields? ["trader", "order_hash", "order", "timestamp"]
      (ofFields (placement trader id order time)) = some ⟨placement trader id order time⟩ :=
  fields?_ofFields (by simp [placement]) (by simp [placement])

theorem get?_order_placement {α : Type} [JsonCodec α] :
    (Fields.get? ⟨placement trader id order time⟩ "order" : Option α) = decodeAs α order := by
  simp [Fields.get?, placement, List.lookup_cons, decodeAs]

end

/-- The order book does not place orders that trade at once. -/
theorem ofInner?_placed_ioc (trader : Address) (id : Hash) (order : IocOrder) (time : Timestamp) :
    ofInner? (inner (.iocOrderBook (.orderPlaced trader id order time))) .orderBook = none := by
  have hinner : inner (.iocOrderBook (.orderPlaced trader id order time)) =
      ofVariant "OrderPlaced" (ofFields (placement trader id (encode order) time)) := rfl
  have horder : (Fields.get? ⟨placement trader id (encode order) time⟩ "order" :
      Option LimitOrder) = none := by rw [get?_order_placement, decodeAs_limit_ioc]
  simp only [hinner, ofInner?, decodeAs, JsonCodec.decode?, payload?_ofVariant, Option.bind_some,
    OrderBookEvent.ofPayload?, fields?_placement, horder, Option.bind_eq_bind, Option.bind_none,
    Option.bind_fun_none, Option.map_none]

/-- The other book places no limit orders. -/
theorem ofInner?_placed_limit (trader : Address) (id : Hash) (order : LimitOrder)
    (time : Timestamp) :
    ofInner? (inner (.orderBook (.orderPlaced trader id order time))) .iocOrderBook = none := by
  have hinner : inner (.orderBook (.orderPlaced trader id order time)) =
      ofVariant "OrderPlaced" (ofFields (placement trader id (encode order) time)) := rfl
  have horder : (Fields.get? ⟨placement trader id (encode order) time⟩ "order" :
      Option IocOrder) = none := by rw [get?_order_placement, decodeAs_ioc_limit]
  simp only [hinner, ofInner?, decodeAs, JsonCodec.decode?, payload?_ofVariant, fields?_placement,
    horder, Option.bind_eq_bind, Option.bind_some, Option.bind_none, Option.bind_fun_none,
    Option.map_none]

/-- An event is not read as one of another contract. -/
theorem ofInner?_of_ne_kind {e : ContractEvent} {k : ContractKind} (hk : k ≠ e.kind) :
    ofInner? e.inner k = none := by
  by_cases hname : e.name ∈ k.eventNames
  · obtain ⟨hplaced, hbooks⟩ := eq_orderPlaced_of_mem_eventNames k e.kind hk e.name hname
      e.name_mem_eventNames
    rcases hbooks with ⟨rfl, hkind⟩ | ⟨rfl, hkind⟩
    · cases e with
      | iocOrderBook e =>
        cases e with
        | orderPlaced trader id order time => exact ofInner?_placed_ioc trader id order time
      | orderBook e | marginAccount e | clearingHouse e => cases hkind
    · cases e with
      | orderBook e =>
        cases e with
        | orderPlaced trader id order time => exact ofInner?_placed_limit trader id order time
        | _ => simp [name, OrderBookEvent.name] at hplaced
      | iocOrderBook e | marginAccount e | clearingHouse e => cases hkind
  · obtain ⟨p, hp⟩ := e.inner_eq
    rw [hp, ofInner?_of_not_mem hname]

/-- The log of an event is read as that event when it is taken for one of the contract that
announces it; taken for one of any other contract, its payload is refused. -/
theorem event_toLog_of_kind (e : ContractEvent) (address : Address) (block : BlockNumber)
    (index : UInt64) (k : ContractKind) :
    (e.toLog address block index).event k = if k = e.kind then .ok e else .error .badPayload := by
  split
  next hk => rw [hk, e.event_toLog]
  next hk =>
    have hread := e.plain_inner.readBytes?_utf8
    simp only [Log.event, toLog, hread, Option.bind_some, ofInner?_of_ne_kind hk]

end ContractEvent
end PerpExchange
