import PerpExchange.Proofs.Json.Grammar
import PerpExchange.Proofs.Json.Records

/-! What goes over the wire: orders as payloads, and the logs of a block as a batch. Both are read
back as they were written, and an order that was spelled in any other way is written alike. -/
namespace PerpExchange

open Json Json.Fields JsonGrammar

theorem Json.bytes?_ofBytes (bs : List UInt8) : bytes? (ofBytes bs) = some bs := by
  simp [bytes?, ofBytes, Except.toOption]

instance : LawfulCodec Log where
  decode_encode l := fields?_bind_eq_some (by simp) (by simp)
    (by simp [List.lookup_cons, bytes?_ofBytes])
  plain l := plain_ofFields (by simp [ofBytes, Plain.string])

instance : LawfulCodec ChainBatch where
  decode_encode b := fields?_bind_eq_some (by simp) (by simp) (by simp)
  plain b := plain_ofFields (by simp)

namespace OrderTerms
variable {f : Fields} {t : OrderTerms}

/-- Fields that spell the terms of an order. -/
def SpelledBy (value : String → Json) (t : OrderTerms) : Prop :=
  Spells (value "market") t.market ∧ Spells (value "trader") t.trader ∧
    Spells (value "base_asset_quantity") t.size ∧ Spells (value "price") t.price ∧
    Spells (value "salt") t.salt ∧ Spells (value "reduce_only") t.reduceOnly

theorem ofFields?_eq_some_iff : ofFields? f = some t ↔
    f.get? "market" = some t.market ∧ f.get? "trader" = some t.trader ∧
      f.get? "base_asset_quantity" = some t.size ∧ f.get? "price" = some t.price ∧
      f.get? "salt" = some t.salt ∧ f.get? "reduce_only" = some t.reduceOnly := by
  simp only [ofFields?, Option.bind_eq_bind, Option.bind_eq_some_iff, Option.pure_def,
    Option.some.injEq]
  constructor
  · rintro ⟨_, hmarket, _, htrader, _, hsize, _, hprice, _, hsalt, _, hreduce, rfl⟩
    exact ⟨hmarket, htrader, hsize, hprice, hsalt, hreduce⟩
  · rintro ⟨hmarket, htrader, hsize, hprice, hsalt, hreduce⟩
    exact ⟨_, hmarket, _, htrader, _, hsize, _, hprice, _, hsalt, _, hreduce, rfl⟩

theorem isSome_lookup (h : ofFields? f = some t) :
    ∀ name ∈ fieldNames, (f.given.lookup name).isSome := by
  obtain ⟨hmarket, htrader, hsize, hprice, hsalt, hreduce⟩ := ofFields?_eq_some_iff.mp h
  simp only [fieldNames, List.forall_mem_cons, List.not_mem_nil, false_imp_iff, implies_true,
    and_true]
  exact ⟨isSome_lookup_of_get? hmarket, isSome_lookup_of_get? htrader, isSome_lookup_of_get? hsize,
    isSome_lookup_of_get? hprice, isSome_lookup_of_get? hsalt, isSome_lookup_of_get? hreduce⟩

theorem spelledBy_iff {value : String → Json}
    (h : ∀ name ∈ fieldNames, f.given.lookup name = some (value name)) :
    ofFields? f = some t ↔ t.SpelledBy value := by
  simp only [fieldNames, List.forall_mem_cons] at h
  obtain ⟨hmarket, htrader, hsize, hprice, hsalt, hreduce, -⟩ := h
  rw [ofFields?_eq_some_iff, get?_eq_some_iff hmarket, get?_eq_some_iff htrader,
    get?_eq_some_iff hsize, get?_eq_some_iff hprice, get?_eq_some_iff hsalt,
    get?_eq_some_iff hreduce]
  rfl

end OrderTerms

instance : JsonGrammar LimitOrder where
  Spells j o := ∃ value, Gives (OrderTerms.fieldNames ++ ["post_only"]) value j ∧
    o.SpelledBy value ∧ Spells (value "post_only") o.postOnly
  decode?_eq_some_iff {j o} := by
    refine fields?_bind_eq_some_iff (by decide) (fun f h => ?_) fun f value hvalue => ?_
    · simp only [Option.bind_eq_bind, Option.bind_eq_some_iff] at h
      obtain ⟨t, ht, postOnly, hpost, -⟩ := h
      rw [List.forall_mem_append, List.forall_mem_singleton]
      exact ⟨OrderTerms.isSome_lookup ht, isSome_lookup_of_get? hpost⟩
    · rw [List.forall_mem_append, List.forall_mem_singleton] at hvalue
      rw [← OrderTerms.spelledBy_iff hvalue.1, ← get?_eq_some_iff hvalue.2]
      simp only [Option.bind_eq_bind, Option.bind_eq_some_iff, Option.pure_def, Option.some.injEq]
      constructor
      · rintro ⟨t, ht, postOnly, hpost, rfl⟩
        exact ⟨ht, hpost⟩
      · rintro ⟨ht, hpost⟩
        exact ⟨_, ht, _, hpost, rfl⟩

instance : JsonGrammar IocOrder where
  Spells j o := ∃ value, Gives ("expire_at" :: OrderTerms.fieldNames) value j ∧
    o.SpelledBy value ∧ Spells (value "expire_at") o.expireAt
  decode?_eq_some_iff {j o} := by
    refine fields?_bind_eq_some_iff (by decide) (fun f h => ?_) fun f value hvalue => ?_
    · simp only [Option.bind_eq_bind, Option.bind_eq_some_iff] at h
      obtain ⟨t, ht, expireAt, hexpire, -⟩ := h
      rw [List.forall_mem_cons]
      exact ⟨isSome_lookup_of_get? hexpire, OrderTerms.isSome_lookup ht⟩
    · rw [List.forall_mem_cons] at hvalue
      rw [← OrderTerms.spelledBy_iff hvalue.2, ← get?_eq_some_iff hvalue.1]
      simp only [Option.bind_eq_bind, Option.bind_eq_some_iff, Option.pure_def, Option.some.injEq]
      constructor
      · rintro ⟨t, ht, expireAt, hexpire, rfl⟩
        exact ⟨ht, hexpire⟩
      · rintro ⟨ht, hexpire⟩
        exact ⟨_, ht, _, hexpire, rfl⟩

instance : JsonGrammar SignedOrder where
  Spells j o := ∃ value, Gives ("expire_at" :: OrderTerms.fieldNames ++ ["post_only"]) value j ∧
    o.SpelledBy value ∧ Spells (value "expire_at") o.expireAt ∧
      Spells (value "post_only") o.postOnly
  decode?_eq_some_iff {j o} := by
    refine fields?_bind_eq_some_iff (by decide) (fun f h => ?_) fun f value hvalue => ?_
    · simp only [Option.bind_eq_bind, Option.bind_eq_some_iff] at h
      obtain ⟨t, ht, expireAt, hexpire, postOnly, hpost, -⟩ := h
      rw [List.forall_mem_append, List.forall_mem_cons, List.forall_mem_singleton]
      exact ⟨⟨isSome_lookup_of_get? hexpire, OrderTerms.isSome_lookup ht⟩,
        isSome_lookup_of_get? hpost⟩
    · rw [List.forall_mem_append, List.forall_mem_cons, List.forall_mem_singleton] at hvalue
      obtain ⟨⟨hexpire, hterms⟩, hpost⟩ := hvalue
      rw [← OrderTerms.spelledBy_iff hterms, ← get?_eq_some_iff hexpire, ← get?_eq_some_iff hpost]
      simp only [Option.bind_eq_bind, Option.bind_eq_some_iff, Option.pure_def, Option.some.injEq]
      constructor
      · rintro ⟨t, ht, expireAt, hexpire, postOnly, hpost, rfl⟩
        exact ⟨ht, hexpire, hpost⟩
      · rintro ⟨ht, hexpire, hpost⟩
        exact ⟨_, ht, _, hexpire, _, hpost, rfl⟩

instance : JsonGrammar RawOrder where
  Spells j
    | .limit o => ∃ p, IsVariant "limit" p j ∧ Spells p o
    | .ioc o => ∃ p, IsVariant "ioc" p j ∧ Spells p o
    | .signed o => ∃ p, IsVariant "signed" p j ∧ Spells p o
  decode?_eq_some_iff {j r} := by
    simp only [JsonCodec.decode?, ← payload?_eq_some_iff]
    constructor
    · intro h
      split at h
      next p hp =>
        obtain ⟨o, ho, rfl⟩ := Option.map_eq_some_iff.mp h
        exact ⟨p, hp, decode?_eq_some_iff.mp ho⟩
      next p hp =>
        obtain ⟨o, ho, rfl⟩ := Option.map_eq_some_iff.mp h
        exact ⟨p, hp, decode?_eq_some_iff.mp ho⟩
      next p hp =>
        obtain ⟨o, ho, rfl⟩ := Option.map_eq_some_iff.mp h
        exact ⟨p, hp, decode?_eq_some_iff.mp ho⟩
      next => cases h
    · intro h
      cases r <;> obtain ⟨p, hp, ho⟩ := h <;> simp [hp, decodeAs, decode?_eq_some_iff.mpr ho]

namespace RawOrder

/-- A payload that is a text is read as the text is. -/
@[simp]
theorem ofBytes?_utf8 (s : String) : ofBytes? (utf8 s.toList) = ofText? s := by
  simp [ofBytes?, ofText?, readBytes?]

theorem ofText?_toText (r : RawOrder) : ofText? r.toText = some r := by
  rw [ofText?, toText, (LawfulCodec.plain r).read?_write, Option.bind_some, decodeAs_encode]

theorem ofBytes?_toBytes (r : RawOrder) : ofBytes? r.toBytes = some r := by
  rw [toBytes, ofBytes?_utf8, ofText?_toText]

theorem ofBytes?_eq_some_iff {bytes : List UInt8} {r : RawOrder} :
    ofBytes? bytes = some r ↔ ∃ j, readBytes? bytes = some j ∧ Spells j r := by
  rw [ofBytes?, Option.bind_eq_some_iff]
  simp only [decodeAs, decode?_eq_some_iff]

end RawOrder

/-- Orders and batches are read back as they were written. A payload is read as the order it spells,
and however it does so, the payload that is written for the order is read as the same. -/
theorem wire_round_trip :
    (∀ r : RawOrder, RawOrder.ofBytes? r.toBytes = some r) ∧
      (∀ b : ChainBatch, (read? (write (encode b))).bind (decodeAs ChainBatch) = some b) ∧
      (∀ bytes r, RawOrder.ofBytes? bytes = some r ↔ ∃ j, readBytes? bytes = some j ∧ Spells j r) ∧
      ∀ bytes r, RawOrder.ofBytes? bytes = some r →
        RawOrder.ofBytes? r.toBytes = RawOrder.ofBytes? bytes := by
  refine ⟨RawOrder.ofBytes?_toBytes, fun b => ?_, fun bytes r => RawOrder.ofBytes?_eq_some_iff,
    fun bytes r h => ?_⟩
  · rw [(LawfulCodec.plain b).read?_write, Option.bind_some, decodeAs_encode]
  · rw [RawOrder.ofBytes?_toBytes, h]

/-- The same order, with its fields in order and by name. -/
theorem wire_round_trip_loosely :
    let order : RawOrder := .limit
      { market := 7, trader := ⟨List.replicate 20 0xab, rfl⟩, size := 7, price := 0, salt := 12
        reduceOnly := true, postOnly := false }
    let inOrder := utf8 (write (ofVariant "limit" (.array [ofNat 7,
      ofString "ABABABABABABABABABABABABABABABABABABABAB", ofString "+007", ofString "-0",
      ofString "0012", .bool true, .bool false]))).toList
    let byName := utf8 (write (ofVariant "limit" (ofFields [("post_only", .bool false),
      ("note", .array [.null]), ("salt", ofString "12"), ("price", ofString "+0"),
      ("base_asset_quantity", ofString "07"), ("market", ofNat 7), ("reduce_only", .bool true),
      ("trader", ofString "0xabababababababababababababababababababab")]))).toList
    RawOrder.ofBytes? inOrder = some order ∧ RawOrder.ofBytes? byName = some order ∧
      RawOrder.ofBytes? order.toBytes = RawOrder.ofBytes? inOrder ∧
      RawOrder.ofBytes? order.toBytes = RawOrder.ofBytes? byName := by
  intro order inOrder byName
  have hinOrder : RawOrder.ofBytes? inOrder = some order := by
    rw [RawOrder.ofBytes?_utf8, RawOrder.ofText?, Plain.read?_write, Option.bind_some]
    · decide +kernel
    · exact plain_ofVariant (.array (by simp [Plain.number, Plain.string, Plain.bool]))
  have hbyName : RawOrder.ofBytes? byName = some order := by
    rw [RawOrder.ofBytes?_utf8, RawOrder.ofText?, Plain.read?_write, Option.bind_some]
    · decide +kernel
    · exact plain_ofVariant (plain_ofFields (by
        simp [Plain.number, Plain.string, Plain.bool, Plain.array, Plain.null]))
  exact ⟨hinOrder, hbyName, wire_round_trip.2.2.2 _ _ hinOrder, wire_round_trip.2.2.2 _ _ hbyName⟩

end PerpExchange
