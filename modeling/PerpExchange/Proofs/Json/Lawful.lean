import PerpExchange.Json.Codec
import PerpExchange.Proofs.Json.Reading
import PerpExchange.Proofs.Map

/-! Values are read back from the documents they are written as, type by type. -/
namespace PerpExchange

open Json

/-- Types whose values are written plainly and read back. -/
class LawfulCodec (α : Type) [JsonCodec α] : Prop where
  decode_encode (a : α) : JsonCodec.decode? (encode a) = some a
  plain (a : α) : Plain (encode a)

/-- Types whose values are read back from the names they give. -/
class LawfulKey (κ : Type) [JsonKey κ] : Prop where
  ofSpelling?_name (k : κ) : JsonKey.ofSpelling? (escape (JsonKey.name k)) = some k

attribute [simp] LawfulCodec.decode_encode LawfulCodec.plain LawfulKey.ofSpelling?_name

namespace Json

@[simp]
theorem decodeAs_encode {α : Type} [JsonCodec α] [LawfulCodec α] (a : α) :
    decodeAs α (encode a) = some a := LawfulCodec.decode_encode a

theorem namedMembers_map_escape (fields : List (String × Json)) :
    namedMembers (fields.map fun (name, value) => (escape name, value)) = some fields := by
  unfold namedMembers
  induction fields with
  | nil => rfl
  | cons field fields ih => simp [List.mapM_cons, ih]

/-- A record has the fields it was written with. -/
theorem fields?_ofFields {names : List String} {fields : List (String × Json)}
    (hknown : ∀ f ∈ fields, f.1 ∈ names) (hnodup : (fields.map Prod.fst).Nodup) :
    fields? names (ofFields fields) = some ⟨fields⟩ := by
  have hfilter : (fields.filter fun (name, _) => name ∈ names) = fields :=
    List.filter_eq_self.2 fun f hf => decide_eq_true (hknown f hf)
  simp [fields?, ofFields, namedMembers_map_escape, hfilter, hnodup]

theorem fields?_bind_eq_some {α : Type} {names : List String} {fields : List (String × Json)}
    {build : Fields → Option α} {a : α} (hknown : ∀ f ∈ fields, f.1 ∈ names)
    (hnodup : (fields.map Prod.fst).Nodup) (hbuild : build ⟨fields⟩ = some a) :
    (fields? names (ofFields fields)).bind build = some a := by
  rw [fields?_ofFields hknown hnodup, Option.bind_some, hbuild]

namespace Fields
variable {α : Type} [JsonCodec α] {name other : String} {fields : List (String × Json)} {v : Json}

@[simp]
theorem get?_cons_self [LawfulCodec α] (a : α) :
    get? ⟨(name, encode a) :: fields⟩ name = some a := by
  rw [get?, List.lookup_cons_self, Option.bind_some, LawfulCodec.decode_encode]

@[simp]
theorem get?_cons_of_ne (h : name ≠ other) :
    (get? ⟨(other, v) :: fields⟩ name : Option α) = get? ⟨fields⟩ name := by
  rw [get?, List.lookup_cons, beq_false_of_ne h, get?]

@[simp]
theorem getD?_cons_self [LawfulCodec α] (a default : α) :
    getD? ⟨(name, encode a) :: fields⟩ name default = some a := by
  simp only [getD?, List.lookup_cons_self, LawfulCodec.decode_encode]

@[simp]
theorem getD?_cons_of_ne (h : name ≠ other) (default : α) :
    getD? ⟨(other, v) :: fields⟩ name default = getD? ⟨fields⟩ name default := by
  rw [getD?, List.lookup_cons, beq_false_of_ne h, getD?]

@[simp]
theorem getD?_nil (default : α) : getD? ⟨[]⟩ name default = some default := rfl

end Fields

theorem payload?_ofVariant (name : String) (p : Json) :
    payload? (ofVariant name p) = some (name, p) := by
  simp [payload?, ofVariant, ofFields]

theorem choice?_ofString {α : Type} {name : α → String} {values : List α} {v : α}
    (h : values.find? (fun w => name w = name v) = some v) :
    choice? name values (ofString (name v)) = some v := by
  simp [choice?, variant?, ofString, h]

theorem plain_ofFields {fields : List (String × Json)} (h : ∀ f ∈ fields, Plain f.2) :
    Plain (ofFields fields) := by
  refine Plain.object (fun m hm => ?_) fun m hm => ?_ <;>
    obtain ⟨f, hf, rfl⟩ := List.mem_map.1 hm
  · exact ⟨f.1, rfl⟩
  · exact h f hf

theorem plain_ofVariant {name : String} {p : Json} (h : Plain p) : Plain (ofVariant name p) :=
  plain_ofFields (by simpa using h)

@[simp]
theorem nat?_ofNat (n : Nat) : nat? (ofNat n) = some n := by
  rw [ofNat, nat?, Decimal.toList_text, Decimal.value?_digits]

theorem escapeChar_of_isDigit {c : Char} (h : c.isDigit = true) : escapeChar c = [c] := by
  have hne : ∀ d : Char, d.isDigit = false → c ≠ d := by
    rintro d hd rfl
    rw [h] at hd
    exact absurd hd (by decide)
  have hspace : ¬c < ' ' := by
    intro hlt
    simp only [Char.isDigit, ge_iff_le, Bool.and_eq_true, decide_eq_true_eq] at h
    have h0 : (48 : UInt32) ≤ c.val := h.1
    have h1 : c.val < (32 : UInt32) := hlt
    have h2 : (48 : UInt32) < 32 := UInt32.lt_of_le_of_lt h0 h1
    exact absurd h2 (by decide)
  simp [escapeChar, shortEscape?, hne, hspace]

@[simp]
theorem escape_text (n : Nat) : escape (Decimal.text n) = Decimal.text n := by
  have hmap : ∀ cs : List Char, (∀ c ∈ cs, c.isDigit = true) → cs.flatMap escapeChar = cs := by
    intro cs hcs
    induction cs with
    | nil => rfl
    | cons c cs ih =>
      rw [List.flatMap_cons, escapeChar_of_isDigit (hcs c List.mem_cons_self),
        ih fun d hd => hcs d (List.mem_cons_of_mem _ hd), List.singleton_append]
  rw [escape, Decimal.toList_text, hmap _ fun _ => Decimal.isDigit_of_mem_digits]
  rfl

@[simp]
theorem canonicalNat?_text (n : Nat) : canonicalNat? (Decimal.text n) = some n := by
  simp [canonicalNat?, Decimal.value?_digits]

section Maps

variable {κ : Type} [Ord κ] [Std.TransCmp (compare : κ → κ → Ordering)]
  [Std.LawfulEqCmp (compare : κ → κ → Ordering)] [JsonKey κ] [LawfulKey κ] {ν : Type}

theorem map?_ofMap {value : ν → Json} {value? : Json → Option ν}
    (h : ∀ v, value? (value v) = some v) (m : Map κ ν) : map? value? (ofMap value m) = some m := by
  simp only [map?, ofMap, ofFields, List.map_map]
  refine Map.foldlM_insert_toList (fun m e => ?_) m
  simp [h]

theorem amountMap?_ofMap (m : Map κ Amount) : amountMap? (ofMap encode m) = some m := by
  have htexts : ofMap encode m = ofMap ofString (m.map fun _ a => a.toText) := by
    simp only [ofMap, Std.ExtTreeMap.toList_map, List.map_map]
    rfl
  have hread : map? string? (ofMap encode m) = some (m.map fun _ a => a.toText) := by
    rw [htexts]
    exact map?_ofMap string?_ofString _
  simp only [amountMap?, hread, Option.bind_eq_bind, Option.bind_some, Std.ExtTreeMap.toList_map]
  refine Map.foldlM_insert_toList (fun m e => ?_) m
  simp

omit [Std.LawfulEqCmp (compare : κ → κ → Ordering)] [LawfulKey κ] in
theorem plain_ofMap {value : ν → Json} (h : ∀ v, Plain (value v)) (m : Map κ ν) :
    Plain (ofMap value m) := by
  apply plain_ofFields
  intro f hf
  obtain ⟨e, -, rfl⟩ := List.mem_map.1 hf
  exact h e.2

end Maps

end Json

instance : LawfulCodec Bool where
  decode_encode _ := rfl
  plain := .bool

instance : LawfulCodec String where
  decode_encode := string?_ofString
  plain := .string

instance : LawfulCodec Amount where
  decode_encode a := by simp [encode, JsonCodec.decode?]
  plain a := .string a.toText

instance (n : Nat) : LawfulCodec (Bytes n) where
  decode_encode b := by simp [encode, JsonCodec.decode?, Except.toOption]
  plain b := .string b.toText

instance : LawfulCodec UInt64 where
  decode_encode w := by simp [encode, JsonCodec.decode?, w.toNat_lt]
  plain w := .number w.toNat

instance : LawfulCodec UInt32 where
  decode_encode w := by simp [encode, JsonCodec.decode?, w.toNat_lt]
  plain w := .number w.toNat

instance {α : Type} [JsonCodec α] [LawfulCodec α] : LawfulCodec (List α) where
  decode_encode as := by
    simp only [encode, JsonCodec.decode?]
    induction as with
    | nil => rfl
    | cons a as ih =>
      have ha : JsonCodec.decode? (JsonCodec.encode a) = some a := LawfulCodec.decode_encode a
      rw [List.map_cons, List.mapM_cons, ha, ih]
      rfl
  plain as := by
    apply Plain.array
    intro j hj
    obtain ⟨a, -, rfl⟩ := List.mem_map.1 hj
    exact LawfulCodec.plain a

instance : LawfulKey UInt64 where
  ofSpelling?_name w := by simp [JsonKey.ofSpelling?, JsonKey.name, w.toNat_lt]

instance : LawfulKey UInt32 where
  ofSpelling?_name w := by simp [JsonKey.ofSpelling?, JsonKey.name, w.toNat_lt]

instance (n : Nat) : LawfulKey (Bytes n) where
  ofSpelling?_name b := by simp [JsonKey.ofSpelling?, JsonKey.name, Except.toOption]

instance (priority := low) {κ ν : Type} [Ord κ] [Std.TransCmp (compare : κ → κ → Ordering)]
    [Std.LawfulEqCmp (compare : κ → κ → Ordering)] [JsonKey κ] [LawfulKey κ] [JsonCodec ν]
    [LawfulCodec ν] : LawfulCodec (Map κ ν) where
  decode_encode := map?_ofMap LawfulCodec.decode_encode
  plain := plain_ofMap LawfulCodec.plain

instance {κ : Type} [Ord κ] [Std.TransCmp (compare : κ → κ → Ordering)]
    [Std.LawfulEqCmp (compare : κ → κ → Ordering)] [JsonKey κ] [LawfulKey κ] :
    LawfulCodec (Map κ Amount) where
  decode_encode := amountMap?_ofMap
  plain := plain_ofMap LawfulCodec.plain

end PerpExchange
