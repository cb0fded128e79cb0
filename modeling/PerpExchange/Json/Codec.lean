import Std.Data.ExtTreeMap
import PerpExchange.Amount
import PerpExchange.Bytes.Basic
import PerpExchange.Json.Basic

/-!
How values are written as JSON and read back. A record is written as an object with its fields in
order; it is read from an object, in which unknown members are skipped and no field may come twice,
or from an array of its fields in order, which may stop early where the rest has defaults. A
variant is written as an object with one member, named for it, or as its name when it carries
nothing.
-/

namespace PerpExchange

/-- Types with a JSON form. -/
class JsonCodec (α : Type) where
  encode : α → Json
  decode? : Json → Option α

export JsonCodec (encode)

/-- Types that name the members of an object. A name is read from its spelling. -/
class JsonKey (κ : Type) where
  name : κ → String
  ofSpelling? : String → Option κ

namespace Json

def decodeAs (α : Type) [JsonCodec α] (j : Json) : Option α := JsonCodec.decode? j

/-- The fields a record was given, by name. -/
structure Fields where
  given : List (String × Json)

/-- The members of an object, with their names as text. -/
def namedMembers (members : List (String × Json)) : Option (List (String × Json)) :=
  members.mapM fun (name, value) => (unescape? name).map fun text => (text, value)

/-- The fields of a record whose field names are listed in order. -/
def fields? (names : List String) : Json → Option Fields
  | .object members => do
    let known := (← namedMembers members).filter fun (name, _) => name ∈ names
    if (known.map Prod.fst).Nodup then some ⟨known⟩ else none
  | .array items => if items.length ≤ names.length then some ⟨names.zip items⟩ else none
  | _ => none

namespace Fields

/-- A field that has to be there. -/
def get? (f : Fields) (name : String) {α : Type} [JsonCodec α] : Option α :=
  (f.given.lookup name).bind JsonCodec.decode?

/-- A field with a default for when it is missing. -/
def getD? (f : Fields) (name : String) {α : Type} [JsonCodec α] (default : α) : Option α :=
  match f.given.lookup name with
  | some j => JsonCodec.decode? j
  | none => some default

end Fields

/-- A variant as its name and what it carries, if anything. -/
def variant? : Json → Option (String × Json)
  | .string spelling => (unescape? spelling).map fun name => (name, .null)
  | .object [(name, value)] => (unescape? name).map fun name => (name, value)
  | _ => none

/-- A variant that carries something. -/
def payload? : Json → Option (String × Json)
  | .object [(name, value)] => (unescape? name).map fun name => (name, value)
  | _ => none

/-- A variant that carries nothing: one of the listed values, by its name. -/
def choice? {α : Type} (name : α → String) (values : List α) (j : Json) : Option α :=
  match variant? j with
  | some (given, .null) => values.find? fun v => name v = given
  | _ => none

def ofVariant (name : String) (payload : Json) : Json := ofFields [(name, payload)]

end Json

open Json

instance : JsonCodec Bool where
  encode := .bool
  decode?
    | .bool b => some b
    | _ => none

instance : JsonCodec String where
  encode := ofString
  decode? := string?

instance : JsonCodec Amount where
  encode a := ofString a.toText
  decode? j := (string? j).bind Amount.ofText?

instance (n : Nat) : JsonCodec (Bytes n) where
  encode b := ofString b.toText
  decode? j := (string? j).bind fun s => (Bytes.parse n s).toOption

instance : JsonCodec UInt64 where
  encode w := ofNat w.toNat
  decode? j := (nat? j).bind fun m => if m < UInt64.size then some (UInt64.ofNat m) else none

instance : JsonCodec UInt32 where
  encode w := ofNat w.toNat
  decode? j := (nat? j).bind fun m => if m < UInt32.size then some (UInt32.ofNat m) else none

instance {α : Type} [JsonCodec α] : JsonCodec (Option α) where
  encode
    | some a => encode a
    | none => .null
  decode?
    | .null => some none
    | j => (JsonCodec.decode? j).map some

instance {α : Type} [JsonCodec α] : JsonCodec (List α) where
  encode as := .array (as.map encode)
  decode?
    | .array items => items.mapM JsonCodec.decode?
    | _ => none

/-- The number a spelling in digits denotes, none of them a leading zero. -/
def Json.canonicalNat? (spelling : String) : Option Nat :=
  (Decimal.value? spelling.toList).bind fun m => if Decimal.text m = spelling then some m else none

instance : JsonKey UInt64 where
  name w := Decimal.text w.toNat
  ofSpelling? s := (canonicalNat? s).bind fun m =>
    if m < UInt64.size then some (UInt64.ofNat m) else none

instance : JsonKey UInt32 where
  name w := Decimal.text w.toNat
  ofSpelling? s := (canonicalNat? s).bind fun m =>
    if m < UInt32.size then some (UInt32.ofNat m) else none

instance (n : Nat) : JsonKey (Bytes n) where
  name b := b.toText
  ofSpelling? s := (unescape? s).bind fun s => (Bytes.parse n s).toOption

/-- A map ordered by its keys; maps with the same entries are equal. -/
abbrev Map (κ ν : Type) [Ord κ] : Type := Std.ExtTreeMap κ ν

namespace Json

variable {κ : Type} [Ord κ] [Std.TransCmp (compare : κ → κ → Ordering)] [JsonKey κ]

/-- A map as an object, in the order of its keys. -/
def ofMap {ν : Type} (value : ν → Json) (m : Map κ ν) : Json :=
  ofFields (m.toList.map fun (k, v) => (JsonKey.name k, value v))

/-- The entries of an object; of two with one key the later counts. -/
def map? {ν : Type} (value? : Json → Option ν) : Json → Option (Map κ ν)
  | .object members =>
    members.foldlM (fun m (name, value) => do
      return m.insert (← JsonKey.ofSpelling? name) (← value? value)) ∅
  | _ => none

/-- A map to amounts. Only the amounts that count need to be well formed: one that a later entry
with its key replaces may be any text. -/
def amountMap? (j : Json) : Option (Map κ Amount) := do
  let texts : Map κ String ← map? string? j
  texts.toList.foldlM (fun m (k, text) => do return m.insert k (← Amount.ofText? text)) ∅

end Json

/-- Maps to anything but amounts, read entry by entry. -/
instance (priority := low) {κ ν : Type} [Ord κ] [Std.TransCmp (compare : κ → κ → Ordering)]
    [JsonKey κ] [JsonCodec ν] : JsonCodec (Map κ ν) where
  encode := ofMap encode
  decode? := map? JsonCodec.decode?

instance {κ : Type} [Ord κ] [Std.TransCmp (compare : κ → κ → Ordering)] [JsonKey κ] :
    JsonCodec (Map κ Amount) where
  encode := ofMap encode
  decode? := amountMap?

end PerpExchange
