import PerpExchange.Bytes.Uuid
import PerpExchange.Settlement

/-!
Instructions as they are handed over: each with a number of its own, and with its type among its
fields.
-/

namespace PerpExchange

open Json

structure NumberedInstruction where
  number : Uuid
  instruction : Instruction
  deriving DecidableEq

/-- The type that a record tells in a field of its own, and the record without that field. -/
def Json.typed? : Json → Option (String × Json)
  | .object members => do
    match (← namedMembers members).filter fun (name, _) => name = "type" with
    | [(_, .string spelling)] =>
      let rest := members.filter fun (name, _) => unescape? name ≠ some "type"
      return (← unescape? spelling, .object rest)
    | _ => none
  | .array (.string spelling :: rest) => do return (← unescape? spelling, .array rest)
  | _ => none

namespace NumberedInstruction

def numberOf? (f : Fields) : Option Uuid := (f.get? "id").bind Uuid.ofText?

def ofRecord? (type : String) (record : Json) : Option NumberedInstruction :=
  match type with
  | "match_orders" => do
    let f ← fields? ["id", "long_order", "short_order", "fill_amount"] record
    return ⟨← numberOf? f, .matchOrders (← f.get? "long_order") (← f.get? "short_order")
      (← f.get? "fill_amount")⟩
  | "liquidate" => do
    let f ← fields? ["id", "trader", "order", "fill_amount"] record
    return ⟨← numberOf? f, .liquidate (← f.get? "trader") (← f.get? "order")
      (← f.get? "fill_amount")⟩
  | "cancel_orders" => do
    let f ← fields? ["id", "orders"] record
    return ⟨← numberOf? f, .cancelOrders (← f.get? "orders")⟩
  | "settle_funding" => do
    let f ← fields? ["id"] record
    return ⟨← numberOf? f, .settleFunding⟩
  | "sample_premium_index" => do
    let f ← fields? ["id"] record
    return ⟨← numberOf? f, .samplePremium⟩
  | _ => none

end NumberedInstruction

instance : JsonCodec NumberedInstruction where
  encode n := ofFields (("type", ofString n.instruction.name) ::
    ("id", ofString n.number.toText) :: n.instruction.fields)
  decode? j := (typed? j).bind fun (type, record) => NumberedInstruction.ofRecord? type record

end PerpExchange
