import Mathlib.Algebra.Group.Nat.Defs
import PerpExchange.Order.Raw

/-! What an order is hashed from holds all that the order states. Each part has a width of its own,
and the kind, which comes first, says whether an expiry follows. -/
namespace PerpExchange

namespace Bytes

@[simp]
theorem length_bigEndian (width m : Nat) : (bigEndian width m).length = width := by
  induction width generalizing m with
  | zero => rfl
  | succ width ih => simp [bigEndian, ih]

/-- Numbers that fit a width are told apart by their bytes. -/
theorem bigEndian_inj {width m m' : Nat} (hm : m < 256 ^ width) (hm' : m' < 256 ^ width) :
    bigEndian width m = bigEndian width m' ↔ m = m' := by
  refine ⟨fun h => ?_, congrArg (bigEndian width)⟩
  induction width generalizing m m' with
  | zero =>
    rw [Nat.pow_zero] at hm hm'
    omega
  | succ width ih =>
    rw [Nat.pow_succ] at hm hm'
    obtain ⟨hfront, hlast⟩ := List.append_inj' h rfl
    have hhigh : m / 256 = m' / 256 := ih (by omega) (by omega) hfront
    have hlow : m % 256 = m' % 256 := by
      simpa using congrArg UInt8.toNat (List.singleton_inj.mp hlast)
    omega

end Bytes

attribute [ext] OrderTerms

theorem OrderKind.tag_inj {k k' : OrderKind} : k.tag = k'.tag ↔ k = k' := by
  cases k <;> cases k' <;> decide

namespace RawOrder

@[simp]
theorem boolByte_inj {b b' : Bool} : boolByte b = boolByte b' ↔ b = b' := by
  cases b <;> cases b' <;> decide

@[simp]
theorem length_amountBytes (a : Amount) : (amountBytes a).length = 16 := by simp [amountBytes]

/-- Amounts are told apart by their bytes: none of them is as far from another as the bytes go. -/
@[simp]
theorem amountBytes_inj {a a' : Amount} : amountBytes a = amountBytes a' ↔ a = a' := by
  have hrange : ∀ i : Int, (i % 340282366920938463463374607431768211456).toNat < 256 ^ 16 := by
    intro i
    simp only [Nat.reducePow]
    omega
  refine ⟨fun h => Amount.ext_toInt ?_, congrArg amountBytes⟩
  have hmod := (Bytes.bigEndian_inj (hrange a.toInt) (hrange a'.toInt)).mp h
  have hlower := a.lower
  have hupper := a.upper
  have hlower' := a'.lower
  have hupper' := a'.upper
  omega

@[simp]
theorem marketBytes_inj {m m' : MarketId} :
    Bytes.bigEndian 4 m.toNat = Bytes.bigEndian 4 m'.toNat ↔ m = m' := by
  rw [Bytes.bigEndian_inj (by simpa using m.toNat_lt) (by simpa using m'.toNat_lt),
    UInt32.toNat_inj]

@[simp]
theorem timeBytes_inj {t t' : Timestamp} :
    Bytes.bigEndian 8 t.toNat = Bytes.bigEndian 8 t'.toNat ↔ t = t' := by
  rw [Bytes.bigEndian_inj (by simpa using t.toNat_lt) (by simpa using t'.toNat_lt),
    UInt64.toNat_inj]

/-- What stands in front of the expiry, which is as long for one order as for another. -/
def statedBytes (r : RawOrder) : List UInt8 :=
  r.kind.tag :: r.terms.trader.toList ++ amountBytes r.terms.salt ++
    Bytes.bigEndian 4 r.terms.market.toNat ++ amountBytes r.terms.size ++
      amountBytes r.terms.price ++ [boolByte r.terms.reduceOnly, boolByte r.isPostOnly]

def expiryBytes (r : RawOrder) : List UInt8 :=
  match r.expireAt? with
  | some time => Bytes.bigEndian 8 time.toNat
  | none => []

theorem length_statedBytes (r : RawOrder) : r.statedBytes.length = 75 := by
  simp [statedBytes, r.terms.trader.length_eq]

/-- The parts are split off from the last to the first. -/
theorem eq_of_statedBytes {r r' : RawOrder} (h : r.statedBytes = r'.statedBytes) :
    r.kind = r'.kind ∧ r.terms = r'.terms ∧ r.isPostOnly = r'.isPostOnly := by
  obtain ⟨h, hflags⟩ := List.append_inj' h rfl
  obtain ⟨h, hprice⟩ := List.append_inj' h (by simp)
  obtain ⟨h, hsize⟩ := List.append_inj' h (by simp)
  obtain ⟨h, hmarket⟩ := List.append_inj' h (by simp)
  obtain ⟨h, hsalt⟩ := List.append_inj' h (by simp)
  obtain ⟨htag, htrader⟩ := List.cons_eq_cons.mp h
  simp only [List.cons.injEq, boolByte_inj, and_true] at hflags
  refine ⟨OrderKind.tag_inj.mp htag, ?_, hflags.2⟩
  apply OrderTerms.ext
  · exact marketBytes_inj.mp hmarket
  · exact Bytes.ext_toList htrader
  · exact amountBytes_inj.mp hsize
  · exact amountBytes_inj.mp hprice
  · exact amountBytes_inj.mp hsalt
  · exact hflags.1

/-- Orders of one kind that are alike in what all kinds state are told apart by the rest. -/
theorem eq_of_stated {r r' : RawOrder} (hkind : r.kind = r'.kind) (hterms : r.terms = r'.terms)
    (hpost : r.isPostOnly = r'.isPostOnly) (hexpiry : r.expiryBytes = r'.expiryBytes) : r = r' := by
  cases r <;> cases r' <;> cases hkind
  case limit.limit o o' =>
    rcases o with ⟨terms, post⟩
    rcases o' with ⟨terms', post'⟩
    cases (hterms : terms = terms')
    cases (hpost : post = post')
    rfl
  case ioc.ioc o o' =>
    rcases o with ⟨terms, time⟩
    rcases o' with ⟨terms', time'⟩
    cases (hterms : terms = terms')
    cases (timeBytes_inj.mp hexpiry : time = time')
    rfl
  case signed.signed o o' =>
    rcases o with ⟨terms, time, post⟩
    rcases o' with ⟨terms', time', post'⟩
    cases (hterms : terms = terms')
    cases (hpost : post = post')
    cases (timeBytes_inj.mp hexpiry : time = time')
    rfl

theorem preimage_injective : Function.Injective preimage := by
  intro r r' h
  have hlength : r.statedBytes.length = r'.statedBytes.length := by
    rw [length_statedBytes, length_statedBytes]
  obtain ⟨hstated, hexpiry⟩ := List.append_inj h hlength
  obtain ⟨hkind, hterms, hpost⟩ := eq_of_statedBytes hstated
  exact eq_of_stated hkind hterms hpost hexpiry

/-- Ids commit to the whole order. Orders that are hashed from the same bytes are the same order, so
the ids of two orders are equal only if the digest is that of two different texts. -/
theorem hash_commits (r r' : RawOrder) :
    (r.preimage = r'.preimage ↔ r = r') ∧
      (r.hash = r'.hash ↔ r = r' ∨
        r.preimage ≠ r'.preimage ∧ Sha256.digest r.preimage = Sha256.digest r'.preimage) := by
  have hpreimage : r.preimage = r'.preimage ↔ r = r' := preimage_injective.eq_iff
  refine ⟨hpreimage, ?_⟩
  by_cases hr : r = r'
  · simp [hr]
  · simp [hpreimage, hr, hash]

end RawOrder
end PerpExchange
