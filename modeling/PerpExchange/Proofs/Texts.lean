import PerpExchange.Amount
import PerpExchange.Bytes.Basic

/-! Numbers, amounts and byte strings are read back from the texts they are written as. -/
namespace PerpExchange

/-- A text is read back from its bytes. -/
@[simp]
theorem ofUtf8?_utf8 (cs : List Char) : ofUtf8? (utf8 cs) = some (String.ofList cs) := by
  have hvalid : (utf8 cs).toByteArray.IsValidUTF8 := ⟨cs, rfl⟩
  rw [ofUtf8?, String.fromUTF8?, dif_pos hvalid]
  rfl

namespace Decimal

theorem digits_ne_nil (n : Nat) : digits n ≠ [] := Nat.toDigits_ne_nil

theorem isDigit_of_mem_digits {n : Nat} {c : Char} (h : c ∈ digits n) : c.isDigit = true :=
  Nat.isDigit_of_mem_toDigits (by decide) (by decide) h

@[simp]
theorem toList_text (n : Nat) : (text n).toList = digits n := String.toList_ofList

/-- The digits of a positive number have no leading zero. -/
theorem head?_digits_ne_zero {n : Nat} (hn : 0 < n) : (digits n).head? ≠ some '0' := by
  induction n using Nat.strongRecOn with
  | ind n ih =>
    by_cases hlt : n < 10
    · have hall : ∀ m : Fin 10, 0 < m.val → (digits m.val).head? ≠ some '0' := by decide
      exact hall ⟨n, hlt⟩ hn
    · have happend : digits n = digits (n / 10) ++ [(n % 10).digitChar] :=
        Nat.toDigits_of_base_le (by decide) (by omega)
      have htail := ih (n / 10) (by omega) (by omega)
      rw [happend, List.head?_append]
      obtain ⟨c, cs, hcs⟩ := List.exists_cons_of_ne_nil (digits_ne_nil (n / 10))
      rw [hcs] at htail ⊢
      exact htail

end Decimal

namespace Amount

theorem integer?_digits (n : Nat) : integer? (Decimal.digits n) = some (n : Int) := by
  have hdigit : ∀ c ∈ Decimal.digits n, c.isDigit = true := fun _ => Decimal.isDigit_of_mem_digits
  unfold integer?
  split
  next heq => exact absurd (hdigit '-' (by simp [heq])) (by decide)
  next heq => exact absurd (hdigit '+' (by simp [heq])) (by decide)
  next =>
    rw [Decimal.value?_digits]
    rfl

theorem integer?_minus_digits (n : Nat) :
    integer? ('-' :: Decimal.digits n) = some (-(n : Int)) := by
  simp [integer?, Decimal.value?_digits]

@[simp]
theorem ofText?_toText (a : Amount) : ofText? a.toText = some a := by
  unfold toText ofText?
  split
  next hneg =>
    have hlt : a.toInt < 0 := hneg
    have habs : -(a.toInt.natAbs : Int) = a.toInt := by omega
    rw [String.toList_ofList, integer?_minus_digits, habs, Option.bind_some, ofInt?_toInt]
  next hneg =>
    have hle : ¬a.toInt < 0 := hneg
    have habs : (a.toInt.natAbs : Int) = a.toInt := by omega
    rw [Decimal.toList_text, integer?_digits, habs, Option.bind_some, ofInt?_toInt]

end Amount

namespace Hex

/-- A hexadecimal digit is one byte, and that byte has its value. -/
theorem utf8EncodeChar_digitChar {n : Nat} (h : n < 16) :
    ∃ b, String.utf8EncodeChar (Nat.digitChar n) = [b] ∧ digit? b = some (UInt8.ofNat n) := by
  have hall : ∀ m : Fin 16,
      String.utf8EncodeChar (Nat.digitChar m.val) = [UInt8.ofNat m.val.digitChar.toNat] ∧
        digit? (UInt8.ofNat m.val.digitChar.toNat) = some (UInt8.ofNat m.val) := by decide
  exact ⟨_, hall ⟨n, h⟩⟩

theorem utf8_ofByte (b : UInt8) :
    ∃ high low, utf8 (ofByte b) = [high, low] ∧ digit? high = some (UInt8.ofNat (b.toNat / 16)) ∧
      digit? low = some (UInt8.ofNat (b.toNat % 16)) := by
  have hb : b.toNat < 256 := b.toNat_lt
  obtain ⟨high, hhigh, hhigh'⟩ := utf8EncodeChar_digitChar (n := b.toNat / 16) (by omega)
  obtain ⟨low, hlow, hlow'⟩ := utf8EncodeChar_digitChar (n := b.toNat % 16) (by omega)
  refine ⟨high, low, ?_, hhigh', hlow'⟩
  simp [utf8, ofByte, hhigh, hlow]

theorem utf8_encode_cons (b : UInt8) (bs : List UInt8) :
    utf8 (encode (b :: bs)) = utf8 (ofByte b) ++ utf8 (encode bs) := by
  simp [utf8, encode]

theorem length_utf8_encode (bs : List UInt8) : (utf8 (encode bs)).length = 2 * bs.length := by
  induction bs with
  | nil => rfl
  | cons b bs ih =>
    obtain ⟨high, low, hpair, -, -⟩ := utf8_ofByte b
    rw [utf8_encode_cons, hpair, List.length_append, ih, List.length_cons]
    simp only [List.length_cons, List.length_nil]
    omega

theorem decodePairs_encode (bs : List UInt8) (index : Nat) :
    decodePairs index (utf8 (encode bs)) = .ok bs := by
  induction bs generalizing index with
  | nil => rfl
  | cons b bs ih =>
    obtain ⟨high, low, hpair, hhigh, hlow⟩ := utf8_ofByte b
    have hb : 16 * UInt8.ofNat (b.toNat / 16) + UInt8.ofNat (b.toNat % 16) = b := by
      have hlt : b.toNat < 256 := b.toNat_lt
      apply UInt8.toNat_inj.1
      simp only [UInt8.toNat_add, UInt8.toNat_mul, UInt8.toNat_ofNat', UInt8.reduceToNat]
      omega
    rw [utf8_encode_cons, hpair]
    simp only [List.cons_append, List.nil_append, decodePairs, digit, hhigh, hlow, ih]
    simp only [bind, Except.bind, pure, Except.pure, hb]

@[simp]
theorem read_write (bs : List UInt8) : read (write bs) = .ok bs := by
  have heven : ¬(utf8 (encode bs)).length % 2 = 1 := by
    rw [length_utf8_encode]
    omega
  rw [read, write, String.toList_ofList, body, decode, if_neg heven, decodePairs_encode]

end Hex

@[simp]
theorem Bytes.parse_toText {n : Nat} (b : Bytes n) : parse n b.toText = .ok b := by
  have hexact : ofExact? n b.toList = some b := dif_pos b.length_eq
  simp only [parse, toText, Hex.read_write, hexact]

end PerpExchange
