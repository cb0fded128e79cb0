import PerpExchange.Proofs.Texts
import PerpExchange.Json.Basic

/-! Which texts stand for byte strings, and what is wrong with those that do not. -/
namespace PerpExchange

open Json

namespace Hex

/-- A text without the `0x` in front, if there is one. -/
def bare (s : String) : List Char :=
  if ['0', 'x'].isPrefixOf s.toList then s.toList.drop 2 else s.toList

/-- Digits of either case and the bytes they stand for, two digits a byte. -/
inductive Denotes : List Char → List UInt8 → Prop
  | nil : Denotes [] []
  | cons {high low : Char} {h l : Nat} {digits : List Char} {bytes : List UInt8}
    (hhigh : hexDigit? high = some h) (hlow : hexDigit? low = some l)
    (hrest : Denotes digits bytes) :
    Denotes (high :: low :: digits) (UInt8.ofNat (16 * h + l) :: bytes)

/-- A byte that is the character of a digit. -/
def IsDigit (b : UInt8) : Prop := (hexDigit? (Char.ofNat b.toNat)).isSome

theorem body_toList (s : String) : body s.toList = bare s := by
  unfold body bare
  split
  next rest h => rw [h]; rfl
  next cs h =>
    rw [if_neg]
    intro hprefix
    obtain ⟨rest, hrest⟩ := List.isPrefixOf_iff_prefix.mp hprefix
    exact h rest hrest.symm

section Digits
variable {c : Char} {b : UInt8} {x : Nat}

theorem digit?_eq (b : UInt8) :
    digit? b = (hexDigit? (Char.ofNat b.toNat)).map UInt8.ofNat := by
  have hall : ∀ m : Fin 256,
      digit? (UInt8.ofNat m) = (hexDigit? (Char.ofNat m)).map UInt8.ofNat := by decide +kernel
  have hb := hall ⟨b.toNat, b.toNat_lt⟩
  simpa using hb

theorem toNat_lt_of_hexDigit? (h : hexDigit? c = some x) : c.toNat < 128 := by
  have hle : c ≤ 'f' := by
    unfold hexDigit? at h
    split at h
    next hc => exact Char.le_trans hc.2 (by decide)
    next =>
      split at h
      next hc => exact hc.2
      next =>
        split at h
        next hc => exact Char.le_trans hc.2 (by decide)
        next => cases h
  have hnat : c.toNat ≤ 102 := UInt32.le_iff_toNat_le.mp hle
  omega

/-- The value of a digit is below sixteen, and the digit of that value is written in the lower
case. -/
theorem digitChar_of_hexDigit? (h : hexDigit? c = some x) :
    x < 16 ∧ Nat.digitChar x = c.toLower := by
  have hall : ∀ m : Fin 128, ∀ x ∈ hexDigit? (Char.ofNat m),
      x < 16 ∧ Nat.digitChar x = (Char.ofNat m).toLower := by decide +kernel
  have hc := hall ⟨c.toNat, toNat_lt_of_hexDigit? h⟩ x (by simpa using h)
  simpa using hc

theorem utf8EncodeChar_of_lt (h : c.toNat < 128) :
    String.utf8EncodeChar c = [UInt8.ofNat c.toNat] := if_pos (Nat.le_of_lt_succ h)

/-- A character that takes several bytes begins with one that is no character by itself. -/
theorem utf8EncodeChar_of_le (h : 128 ≤ c.toNat) :
    ∃ first rest, String.utf8EncodeChar c = first :: rest ∧ 128 ≤ first.toNat := by
  have hne : ¬c.val.toNat ≤ 0x7f := Nat.not_le.mpr h
  simp only [String.utf8EncodeChar, if_neg hne]
  split
  · exact ⟨_, _, rfl, by simp; omega⟩
  · split
    · exact ⟨_, _, rfl, by simp; omega⟩
    · exact ⟨_, _, rfl, by simp; omega⟩

theorem toNat_ofNat_toNat (b : UInt8) : (Char.ofNat b.toNat).toNat = b.toNat := by
  have hb : b.toNat < 256 := b.toNat_lt
  have hvalid : b.toNat.isValidChar := .inl (by omega)
  rw [Char.ofNat, dif_pos hvalid]
  rfl

theorem IsDigit.toNat_lt (h : IsDigit b) : b.toNat < 128 := by
  obtain ⟨x, hx⟩ := Option.isSome_iff_exists.mp h
  have hlt := toNat_lt_of_hexDigit? hx
  rwa [toNat_ofNat_toNat] at hlt

/-- A character is a digit exactly when all of its bytes are. -/
theorem forall_isDigit_utf8EncodeChar :
    (∀ b ∈ String.utf8EncodeChar c, IsDigit b) ↔ (hexDigit? c).isSome := by
  by_cases hc : c.toNat < 128
  · have hback : (UInt8.ofNat c.toNat).toNat = c.toNat := by simp; omega
    simp [utf8EncodeChar_of_lt hc, IsDigit, hback]
  · obtain ⟨first, rest, hencode, hfirst⟩ := utf8EncodeChar_of_le (Nat.not_lt.mp hc)
    constructor
    · intro h
      have hlt := (h first (by simp [hencode])).toNat_lt
      omega
    · intro h
      obtain ⟨x, hx⟩ := Option.isSome_iff_exists.mp h
      exact absurd (toNat_lt_of_hexDigit? hx) hc

theorem forall_isDigit_utf8 {cs : List Char} :
    (∀ b ∈ utf8 cs, IsDigit b) ↔ ∀ c ∈ cs, (hexDigit? c).isSome := by
  simp only [← forall_isDigit_utf8EncodeChar, utf8, List.mem_flatMap]
  constructor
  · intro h c hc b hb
    exact h b ⟨c, hc, hb⟩
  · rintro h b ⟨c, hc, hb⟩
    exact h c hc b hb

/-- A digit is one byte, and that byte has its value. -/
theorem utf8EncodeChar_of_hexDigit? (h : hexDigit? c = some x) :
    ∃ b, String.utf8EncodeChar c = [b] ∧ digit? b = some (UInt8.ofNat x) := by
  have hlt := toNat_lt_of_hexDigit? h
  have hback : (UInt8.ofNat c.toNat).toNat = c.toNat := by simp; omega
  refine ⟨_, utf8EncodeChar_of_lt hlt, ?_⟩
  rw [digit?_eq, hback, Char.ofNat_toNat, h, Option.map_some]

/-- Digits take one byte each. -/
theorem length_utf8_of_isSome {cs : List Char} (h : ∀ c ∈ cs, (hexDigit? c).isSome) :
    (utf8 cs).length = cs.length := by
  induction cs with
  | nil => rfl
  | cons c cs ih =>
    obtain ⟨x, hx⟩ := Option.isSome_iff_exists.mp (h c (by simp))
    obtain ⟨b, hb, -⟩ := utf8EncodeChar_of_hexDigit? hx
    have hutf8 : utf8 (c :: cs) = b :: utf8 cs := by simp [utf8, hb]
    rw [hutf8, List.length_cons, List.length_cons, ih fun d hd => h d (by simp [hd])]

theorem digit_of_isDigit (h : IsDigit b) (index : Nat) : ∃ d, digit b index = .ok d := by
  obtain ⟨x, hx⟩ := Option.isSome_iff_exists.mp h
  exact ⟨UInt8.ofNat x, by simp [digit, digit?_eq, hx]⟩

theorem digit_of_not_isDigit (h : ¬IsDigit b) (index : Nat) :
    digit b index = .error (.badDigit b index) := by
  have hnone : hexDigit? (Char.ofNat b.toNat) = none := by simpa [IsDigit] using h
  simp [digit, digit?_eq, hnone]

end Digits

namespace Denotes
variable {digits : List Char} {bytes : List UInt8}

theorem isSome_hexDigit? (h : Denotes digits bytes) : ∀ c ∈ digits, (hexDigit? c).isSome := by
  induction h with
  | nil => simp
  | cons hhigh hlow _ ih => simpa [hhigh, hlow] using ih

theorem length_eq (h : Denotes digits bytes) : digits.length = 2 * bytes.length := by
  induction h with
  | nil => rfl
  | cons _ _ _ ih => simp only [List.length_cons, ih]; omega

theorem exists_bytes : ∀ {digits : List Char}, (∀ c ∈ digits, (hexDigit? c).isSome) →
    digits.length % 2 = 0 → ∃ bytes, Denotes digits bytes
  | [], _, _ => ⟨[], nil⟩
  | [_], _, heven => by simp at heven
  | high :: low :: digits, h, heven => by
    obtain ⟨x, hx⟩ := Option.isSome_iff_exists.mp (h high (by simp))
    obtain ⟨y, hy⟩ := Option.isSome_iff_exists.mp (h low (by simp))
    have hrest : ∀ c ∈ digits, (hexDigit? c).isSome := fun c hc => h c (by simp [hc])
    simp only [List.length_cons] at heven
    obtain ⟨bytes, hbytes⟩ := exists_bytes hrest (by omega)
    exact ⟨_, cons hx hy hbytes⟩

/-- The bytes are written with the same digits in the lower case. -/
theorem encode_eq (h : Denotes digits bytes) : encode bytes = digits.map Char.toLower := by
  induction h with
  | nil => rfl
  | @cons high low x y digits bytes hhigh hlow _ ih =>
    obtain ⟨hx, hxchar⟩ := digitChar_of_hexDigit? hhigh
    obtain ⟨hy, hychar⟩ := digitChar_of_hexDigit? hlow
    have hhalves : (16 * x + y) / 16 = x ∧ (16 * x + y) % 16 = y := by omega
    have hbyte : ofByte (UInt8.ofNat (16 * x + y)) = [high.toLower, low.toLower] := by
      have hback : (UInt8.ofNat (16 * x + y)).toNat = 16 * x + y := by simp; omega
      rw [ofByte, hback, hhalves.1, hhalves.2, hxchar, hychar]
    have hencode : encode (UInt8.ofNat (16 * x + y) :: bytes) =
        ofByte (UInt8.ofNat (16 * x + y)) ++ encode bytes := List.flatMap_cons
    rw [hencode, hbyte, ih]
    rfl

theorem decodePairs_eq (h : Denotes digits bytes) (index : Nat) :
    decodePairs index (utf8 digits) = .ok bytes := by
  induction h generalizing index with
  | nil => rfl
  | @cons high low x y digits bytes hhigh hlow _ ih =>
    obtain ⟨b, hb, hbx⟩ := utf8EncodeChar_of_hexDigit? hhigh
    obtain ⟨b', hb', hby⟩ := utf8EncodeChar_of_hexDigit? hlow
    have hutf8 : utf8 (high :: low :: digits) = b :: b' :: utf8 digits := by
      simp [utf8, hb, hb']
    simp only [hutf8, decodePairs, digit, hbx, hby, ih]
    simp [bind, Except.bind, pure, Except.pure]

theorem length_utf8 (h : Denotes digits bytes) : (utf8 digits).length = 2 * bytes.length := by
  rw [length_utf8_of_isSome h.isSome_hexDigit?, h.length_eq]

end Denotes

/-- The first byte that is no digit is the one complained about. -/
theorem decodePairs_badDigit {b : UInt8} {back : List UInt8} (hb : ¬IsDigit b) :
    ∀ (front : List UInt8) (index : Nat), (∀ x ∈ front, IsDigit x) →
      (front ++ b :: back).length % 2 = 0 →
        decodePairs index (front ++ b :: back) = .error (.badDigit b (index + front.length))
  | [], index, _, heven => by
    cases back with
    | nil => simp at heven
    | cons low rest =>
      simp only [List.nil_append, decodePairs, digit_of_not_isDigit hb]
      rfl
  | [high], index, hfront, _ => by
    obtain ⟨d, hd⟩ := digit_of_isDigit (hfront high (by simp)) index
    simp only [List.cons_append, List.nil_append, decodePairs, hd, digit_of_not_isDigit hb]
    rfl
  | high :: low :: front, index, hfront, heven => by
    obtain ⟨d, hd⟩ := digit_of_isDigit (hfront high (by simp)) index
    obtain ⟨e, he⟩ := digit_of_isDigit (hfront low (by simp)) (index + 1)
    simp only [List.cons_append, List.length_cons] at heven
    have hrest : decodePairs (index + 2) (front ++ b :: back) =
        .error (.badDigit b (index + 2 + front.length)) :=
      decodePairs_badDigit hb front (index + 2) (fun x hx => hfront x (by simp [hx])) (by omega)
    have hlength : index + 2 + front.length = index + (high :: low :: front).length := by
      simp only [List.length_cons]
      omega
    simp only [List.cons_append, decodePairs, hd, he, hrest, hlength]
    rfl

/-- Either all bytes are digits, or there is a first one that is not. -/
theorem forall_isDigit_or (bytes : List UInt8) : (∀ b ∈ bytes, IsDigit b) ∨
    ∃ front b back, bytes = front ++ b :: back ∧ (∀ x ∈ front, IsDigit x) ∧ ¬IsDigit b := by
  induction bytes with
  | nil => simp
  | cons b bytes ih =>
    by_cases hb : IsDigit b
    · rcases ih with hall | ⟨front, c, back, rfl, hfront, hc⟩
      · exact .inl (by simpa [hb] using hall)
      · exact .inr ⟨b :: front, c, back, rfl, by simpa [hb] using hfront, hc⟩
    · exact .inr ⟨[], b, bytes, rfl, by simp, hb⟩

end Hex

namespace Bytes
variable {n : Nat}

open Hex

/-- What a text is parsed to: the bytes its digits stand for if they are as many as asked for, or
else what is wrong with it. An odd count of bytes is wrong before all else, then the first byte that
is no digit, with its place behind the `0x`. -/
inductive ParsesTo (n : Nat) (s : String) : Except ParseError (Bytes n) → Prop
  | bytes {b : Bytes n} (h : Denotes (bare s) b.toList) : ParsesTo n s (.ok b)
  | oddLength (h : (utf8 (bare s)).length % 2 = 1) : ParsesTo n s (.error (.hex .oddLength))
  | badDigit {front back : List UInt8} {b : UInt8} (heven : (utf8 (bare s)).length % 2 = 0)
    (hsplit : utf8 (bare s) = front ++ b :: back) (hfront : ∀ x ∈ front, IsDigit x)
    (hb : ¬IsDigit b) : ParsesTo n s (.error (.hex (.badDigit b front.length)))
  | length {bytes : List UInt8} (h : Denotes (bare s) bytes) (hne : bytes.length ≠ n) :
    ParsesTo n s (.error (.length n bytes.length))

theorem read_of_denotes {s : String} {bytes : List UInt8} (h : Denotes (bare s) bytes) :
    Hex.read s = .ok bytes := by
  have heven : ¬(utf8 (bare s)).length % 2 = 1 := by rw [h.length_utf8]; omega
  rw [Hex.read, body_toList, decode, if_neg heven, h.decodePairs_eq]

theorem ParsesTo.parse_eq {s : String} {r : Except ParseError (Bytes n)} (h : ParsesTo n s r) :
    parse n s = r := by
  cases h with
  | @bytes b h =>
    have hexact : ofExact? n b.toList = some b := dif_pos b.length_eq
    simp only [parse, read_of_denotes h, hexact]
  | oddLength h => simp only [parse, Hex.read, body_toList, decode, if_pos h]
  | @badDigit front back b heven hsplit hfront hb =>
    have hdecode := decodePairs_badDigit hb front 0 hfront (hsplit ▸ heven)
    rw [Nat.zero_add, ← hsplit] at hdecode
    have hodd : ¬(utf8 (bare s)).length % 2 = 1 := by omega
    simp only [parse, Hex.read, body_toList, decode, if_neg hodd, hdecode]
  | length h hne =>
    have hexact : ofExact? n _ = none := dif_neg hne
    simp only [parse, read_of_denotes h, hexact]

theorem exists_parsesTo (n : Nat) (s : String) : ∃ r, ParsesTo n s r := by
  by_cases hodd : (utf8 (bare s)).length % 2 = 1
  · exact ⟨_, .oddLength hodd⟩
  · have heven : (utf8 (bare s)).length % 2 = 0 := by omega
    rcases forall_isDigit_or (utf8 (bare s)) with hall | ⟨front, b, back, hsplit, hfront, hb⟩
    · rw [forall_isDigit_utf8] at hall
      rw [length_utf8_of_isSome hall] at heven
      obtain ⟨bytes, hbytes⟩ := Denotes.exists_bytes hall heven
      by_cases hlength : bytes.length = n
      · have hb : Denotes (bare s) (⟨bytes, hlength⟩ : Bytes n).toList := hbytes
        exact ⟨_, .bytes hb⟩
      · exact ⟨_, .length hbytes hlength⟩
    · exact ⟨_, .badDigit heven hsplit hfront hb⟩

theorem parse_eq_iff {s : String} {r : Except ParseError (Bytes n)} :
    parse n s = r ↔ ParsesTo n s r := by
  constructor
  · rintro rfl
    obtain ⟨r, hr⟩ := exists_parsesTo n s
    rwa [hr.parse_eq]
  · exact ParsesTo.parse_eq

/-- Parsing takes exactly the grammar of byte strings. A text is parsed to the bytes it stands for,
or to what is wrong with it; what has been written is parsed again; and a text that stands for bytes
is written again in lower case behind `0x`. -/
theorem parse_grammar (n : Nat) (s : String) :
    (∀ r, parse n s = r ↔ ParsesTo n s r) ∧
      (∀ b : Bytes n, parse n b.toText = .ok b) ∧
      ∀ b : Bytes n, parse n s = .ok b ↔
        ((bare s).length = 2 * n ∧ ∀ c ∈ bare s, (hexDigit? c).isSome) ∧
          b.toText = String.ofList ('0' :: 'x' :: (bare s).map Char.toLower) := by
  refine ⟨fun r => parse_eq_iff, parse_toText, fun b => ⟨fun h => ?_, fun h => ?_⟩⟩
  · cases parse_eq_iff.mp h with
    | bytes h =>
      refine ⟨⟨?_, h.isSome_hexDigit?⟩, ?_⟩
      · rw [h.length_eq, b.length_eq]
      · rw [toText, Hex.write, h.encode_eq]
  · obtain ⟨⟨hlength, hdigits⟩, htext⟩ := h
    obtain ⟨bytes, hbytes⟩ := Denotes.exists_bytes hdigits (by omega)
    have hwrite : Hex.write bytes = b.toText := by rw [htext, Hex.write, hbytes.encode_eq]
    have hread : Hex.read (Hex.write bytes) = Hex.read (Hex.write b.toList) :=
      congrArg Hex.read hwrite
    rw [Hex.read_write, Hex.read_write, Except.ok.injEq] at hread
    subst hread
    exact parse_eq_iff.mpr (.bytes hbytes)

end Bytes
end PerpExchange
