import Mathlib.Data.List.Induction
import Mathlib.Data.List.Nodup
import PerpExchange.Proofs.HexTexts
import PerpExchange.Proofs.Json.Lawful

/-! Which documents are read as a value. Amounts may have a plus sign and leading zeros, bytes have
digits of either case; a record gives its fields in order, or by name in any order among other
members. -/
namespace PerpExchange

namespace Decimal

/-- A number is spelled with its digits and with any zeros in front. -/
def Spelled (n : Nat) (cs : List Char) : Prop :=
  ∃ zeros, cs = List.replicate zeros '0' ++ digits n

theorem exists_digitChar {c : Char} (h : c.isDigit = true) : ∃ d < 10, c = Nat.digitChar d := by
  obtain ⟨hlow, hhigh⟩ := Char.isDigit_iff_toNat.mp h
  have hlow : 48 ≤ c.toNat := hlow
  have hhigh : c.toNat ≤ 57 := hhigh
  have hd : c.toNat - 48 < 10 := by omega
  refine ⟨c.toNat - 48, hd, Char.toNat_inj.mp ?_⟩
  rw [Nat.toNat_digitChar_of_lt_ten hd]
  omega

theorem digits_of_lt {d : Nat} (hd : d < 10) : digits d = [Nat.digitChar d] :=
  Nat.toDigits_of_lt_base hd

/-- A further digit goes to the end, unless the number was zero. -/
theorem digits_mul_ten_add {n d : Nat} (hn : 0 < n) (hd : d < 10) :
    digits (10 * n + d) = digits n ++ [Nat.digitChar d] := by
  have hlast : (10 * n + d) % 10 = d := by omega
  have hrest : (10 * n + d) / 10 = n := by omega
  rw [digits, Nat.toDigits_of_base_le (by decide) (by omega), hlast, hrest, digits]

theorem Spelled.isDigit {n : Nat} {cs : List Char} (h : Spelled n cs) :
    ∀ c ∈ cs, c.isDigit = true := by
  obtain ⟨zeros, rfl⟩ := h
  intro c hc
  rcases List.mem_append.mp hc with hzero | hdigit
  · rw [List.eq_of_mem_replicate hzero]
    rfl
  · exact isDigit_of_mem_digits hdigit

theorem spelled_of_isDigit {cs : List Char} (hne : cs ≠ [])
    (hdigit : ∀ c ∈ cs, c.isDigit = true) : Spelled (Nat.ofDigitChars 10 cs 0) cs := by
  -- By the last digit: it joins the others, or, if these are all zeros, they stand in front of it.
  induction cs using List.reverseRecOn with
  | nil => exact absurd rfl hne
  | append_singleton cs c ih =>
    obtain ⟨d, hd, rfl⟩ := exists_digitChar (hdigit c (by simp))
    have hvalue : Nat.ofDigitChars 10 (cs ++ [Nat.digitChar d]) 0 =
        10 * Nat.ofDigitChars 10 cs 0 + d := by
      rw [Nat.ofDigitChars_append, Nat.ofDigitChars_cons_digitChar_of_lt_ten hd,
        Nat.ofDigitChars_nil]
    rw [hvalue]
    by_cases hcs : cs = []
    · subst hcs
      exact ⟨0, by simp [digits_of_lt hd]⟩
    · obtain ⟨zeros, hzeros⟩ := ih hcs fun c hc => hdigit c (List.mem_append_left _ hc)
      generalize Nat.ofDigitChars 10 cs 0 = n at hzeros
      rcases Nat.eq_zero_or_pos n with rfl | hn
      · refine ⟨zeros + 1, ?_⟩
        rw [hzeros, Nat.mul_zero, Nat.zero_add, digits_of_lt hd, List.replicate_succ']
        rfl
      · exact ⟨zeros, by rw [digits_mul_ten_add hn hd, ← List.append_assoc, ← hzeros]⟩

theorem value?_eq_some_iff {cs : List Char} {n : Nat} : value? cs = some n ↔ Spelled n cs := by
  rw [value?, Option.ite_none_right_eq_some, Option.some.injEq]
  constructor
  · rintro ⟨⟨hne, hdigit⟩, rfl⟩
    exact spelled_of_isDigit hne (List.all_eq_true.mp hdigit)
  · intro h
    refine ⟨?_, ?_⟩
    · obtain ⟨zeros, rfl⟩ := id h
      exact ⟨by simp [digits_ne_nil], List.all_eq_true.mpr h.isDigit⟩
    · obtain ⟨zeros, rfl⟩ := h
      rw [Nat.ofDigitChars_append, Nat.ofDigitChars_replicate_zero, Nat.mul_zero, digits,
        Nat.ofDigitChars_ten_toDigits]

end Decimal

namespace Amount

/-- An amount is spelled with its magnitude behind a sign; a plus may be left out. Zero may have
either sign. -/
inductive Spelled (a : Amount) : List Char → Prop
  | unsigned {cs : List Char} (h : 0 ≤ a.toInt) (hcs : Decimal.Spelled a.toInt.natAbs cs) :
    Spelled a cs
  | plus {cs : List Char} (h : 0 ≤ a.toInt) (hcs : Decimal.Spelled a.toInt.natAbs cs) :
    Spelled a ('+' :: cs)
  | minus {cs : List Char} (h : a.toInt ≤ 0) (hcs : Decimal.Spelled a.toInt.natAbs cs) :
    Spelled a ('-' :: cs)

variable {a : Amount} {cs : List Char}

theorem map_ofNat_eq_some_iff : (Decimal.value? cs).map Int.ofNat = some a.toInt ↔
    0 ≤ a.toInt ∧ Decimal.Spelled a.toInt.natAbs cs := by
  rw [← Decimal.value?_eq_some_iff, Option.map_eq_some_iff]
  constructor
  · rintro ⟨n, hvalue, hn⟩
    have hn : (n : Int) = a.toInt := hn
    exact ⟨by omega, by rw [hvalue, ← hn, Int.natAbs_natCast]⟩
  · rintro ⟨h, hvalue⟩
    exact ⟨_, hvalue, Int.natAbs_of_nonneg h⟩

theorem map_neg_eq_some_iff : (Decimal.value? cs).map (fun n : Nat => -(n : Int)) = some a.toInt ↔
    a.toInt ≤ 0 ∧ Decimal.Spelled a.toInt.natAbs cs := by
  rw [← Decimal.value?_eq_some_iff, Option.map_eq_some_iff]
  constructor
  · rintro ⟨n, hvalue, hn⟩
    exact ⟨by omega, by rw [hvalue, ← hn, Int.natAbs_neg, Int.natAbs_natCast]⟩
  · rintro ⟨h, hvalue⟩
    exact ⟨_, hvalue, by omega⟩

theorem integer?_minus (ds : List Char) :
    integer? ('-' :: ds) = (Decimal.value? ds).map fun n : Nat => -(n : Int) := by
  cases h : Decimal.value? ds <;> simp [integer?, h]

theorem integer?_eq_some_iff : integer? cs = some a.toInt ↔ a.Spelled cs := by
  constructor
  · intro h
    unfold integer? at h
    split at h
    next ds =>
      have hneg := (integer?_minus ds).symm.trans h
      obtain ⟨hsign, hcs⟩ := map_neg_eq_some_iff.mp hneg
      exact .minus hsign hcs
    · obtain ⟨hsign, hcs⟩ := map_ofNat_eq_some_iff.mp h
      exact .plus hsign hcs
    · obtain ⟨hsign, hcs⟩ := map_ofNat_eq_some_iff.mp h
      exact .unsigned hsign hcs
  · intro h
    cases h with
    | minus hsign hcs =>
      rw [integer?_minus]
      exact map_neg_eq_some_iff.mpr ⟨hsign, hcs⟩
    | plus hsign hcs => exact map_ofNat_eq_some_iff.mpr ⟨hsign, hcs⟩
    | unsigned hsign hcs =>
      unfold integer?
      split
      · exact absurd (hcs.isDigit '-' List.mem_cons_self) (by decide)
      · exact absurd (hcs.isDigit '+' List.mem_cons_self) (by decide)
      · exact map_ofNat_eq_some_iff.mpr ⟨hsign, hcs⟩

theorem ofText?_eq_some_iff {s : String} : ofText? s = some a ↔ a.Spelled s.toList := by
  rw [← integer?_eq_some_iff, ofText?, Option.bind_eq_some_iff]
  constructor
  · rintro ⟨i, hi, hfits⟩
    rw [hi, ofInt?_eq_some_iff.mp hfits]
  · intro h
    exact ⟨_, h, ofInt?_toInt a⟩

example : ofText? "+007" = some 7 := by decide

end Amount

theorem Bytes.toOption_parse_eq_some_iff {n : Nat} {s : String} {b : Bytes n} :
    (parse n s).toOption = some b ↔ Hex.Denotes (Hex.bare s) b.toList := by
  constructor
  · intro h
    cases hparse : parse n s with
    | error => simp [hparse, Except.toOption] at h
    | ok bytes =>
      obtain rfl : bytes = b := by simpa [hparse, Except.toOption] using h
      cases parse_eq_iff.mp hparse with
      | bytes hbytes => exact hbytes
  · intro h
    rw [parse_eq_iff.mpr (.bytes h)]
    rfl

/-- Types of which it is known how their values may be spelled. -/
class JsonGrammar (α : Type) [JsonCodec α] where
  Spells : Json → α → Prop
  decode?_eq_some_iff {j : Json} {a : α} : JsonCodec.decode? j = some a ↔ Spells j a

namespace Json

/-- The fields of a record, in order or by name. -/
inductive Gives (names : List String) (value : String → Json) : Json → Prop
  | array : Gives names value (.array (names.map value))
  | object {members given : List (String × Json)} (hnamed : namedMembers members = some given)
    (hfields : (given.filter fun m => m.1 ∈ names).Perm
      (names.map fun name => (name, value name))) : Gives names value (.object members)

section Records
variable {names : List String} {value : String → Json} {j : Json}

theorem lookup_eq_some_of_mem {fields : List (String × Json)} {name : String} {v : Json}
    (hnodup : (fields.map Prod.fst).Nodup) (h : (name, v) ∈ fields) :
    fields.lookup name = some v := by
  obtain ⟨before, after, rfl⟩ := List.append_of_mem h
  refine List.lookup_eq_some_iff.mpr ⟨before, after, rfl, fun field hfield => ?_⟩
  rw [List.map_append, List.nodup_append] at hnodup
  rw [bne_iff_ne]
  exact (hnodup.2.2 _ (List.mem_map_of_mem hfield) _ (by simp)).symm

theorem map_fst_pairs (names : List String) (value : String → Json) :
    (names.map fun name => (name, value name)).map Prod.fst = names := by
  rw [List.map_map]
  exact List.map_id names

theorem mem_of_lookup {fields : List (String × Json)} {name : String} {v : Json}
    (h : fields.lookup name = some v) : (name, v) ∈ fields := by
  obtain ⟨before, after, rfl, -⟩ := List.lookup_eq_some_iff.mp h
  simp

/-- An array gives the fields in order, none of them missing. -/
theorem zip_lookup_iff (hnodup : names.Nodup) {items : List Json} :
    (items.length ≤ names.length ∧
      ∀ name ∈ names, (names.zip items).lookup name = some (value name)) ↔
      items = names.map value := by
  induction names generalizing items with
  | nil => simp
  | cons name names ih =>
    obtain ⟨hname, hnames⟩ := List.nodup_cons.mp hnodup
    cases items with
    | nil =>
      constructor
      · rintro ⟨-, hlookup⟩
        cases hlookup name List.mem_cons_self
      · intro h
        cases h
    | cons item items =>
      have hother : ∀ other ∈ names,
          ((name :: names).zip (item :: items)).lookup other = (names.zip items).lookup other := by
        intro other hother
        have hne : other ≠ name := fun h => hname (h ▸ hother)
        rw [List.zip_cons_cons, List.lookup_cons, beq_false_of_ne hne]
      rw [List.map_cons, List.cons.injEq, ← ih hnames]
      constructor
      · rintro ⟨hlength, hlookup⟩
        have hitem := hlookup name List.mem_cons_self
        rw [List.zip_cons_cons, List.lookup_cons_self] at hitem
        refine ⟨Option.some.inj hitem, Nat.le_of_succ_le_succ hlength, fun other hmem => ?_⟩
        rw [← hother other hmem, hlookup other (List.mem_cons_of_mem _ hmem)]
      · rintro ⟨rfl, hlength, hlookup⟩
        refine ⟨Nat.succ_le_succ hlength, fun other hmem => ?_⟩
        rcases List.mem_cons.mp hmem with rfl | hmem
        · rw [List.zip_cons_cons, List.lookup_cons_self]
        · rw [hother other hmem, hlookup other hmem]

/-- An object gives the fields in any order. -/
theorem perm_pairs_iff (hnodup : names.Nodup) {fields : List (String × Json)}
    (hknown : ∀ field ∈ fields, field.1 ∈ names) :
    ((fields.map Prod.fst).Nodup ∧ ∀ name ∈ names, fields.lookup name = some (value name)) ↔
      fields.Perm (names.map fun name => (name, value name)) := by
  have hpairs : (names.map fun name => (name, value name)).Nodup := by
    refine List.Nodup.of_map Prod.fst ?_
    rwa [map_fst_pairs]
  constructor
  · rintro ⟨hfields, hlookup⟩
    -- Neither list has an entry twice, so it is enough that they have the same ones.
    refine (List.perm_ext_iff_of_nodup (List.Nodup.of_map _ hfields) hpairs).mpr fun ⟨name, v⟩ => ?_
    rw [List.mem_map]
    constructor
    · intro hmem
      have hname := hknown _ hmem
      have hv := hlookup name hname
      rw [lookup_eq_some_of_mem hfields hmem] at hv
      exact ⟨name, hname, by rw [Option.some.inj hv]⟩
    · rintro ⟨other, hname, hv⟩
      cases hv
      exact mem_of_lookup (hlookup name hname)
  · intro hperm
    have hfields : (fields.map Prod.fst).Nodup := by
      rw [(hperm.map Prod.fst).nodup_iff, map_fst_pairs]
      exact hnodup
    refine ⟨hfields, fun name hname => lookup_eq_some_of_mem hfields ?_⟩
    exact hperm.mem_iff.mpr (List.mem_map_of_mem hname)

theorem gives_iff (hnodup : names.Nodup) :
    Gives names value j ↔
      ∃ f, fields? names j = some f ∧ ∀ name ∈ names, f.given.lookup name = some (value name) := by
  constructor
  · intro h
    cases h with
    | array =>
      obtain ⟨hlength, hlookup⟩ := (zip_lookup_iff hnodup).mpr rfl
      exact ⟨_, if_pos hlength, hlookup⟩
    | object hnamed hfields =>
      obtain ⟨hkeys, hlookup⟩ := (perm_pairs_iff hnodup (by simp)).mpr hfields
      exact ⟨_, by simp [fields?, hnamed, hkeys], hlookup⟩
  · rintro ⟨f, hf, hlookup⟩
    cases j with
    | array items =>
      obtain ⟨hlength, hgiven⟩ := Option.ite_none_right_eq_some.mp hf
      cases hgiven
      rw [(zip_lookup_iff hnodup).mp ⟨hlength, hlookup⟩]
      exact .array
    | object members =>
      obtain ⟨given, hnamed, hgiven⟩ := Option.bind_eq_some_iff.mp hf
      obtain ⟨hkeys, hfields⟩ := Option.ite_none_right_eq_some.mp hgiven
      cases hfields
      exact .object hnamed ((perm_pairs_iff hnodup (by simp)).mp ⟨hkeys, hlookup⟩)
    | null | bool | number | string => cases hf

/-- A record is read as a value if the fields it gives are, one by one. -/
theorem fields?_bind_eq_some_iff {α : Type} {build : Fields → Option α} {a : α}
    {Fits : (String → Json) → Prop} (hnodup : names.Nodup)
    (hgiven : ∀ f, build f = some a → ∀ name ∈ names, (f.given.lookup name).isSome)
    (hbuild : ∀ f value, (∀ name ∈ names, f.given.lookup name = some (value name)) →
      (build f = some a ↔ Fits value)) :
    (fields? names j).bind build = some a ↔ ∃ value, Gives names value j ∧ Fits value := by
  constructor
  · intro h
    obtain ⟨f, hf, hbuilt⟩ := Option.bind_eq_some_iff.mp h
    have hvalue : ∀ name ∈ names, f.given.lookup name =
        some ((f.given.lookup name).getD .null) := by
      intro name hname
      obtain ⟨v, hv⟩ := Option.isSome_iff_exists.mp (hgiven f hbuilt name hname)
      rw [hv, Option.getD_some]
    exact ⟨_, (gives_iff hnodup).mpr ⟨f, hf, hvalue⟩, (hbuild f _ hvalue).mp hbuilt⟩
  · rintro ⟨value, hgives, hfits⟩
    obtain ⟨f, hf, hvalue⟩ := (gives_iff hnodup).mp hgives
    rw [hf, Option.bind_some]
    exact (hbuild f value hvalue).mpr hfits

end Records

/-- A variant that carries something: an object with one member, named for the variant. -/
def IsVariant (name : String) (p j : Json) : Prop :=
  ∃ spelling, j = .object [(spelling, p)] ∧ unescape? spelling = some name

theorem payload?_eq_some_iff {j p : Json} {name : String} :
    payload? j = some (name, p) ↔ IsVariant name p j := by
  constructor
  · intro h
    unfold payload? at h
    split at h
    next spelling value =>
      obtain ⟨text, htext, hpair⟩ := Option.map_eq_some_iff.mp h
      cases hpair
      exact ⟨spelling, rfl, htext⟩
    next => cases h
  · rintro ⟨spelling, rfl, hname⟩
    simp [payload?, hname]

theorem nat?_eq_some_iff {j : Json} {n : Nat} :
    nat? j = some n ↔ ∃ spelling, j = .number spelling ∧ Decimal.Spelled n spelling.toList := by
  cases j <;> simp [nat?, Decimal.value?_eq_some_iff]

/-- A number is read as a word if it fits. -/
theorem word_eq_some_iff {α : Type} {size : Nat} {ofNat : Nat → α} {toNat : α → Nat}
    (hlt : ∀ w, toNat w < size) (hofNat : ∀ w, ofNat (toNat w) = w)
    (htoNat : ∀ m, m < size → toNat (ofNat m) = m) {j : Json} {w : α} :
    ((nat? j).bind fun m => if m < size then some (ofNat m) else none) = some w ↔
      ∃ spelling, j = .number spelling ∧ Decimal.Spelled (toNat w) spelling.toList := by
  rw [← nat?_eq_some_iff, Option.bind_eq_some_iff]
  constructor
  · rintro ⟨m, hm, hw⟩
    obtain ⟨hsize, hw⟩ := Option.ite_none_right_eq_some.mp hw
    rw [hm, ← Option.some.inj hw, htoNat m hsize]
  · intro h
    exact ⟨_, h, by rw [if_pos (hlt w), hofNat]⟩

end Json

open Json

namespace Json.Fields
variable {α : Type} [JsonCodec α] {f : Fields} {name : String} {a : α}

theorem isSome_lookup_of_get? (h : f.get? name = some a) : (f.given.lookup name).isSome := by
  obtain ⟨v, hv, -⟩ := Option.bind_eq_some_iff.mp h
  rw [hv, Option.isSome_some]

theorem get?_eq_some_iff [JsonGrammar α] {v : Json} (hv : f.given.lookup name = some v) :
    f.get? name = some a ↔ JsonGrammar.Spells v a := by
  rw [get?, hv, Option.bind_some, JsonGrammar.decode?_eq_some_iff]

end Json.Fields

namespace JsonGrammar

instance : JsonGrammar Bool where
  Spells j b := j = .bool b
  decode?_eq_some_iff {j b} := by cases j <;> simp [JsonCodec.decode?]

instance : JsonGrammar Amount where
  Spells j a := ∃ s, string? j = some s ∧ a.Spelled s.toList
  decode?_eq_some_iff := by
    simp [JsonCodec.decode?, Option.bind_eq_some_iff, Amount.ofText?_eq_some_iff]

instance (n : Nat) : JsonGrammar (Bytes n) where
  Spells j b := ∃ s, string? j = some s ∧ Hex.Denotes (Hex.bare s) b.toList
  decode?_eq_some_iff := by
    simp [JsonCodec.decode?, Option.bind_eq_some_iff, Bytes.toOption_parse_eq_some_iff]

instance : JsonGrammar UInt64 where
  Spells j w := ∃ spelling, j = .number spelling ∧ Decimal.Spelled w.toNat spelling.toList
  decode?_eq_some_iff :=
    word_eq_some_iff (fun w => w.toNat_lt) (fun w => w.ofNat_toNat) fun _ hm =>
      UInt64.toNat_ofNat_of_lt hm

instance : JsonGrammar UInt32 where
  Spells j w := ∃ spelling, j = .number spelling ∧ Decimal.Spelled w.toNat spelling.toList
  decode?_eq_some_iff :=
    word_eq_some_iff (fun w => w.toNat_lt) (fun w => w.ofNat_toNat) fun _ hm =>
      UInt32.toNat_ofNat_of_lt hm

end JsonGrammar
end PerpExchange
