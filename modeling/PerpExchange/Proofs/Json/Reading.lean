import PerpExchange.Proofs.Json.Spelling
import PerpExchange.Proofs.Texts

/-! The reader gives back every document that the writer puts down. -/
namespace PerpExchange.Json

/-- Documents as values are written: numbers without leading zeros, strings and names escaped. -/
inductive Plain : Json → Prop where
  | null : Plain .null
  | bool (b : Bool) : Plain (.bool b)
  | number (n : Nat) : Plain (ofNat n)
  | string (s : String) : Plain (ofString s)
  | array {items : List Json} (h : ∀ j ∈ items, Plain j) : Plain (.array items)
  | object {members : List (String × Json)} (hname : ∀ m ∈ members, ∃ s, m.1 = escape s)
      (h : ∀ m ∈ members, Plain m.2) : Plain (.object members)

/-- What follows a scalar ends it. -/
def EndsScalar (rest : List Char) : Prop := ∀ c ∈ rest.head?, isScalarChar c = false

theorem endsScalar_nil : EndsScalar [] := fun _ h => nomatch h

theorem endsScalar_cons {c : Char} {rest : List Char} (h : isScalarChar c = false) :
    EndsScalar (c :: rest) := by
  intro d hd
  cases hd
  exact h

theorem scanBetween_scalar {c : Char} (h : isScalarChar c = true) :
    scanBetween c = some ([], .inScalar [c]) := by
  have hquote : c ≠ '"' := by
    rintro rfl
    exact absurd h (by decide)
  have hblank : isBlank c = false := by
    simp only [isBlank, Bool.or_eq_false_iff, beq_eq_false_iff_ne]
    refine ⟨⟨⟨?_, ?_⟩, ?_⟩, ?_⟩ <;> rintro rfl <;> exact absurd h (by decide)
  simp [scanBetween, hquote, hblank, h]

theorem readOn_inScalar (cs collected : List Char) (r : Reading) (rest : List Char)
    (h : ∀ c ∈ cs, isScalarChar c = true) :
    readOn (.inScalar collected) r (cs ++ rest) =
      readOn (.inScalar (cs.reverse ++ collected)) r rest := by
  induction cs generalizing collected with
  | nil => rfl
  | cons c cs ih =>
    have hc : isScalarChar c = true := h c List.mem_cons_self
    have hcs := ih (c :: collected) fun d hd => h d (List.mem_cons_of_mem _ hd)
    rw [List.cons_append, readOn, scanChar, if_pos hc]
    simpa using hcs

theorem readOn_endScalar {collected rest : List Char} {v : Json} (r : Reading)
    (hv : scalar? collected.reverse = some v) (hrest : EndsScalar rest) :
    readOn (.inScalar collected) r rest =
      (step r (.scalar v)).bind fun r => readOn .between r rest := by
  cases rest with
  | nil => simp [readOn, scanEnd, hv]
  | cons c cs =>
    have hc : isScalarChar c = false := hrest c rfl
    simp only [readOn, scanChar, hc, hv]
    cases hscan : scanBetween c <;> simp [Option.bind_assoc]

/-- A run of scalar characters is one token. -/
theorem readOn_scalar {cs rest : List Char} {v : Json} (r : Reading)
    (hcs : ∀ c ∈ cs, isScalarChar c = true) (hne : cs ≠ []) (hv : scalar? cs = some v)
    (hrest : EndsScalar rest) :
    readOn .between r (cs ++ rest) =
      (step r (.scalar v)).bind fun r => readOn .between r rest := by
  obtain ⟨c, cs, rfl⟩ := List.exists_cons_of_ne_nil hne
  have hc : isScalarChar c = true := hcs c List.mem_cons_self
  have hopen : readOn .between r (c :: cs ++ rest) = readOn (.inScalar [c]) r (cs ++ rest) := by
    simp [readOn, scanChar, scanBetween_scalar hc]
  rw [hopen, readOn_inScalar _ _ _ _ fun d hd => hcs d (List.mem_cons_of_mem _ hd)]
  refine readOn_endScalar r ?_ hrest
  simpa using hv

theorem readOn_punctuation {c : Char} {t : Token} (r : Reading) (rest : List Char)
    (h : scanBetween c = some ([t], .between)) :
    readOn .between r (c :: rest) = (step r t).bind fun r => readOn .between r rest := by
  simp [readOn, scanChar, h]

theorem isScalarChar_of_isDigit {c : Char} (h : c.isDigit = true) : isScalarChar c = true := by
  simp [isScalarChar, Char.isAlphanum, h]

theorem spanDigits_digits (n : Nat) : spanDigits (Decimal.digits n) = (Decimal.digits n, []) := by
  have h : ∀ c ∈ Decimal.digits n, c.isDigit = true := fun _ => Decimal.isDigit_of_mem_digits
  have htake : (Decimal.digits n ++ []).takeWhile Char.isDigit = Decimal.digits n := by
    rw [List.takeWhile_append_of_pos h, List.takeWhile_nil, List.append_nil]
  have hdrop : (Decimal.digits n ++ []).dropWhile Char.isDigit = [] := by
    rw [List.dropWhile_append_of_pos h, List.dropWhile_nil]
  rw [List.append_nil] at htake hdrop
  rw [spanDigits, htake, hdrop]

theorem isNumber_digits (n : Nat) : isNumber (Decimal.digits n) = true := by
  have hdigit : ∀ c ∈ Decimal.digits n, c.isDigit = true := fun _ => Decimal.isDigit_of_mem_digits
  have hne := Decimal.digits_ne_nil n
  have hunsigned : isUnsignedNumber (Decimal.digits n) = true := by
    unfold isUnsignedNumber
    split
    next rest heq =>
      by_cases hn : 0 < n
      · exact absurd (by rw [heq, List.head?_cons]) (Decimal.head?_digits_ne_zero hn)
      · obtain rfl : n = 0 := by omega
        have hzero : Decimal.digits 0 = ['0'] := by decide
        rw [hzero] at heq
        cases heq
        rfl
    next => simp [spanDigits_digits, isNumberTail, isExponent, hne]
  unfold isNumber
  split
  next heq => exact absurd (hdigit '-' (by simp [heq])) (by decide)
  next => exact hunsigned

theorem scalar?_digits (n : Nat) : scalar? (Decimal.digits n) = some (ofNat n) := by
  have hne : ∀ {cs : List Char}, ¬cs.all Char.isDigit → Decimal.digits n ≠ cs := by
    rintro _ hcs rfl
    exact hcs (List.all_eq_true.2 fun _ => Decimal.isDigit_of_mem_digits)
  rw [scalar?, if_neg (hne (by decide)), if_neg (hne (by decide)), if_neg (hne (by decide)),
    if_pos (isNumber_digits n)]
  rfl

/-- A value may come first in its container or after others. -/
theorem step_eq_stepValue {due : Due} (hdue : due = .value ∨ due = .itemOrEnd) {t : Token}
    (ht : t ≠ .endArray) (frames : List Frame) : step ⟨frames, due⟩ t = stepValue frames t := by
  rcases hdue with rfl | rfl
  · rfl
  · cases t <;> first | rfl | exact absurd rfl ht

/-- Where a value is due, the text of a document delivers that document. -/
def ReadsBack (j : Json) : Prop :=
  ∀ (frames : List Frame) (due : Due) (rest : List Char), due = .value ∨ due = .itemOrEnd →
    EndsScalar rest → readOn .between ⟨frames, due⟩ (writeOnto j rest) =
      (deliver j frames).bind fun r => readOn .between r rest

theorem readsBack_scalar {j : Json} (cs : List Char)
    (hwrite : ∀ rest, writeOnto j rest = cs ++ rest) (hcs : cs.all isScalarChar = true)
    (hne : cs ≠ []) (hj : scalar? cs = some j) : ReadsBack j := by
  intro frames due rest hdue hrest
  rw [hwrite, readOn_scalar _ (List.all_eq_true.mp hcs) hne hj hrest,
    step_eq_stepValue hdue (by simp)]
  rfl

theorem endsScalar_writeItemsOnto (items : List Json) (rest : List Char) :
    EndsScalar (writeItemsOnto items (']' :: rest)) := by
  cases items with
  | nil => exact endsScalar_cons (by decide)
  | cons => exact endsScalar_cons (by decide)

theorem readOn_writeItemsOnto {items : List Json} (h : ∀ j ∈ items, ReadsBack j) (done : List Json)
    (frames : List Frame) (rest : List Char) :
    readOn .between ⟨.array done :: frames, .commaOrEnd⟩ (writeItemsOnto items (']' :: rest)) =
      (deliver (.array (done.reverse ++ items)) frames).bind fun r => readOn .between r rest := by
  induction items generalizing done with
  | nil =>
    rw [writeItemsOnto, readOn_punctuation _ _ (t := .endArray) rfl, List.append_nil]
    rfl
  | cons item items ih =>
    have hitem := h item List.mem_cons_self (.array done :: frames) .value
      (writeItemsOnto items (']' :: rest)) (.inl rfl) (endsScalar_writeItemsOnto items rest)
    have hitems := ih (fun j hj => h j (List.mem_cons_of_mem _ hj)) (item :: done)
    rw [writeItemsOnto, readOn_punctuation _ _ (t := .comma) rfl]
    simp only [step, Option.bind_some, hitem, deliver, hitems, List.reverse_cons,
      List.append_assoc, List.cons_append, List.nil_append]

theorem endsScalar_writeMembersOnto (members : List (String × Json)) (rest : List Char) :
    EndsScalar (writeMembersOnto members ('\x7d' :: rest)) := by
  cases members with
  | nil => exact endsScalar_cons (by decide)
  | cons => exact endsScalar_cons (by decide)

theorem readOn_member {name : String} {value : Json} (hname : ∃ s, name = escape s)
    (hvalue : ReadsBack value) {due : Due} (hdue : due = .name ∨ due = .nameOrEnd)
    (done : List (String × Json)) (frames : List Frame) {rest : List Char}
    (hrest : EndsScalar rest) :
    readOn .between ⟨.object done :: frames, due⟩ (quoteOnto name (':' :: writeOnto value rest)) =
      readOn .between ⟨.object ((name, value) :: done) :: frames, .commaOrEnd⟩ rest := by
  rcases hname with ⟨s, rfl⟩
  have hstep : step ⟨.object done :: frames, due⟩ (.string (escape s)) =
      some ⟨.object done :: frames, .colon (escape s)⟩ := by
    rcases hdue with rfl | rfl <;> rfl
  have hread := hvalue (.member done (escape s) :: frames) .value rest (.inl rfl) hrest
  rw [readOn_quoteOnto, hstep, Option.bind_some, readOn_punctuation _ _ (t := .colon) rfl]
  simp only [step, Option.bind_some, hread, deliver]

theorem readOn_writeMembersOnto {members : List (String × Json)}
    (hname : ∀ m ∈ members, ∃ s, m.1 = escape s) (h : ∀ m ∈ members, ReadsBack m.2)
    (done : List (String × Json)) (frames : List Frame) (rest : List Char) :
    readOn .between ⟨.object done :: frames, .commaOrEnd⟩
        (writeMembersOnto members ('\x7d' :: rest)) =
      (deliver (.object (done.reverse ++ members)) frames).bind fun r =>
        readOn .between r rest := by
  induction members generalizing done with
  | nil =>
    rw [writeMembersOnto, readOn_punctuation _ _ (t := .endObject) rfl, List.append_nil]
    rfl
  | cons member members ih =>
    rcases member with ⟨name, value⟩
    have hmember := readOn_member (hname _ List.mem_cons_self) (h _ List.mem_cons_self) (.inl rfl)
      done frames (endsScalar_writeMembersOnto members rest)
    have hmembers := ih (fun m hm => hname m (List.mem_cons_of_mem _ hm))
      (fun m hm => h m (List.mem_cons_of_mem _ hm)) ((name, value) :: done)
    rw [writeMembersOnto, readOn_punctuation _ _ (t := .comma) rfl]
    simp only [step, Option.bind_some, hmember, hmembers, List.reverse_cons, List.append_assoc,
      List.cons_append, List.nil_append]

theorem readsBack_array {items : List Json} (h : ∀ j ∈ items, ReadsBack j) :
    ReadsBack (.array items) := by
  intro frames due rest hdue hrest
  cases items with
  | nil =>
    rw [writeOnto, readOn_punctuation _ _ (t := .beginArray) rfl, step_eq_stepValue hdue (by simp)]
    simp only [stepValue, Option.bind_some]
    rw [readOn_punctuation _ _ (t := .endArray) rfl]
    rfl
  | cons item items =>
    have hitem := h item List.mem_cons_self (.array [] :: frames) .itemOrEnd
      (writeItemsOnto items (']' :: rest)) (.inr rfl) (endsScalar_writeItemsOnto items rest)
    have hitems := readOn_writeItemsOnto (fun j hj => h j (List.mem_cons_of_mem _ hj)) [item]
      frames rest
    rw [writeOnto, readOn_punctuation _ _ (t := .beginArray) rfl, step_eq_stepValue hdue (by simp)]
    simp only [stepValue, Option.bind_some, hitem, deliver, hitems, List.reverse_singleton,
      List.singleton_append]

theorem readsBack_object {members : List (String × Json)}
    (hname : ∀ m ∈ members, ∃ s, m.1 = escape s) (h : ∀ m ∈ members, ReadsBack m.2) :
    ReadsBack (.object members) := by
  intro frames due rest hdue hrest
  cases members with
  | nil =>
    rw [writeOnto, readOn_punctuation _ _ (t := .beginObject) rfl,
      step_eq_stepValue hdue (by simp)]
    simp only [stepValue, Option.bind_some]
    rw [readOn_punctuation _ _ (t := .endObject) rfl]
    rfl
  | cons member members =>
    rcases member with ⟨name, value⟩
    have hmember := readOn_member (hname _ List.mem_cons_self) (h _ List.mem_cons_self) (.inr rfl)
      [] frames (endsScalar_writeMembersOnto members rest)
    have hmembers := readOn_writeMembersOnto (fun m hm => hname m (List.mem_cons_of_mem _ hm))
      (fun m hm => h m (List.mem_cons_of_mem _ hm)) [(name, value)] frames rest
    rw [writeOnto, readOn_punctuation _ _ (t := .beginObject) rfl,
      step_eq_stepValue hdue (by simp)]
    simp only [stepValue, Option.bind_some, hmember, hmembers, List.reverse_singleton,
      List.singleton_append]

theorem Plain.readsBack {j : Json} (h : Plain j) : ReadsBack j := by
  induction h with
  | null => exact readsBack_scalar ['n', 'u', 'l', 'l'] (fun _ => rfl) rfl (by decide) rfl
  | bool b =>
    cases b with
    | true =>
      exact readsBack_scalar ['t', 'r', 'u', 'e'] (fun _ => rfl) rfl (by decide) rfl
    | false =>
      exact readsBack_scalar ['f', 'a', 'l', 's', 'e'] (fun _ => rfl) rfl (by decide) rfl
  | number n =>
    refine readsBack_scalar _ (fun rest => ?_)
      (List.all_eq_true.mpr fun c hc => isScalarChar_of_isDigit (Decimal.isDigit_of_mem_digits hc))
      (Decimal.digits_ne_nil n) (scalar?_digits n)
    rw [ofNat, writeOnto, Decimal.toList_text]
  | string s =>
    intro frames due rest hdue hrest
    rw [ofString, writeOnto, readOn_quoteOnto, step_eq_stepValue hdue (by simp)]
    rfl
  | array _ ih => exact readsBack_array ih
  | object hname _ ih => exact readsBack_object hname ih

theorem Plain.read?_write {j : Json} (h : Plain j) : read? (write j) = some j := by
  have hread := h.readsBack [] .value [] (.inl rfl) endsScalar_nil
  rw [read?, write, String.toList_ofList, hread]
  rfl

/-- A document is read back from the bytes of its text. -/
theorem Plain.readBytes?_utf8 {j : Json} (h : Plain j) :
    readBytes? (utf8 (writeOnto j [])) = some j := by
  rw [readBytes?, ofUtf8?_utf8, Option.getD_some]
  exact h.read?_write

end PerpExchange.Json
