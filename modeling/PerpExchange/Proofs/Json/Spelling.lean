import PerpExchange.Json.Reader
import PerpExchange.Json.Writer

/-! A text is read back from its spelling, and a spelling goes through the scanner in one piece. -/
namespace PerpExchange.Json

theorem shortEscape?_some {c letter : Char} (h : shortEscape? c = some letter) :
    (c = '"' ∧ letter = '"') ∨ (c = '\\' ∧ letter = '\\') ∨ (c = '\x08' ∧ letter = 'b') ∨
      (c = '\t' ∧ letter = 't') ∨ (c = '\n' ∧ letter = 'n') ∨ (c = '\x0c' ∧ letter = 'f') ∨
        (c = '\r' ∧ letter = 'r') := by
  unfold shortEscape? at h
  split at h
  next hc =>
    cases h
    rcases hc with rfl | rfl <;> simp
  next =>
    repeat'
      split at h
    all_goals first
      | cases h; simp_all
      | cases h

theorem shortEscape?_none {c : Char} (h : shortEscape? c = none) : c ≠ '"' ∧ c ≠ '\\' := by
  constructor <;> rintro rfl <;> simp [shortEscape?] at h

/-- The value of a hexadecimal digit below sixteen. -/
theorem hexDigit?_digitChar {n : Nat} (h : n < 16) : hexDigit? (Nat.digitChar n) = some n := by
  have hall : ∀ m : Fin 16, hexDigit? (Nat.digitChar m.val) = some m.val := by decide
  exact hall ⟨n, h⟩

theorem hexUnit?_control {n : Nat} (h : n < 32) :
    hexUnit? '0' '0' (Nat.digitChar (n / 16)) (Nat.digitChar (n % 16)) = some n := by
  have h0 : hexDigit? '0' = some 0 := by decide
  rw [hexUnit?, hexDigit?_digitChar (by omega), hexDigit?_digitChar (by omega), h0]
  simp only [Option.bind_eq_bind, Option.bind_some, Option.pure_def, Option.some.injEq]
  omega

theorem toNat_of_control {c : Char} (h : c < ' ') : c.toNat < 32 := h

theorem Unit16.ofNat_control {c : Char} (h : c < ' ') : Unit16.ofNat c.toNat = .char c := by
  have hn : c.toNat < 32 := toNat_of_control h
  rw [Unit16.ofNat, if_neg (by omega), if_neg (by omega), Char.ofNat_toNat]

/-- A spelled character resolves to itself. -/
theorem resolve_escapeChar (c : Char) (rest : List Char) :
    resolve none (escapeChar c ++ rest) = (resolve none rest).map (c :: ·) := by
  unfold escapeChar
  cases hs : shortEscape? c with
  | some letter =>
    rcases shortEscape?_some hs with ⟨rfl, rfl⟩ | ⟨rfl, rfl⟩ | ⟨rfl, rfl⟩ | ⟨rfl, rfl⟩ |
      ⟨rfl, rfl⟩ | ⟨rfl, rfl⟩ | ⟨rfl, rfl⟩ <;>
      simp only [List.cons_append, List.nil_append] <;> cases hr : resolve none rest <;>
        simp [resolve, unescapeLetter?, hr]
  | none =>
    simp only
    split
    next hc =>
      simp only [List.cons_append, List.nil_append, resolve, hexUnit?_control (toNat_of_control hc),
        Option.bind_eq_bind, Option.bind_some, Unit16.ofNat_control hc, Option.pure_def]
      cases resolve none rest <;> rfl
    next =>
      obtain ⟨-, hne⟩ := shortEscape?_none hs
      rw [List.cons_append, List.nil_append, resolve, if_neg hne]
      · cases resolve none rest <;> rfl
      · intro _ _ _ _ _ hc
        exact (hne hc).elim
      · intro _ _ hc
        exact (hne hc).elim

theorem resolve_flatMap_escapeChar (cs rest : List Char) :
    resolve none (cs.flatMap escapeChar ++ rest) = (resolve none rest).map (cs ++ ·) := by
  induction cs with
  | nil => simp
  | cons c cs ih =>
    rw [List.flatMap_cons, List.append_assoc, resolve_escapeChar, ih, Option.map_map]
    rfl

/-- The spelling of a text stands for that text. -/
@[simp]
theorem unescape?_escape (s : String) : unescape? (escape s) = some s := by
  have h := resolve_flatMap_escapeChar s.toList []
  rw [List.append_nil] at h
  rw [unescape?, escape, String.toList_ofList, h]
  simp [resolve]

@[simp]
theorem string?_ofString (s : String) : string? (ofString s) = some s := unescape?_escape s

theorem wellSpelled_escapeChar (c : Char) (rest : List Char) :
    wellSpelled (escapeChar c ++ rest) = wellSpelled rest := by
  unfold escapeChar
  cases hs : shortEscape? c with
  | some letter =>
    rcases shortEscape?_some hs with ⟨rfl, rfl⟩ | ⟨rfl, rfl⟩ | ⟨rfl, rfl⟩ | ⟨rfl, rfl⟩ |
      ⟨rfl, rfl⟩ | ⟨rfl, rfl⟩ | ⟨rfl, rfl⟩ <;> simp [wellSpelled, unescapeLetter?]
  | none =>
    simp only
    split
    next hc => simp [wellSpelled, hexUnit?_control (toNat_of_control hc)]
    next =>
      obtain ⟨-, hne⟩ := shortEscape?_none hs
      rw [List.cons_append, List.nil_append, wellSpelled]
      · intro _ _ _ _ _ hc
        exact (hne hc).elim
      · intro _ _ hc
        exact (hne hc).elim
      · intro hc
        exact (hne hc).elim

theorem wellSpelled_escape (s : String) : wellSpelled (escape s).toList = true := by
  rw [escape, String.toList_ofList]
  induction s.toList with
  | nil => rfl
  | cons c cs ih => rw [List.flatMap_cons, wellSpelled_escapeChar, ih]

theorem readOn_escapeChar (c : Char) (collected : List Char) (r : Reading) (rest : List Char) :
    readOn (.inString collected) r (escapeChar c ++ rest) =
      readOn (.inString ((escapeChar c).reverse ++ collected)) r rest := by
  unfold escapeChar
  cases hs : shortEscape? c with
  | some letter => simp [readOn, scanChar]
  | none =>
    simp only
    obtain ⟨hquote, hne⟩ := shortEscape?_none hs
    split
    next hc =>
      have hdigit : ∀ m : Fin 16, Nat.digitChar m.val ≠ '"' ∧ Nat.digitChar m.val ≠ '\\' ∧
          ¬Nat.digitChar m.val < ' ' := by decide
      have hn : c.toNat < 32 := toNat_of_control hc
      have high := hdigit ⟨c.toNat / 16, by omega⟩
      have low := hdigit ⟨c.toNat % 16, by omega⟩
      simp [readOn, scanChar, high, low]
    next hc => simp [readOn, scanChar, hquote, hne, hc]

theorem readOn_flatMap_escapeChar (cs collected : List Char) (r : Reading) (rest : List Char) :
    readOn (.inString collected) r (cs.flatMap escapeChar ++ rest) =
      readOn (.inString ((cs.flatMap escapeChar).reverse ++ collected)) r rest := by
  induction cs generalizing collected with
  | nil => rfl
  | cons c cs ih =>
    rw [List.flatMap_cons, List.append_assoc, readOn_escapeChar, ih, List.reverse_append,
      List.append_assoc]

/-- A spelled text in quotes is one token. -/
theorem readOn_quoteOnto (s : String) (r : Reading) (rest : List Char) :
    readOn .between r (quoteOnto (escape s) rest) =
      (step r (.string (escape s))).bind fun r => readOn .between r rest := by
  have hscan := readOn_flatMap_escapeChar s.toList [] r ('"' :: rest)
  have hescape : (escape s).toList = s.toList.flatMap escapeChar := by
    rw [escape, String.toList_ofList]
  have hspelled := wellSpelled_escape s
  rw [← hescape, List.append_nil] at hscan
  have hopen : readOn .between r (quoteOnto (escape s) rest) =
      readOn (.inString []) r ((escape s).toList ++ '"' :: rest) := by
    simp [quoteOnto, readOn, scanChar, scanBetween]
  rw [hopen, hscan]
  simp [readOn, scanChar, hspelled]

end PerpExchange.Json
