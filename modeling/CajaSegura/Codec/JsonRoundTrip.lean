import CajaSegura.Codec.JsonCut

/-!
# Reading what was written

## Main results

* `Json.readString_encodeString`, `Json.readNumber_encodeInt`: strings and integers
* `Json.decode_encodeObject`: a flat object is read back
* `Json.decode_encodeObject_cut`: a strict initial part of its text is not read
-/

namespace Codec

namespace Json

/-! ## Strings -/

theorem hexValue_hexDigit {n : ℕ} (hn : n < 16) : hexValue (hexDigit n) = some n := by
  have key : ∀ m : Fin 16, hexValue (hexDigit m) = some m.val := by decide +kernel
  exact key ⟨n, hn⟩

theorem hexUnit_hexDigit {n : ℕ} (hn : n < 0x100) :
    hexUnit '0' '0' (hexDigit (n / 16)) (hexDigit (n % 16)) = some n := by
  have h₀ : hexValue '0' = some 0 := by decide
  simp only [hexUnit, h₀, hexValue_hexDigit (show n / 16 < 16 by omega),
    hexValue_hexDigit (show n % 16 < 16 by omega)]
  exact congrArg some (by omega)

/-- One written character is read as its code point. -/
theorem readUnits_escapeChar (c : Char) (rest : Text) :
    readUnits (escapeChar c ++ rest) = (readUnits rest).map fun p => (c.toNat :: p.1, p.2) := by
  unfold escapeChar
  split_ifs with h₁ h₂ h₃ h₄ h₅ h₆ h₇ h₈
  · subst h₁
    exact readUnits_escape (by decide) (by decide) rest
  · subst h₂
    exact readUnits_escape (by decide) (by decide) rest
  · rw [h₃]
    exact readUnits_escape (by decide) (by decide) rest
  · rw [h₄]
    exact readUnits_escape (by decide) (by decide) rest
  · rw [h₅]
    exact readUnits_escape (by decide) (by decide) rest
  · rw [h₆]
    exact readUnits_escape (by decide) (by decide) rest
  · rw [h₇]
    exact readUnits_escape (by decide) (by decide) rest
  · exact readUnits_hex (hexUnit_hexDigit (by omega)) rest
  · exact readUnits_plain h₁ h₂ h₈ rest

theorem readUnits_flatMap (s rest : Text) :
    readUnits (s.flatMap escapeChar ++ '"' :: rest) = some (s.map Char.toNat, rest) := by
  induction s with
  | nil => exact readUnits_quote rest
  | cons c s ih =>
    rw [List.flatMap_cons, List.append_assoc, readUnits_escapeChar, ih]
    rfl

/-- A scalar value is no surrogate. -/
theorem ofUnits_map_toNat (s : Text) : ofUnits (s.map Char.toNat) = s := by
  induction s with
  | nil => rfl
  | cons c s ih =>
    have hv : c.toNat.isValidChar := c.valid
    have hc : Char.ofNat c.toNat = c := Char.ofNat_toNat c
    cases s with
    | nil => simp [ofUnits, hv, hc]
    | cons d s =>
      have hno : ¬ (0xD800 ≤ c.toNat ∧ c.toNat < 0xDC00 ∧ 0xDC00 ≤ d.toNat ∧ d.toNat < 0xE000) := by
        rintro ⟨h₁, h₂, -⟩
        rcases hv with h | h <;> omega
      rw [List.map_cons, List.map_cons, ofUnits, if_neg hno, if_pos hv, hc, ← List.map_cons, ih]

theorem readString_encode (s rest : Text) :
    readString (s.flatMap escapeChar ++ '"' :: rest) = some (s, rest) := by
  simp [readString, readUnits_flatMap, ofUnits_map_toNat]

/-! ## Integers -/

/-- What follows a number does not continue it. -/
def EndsNumber (rest : Text) : Prop :=
  ∃ c cs, rest = c :: cs ∧ (c = ',' ∨ c = '}')

theorem isDigit_of_mem_toDigits {n : ℕ} {c : Char} (h : c ∈ Nat.toDigits 10 n) :
    c.isDigit = true :=
  Nat.isDigit_of_mem_toDigits (by decide) (by decide) h

/-- An integer is written with digits and a sign. -/
theorem notMem_encodeInt {c : Char} (hc : c.isDigit = false) (hm : c ≠ '-') (n : ℤ) :
    c ∉ encodeInt n := by
  have hd : ∀ n : ℕ, c ∉ Nat.toDigits 10 n := by
    intro n h
    exact absurd (isDigit_of_mem_toDigits h) (by simp [hc])
  unfold encodeInt
  split <;> simp [hd, hm]

theorem head_toDigits {n : ℕ} (h : (Nat.toDigits 10 n).head? = some '0') : n = 0 := by
  induction n using Nat.strongRecOn with
  | ind n ih =>
    by_cases hn : n < 10
    · rw [Nat.toDigits_of_lt_base hn] at h
      have key : ∀ m : Fin 10, Nat.digitChar m = '0' → m.val = 0 := by decide
      exact key ⟨n, hn⟩ (by simpa using h)
    · rw [Nat.toDigits_of_base_le (by decide) (by omega), List.head?_append] at h
      have hne : (Nat.toDigits 10 (n / 10)).head? ≠ none := by simp [Nat.toDigits_ne_nil]
      obtain ⟨c, hc⟩ := Option.ne_none_iff_exists'.mp hne
      rw [hc, Option.some_or] at h
      have h₀ := ih (n / 10) (by omega) (hc.trans h)
      omega

theorem readDigits_toDigits (n : ℕ) {rest : Text} (hr : EndsNumber rest) :
    readDigits (Nat.toDigits 10 n ++ rest) = some (Nat.toDigits 10 n, rest) := by
  obtain ⟨c, cs, rfl, hc⟩ := hr
  have hd : c.isDigit = false := by rcases hc with rfl | rfl <;> decide
  have ht : (Nat.toDigits 10 n ++ c :: cs).takeWhile Char.isDigit = Nat.toDigits 10 n := by
    rw [List.takeWhile_append_of_pos fun _ h => isDigit_of_mem_toDigits h]
    simp [hd]
  have hw : (Nat.toDigits 10 n ++ c :: cs).dropWhile Char.isDigit = c :: cs := by
    rw [List.dropWhile_append_of_pos fun _ h => isDigit_of_mem_toDigits h]
    simp [hd]
  rw [readDigits, ht, hw, if_neg Nat.toDigits_ne_nil]

theorem readIntPart_toDigits (n : ℕ) {rest : Text} (hr : EndsNumber rest) :
    readIntPart (Nat.toDigits 10 n ++ rest) = some (Nat.toDigits 10 n, rest) := by
  rw [readIntPart, readDigits_toDigits n hr]
  refine if_neg fun h => h.2 ?_
  rw [head_toDigits h.1, Nat.toDigits_zero]
  rfl

theorem readUnsigned_toDigits (neg : Bool) (n : ℕ) {rest : Text} (hr : EndsNumber rest) :
    readUnsigned neg (Nat.toDigits 10 n ++ rest) =
      some (ofInteger ((if neg then -1 else 1) * n), rest) := by
  rw [readUnsigned, readIntPart_toDigits n hr]
  obtain ⟨c, cs, rfl, hc⟩ := hr
  have hf : readFraction (c :: cs) = some ([], c :: cs) := by rcases hc with rfl | rfl <;> rfl
  have he : readExponent (c :: cs) = some (none, c :: cs) := by
    rcases hc with rfl | rfl <;> rfl
  simp [hf, he]

theorem toDigits_cons (n : ℕ) : ∃ c cs, Nat.toDigits 10 n = c :: cs ∧ c.isDigit = true := by
  cases h : Nat.toDigits 10 n with
  | nil => exact absurd h Nat.toDigits_ne_nil
  | cons c cs => exact ⟨c, cs, rfl, isDigit_of_mem_toDigits (h ▸ List.mem_cons_self ..)⟩

theorem readNumber_encodeInt (n : ℤ) {rest : Text} (hr : EndsNumber rest) :
    readNumber (encodeInt n ++ rest) = some (ofInteger n, rest) := by
  unfold encodeInt
  split_ifs with hn
  · rw [List.cons_append, readNumber, readUnsigned_toDigits true _ hr]
    simp only [if_true]
    rw [show (-1 : ℤ) * n.natAbs = n by omega]
  · have hu := readUnsigned_toDigits false n.natAbs hr
    obtain ⟨c, cs, hc, hd⟩ := toDigits_cons n.natAbs
    rw [hc, List.cons_append] at hu ⊢
    unfold readNumber
    split
    · rename_i heq
      cases heq
      exact absurd hd (by decide)
    · rw [hu, show (if false = true then (-1 : ℤ) else 1) * n.natAbs = n by simp; omega]

/-! ## Objects -/

theorem skipWs_cons {c : Char} (h : isWs c = false) (cs : Text) :
    skipWs (c :: cs) = c :: cs := by
  simp [skipWs, h]

theorem isAlpha_of_isDigit {c : Char} (h : c.isDigit = true) : c.isAlpha = false := by
  simp only [Char.isDigit, Bool.and_eq_true, decide_eq_true_eq, UInt32.le_iff_toNat_le,
    ge_iff_le] at h
  rw [Bool.eq_false_iff]
  intro ha
  have hletter : 'A'.val ≤ c.val ∧ c.val ≤ 'Z'.val ∨ 'a'.val ≤ c.val ∧ c.val ≤ 'z'.val :=
    (Bool.or_eq_true_iff.mp ha).imp of_decide_eq_true fun h =>
      (Bool.and_eq_true_iff.mp h).imp of_decide_eq_true of_decide_eq_true
  simp only [UInt32.le_iff_toNat_le] at hletter
  have h₉ : '9'.val.toNat = 57 := rfl
  have hA : 'A'.val.toNat = 65 := rfl
  have ha' : 'a'.val.toNat = 97 := rfl
  omega

theorem readValue_encode (n : ℕ) (p : Plain) {rest : Text} (hr : EndsNumber rest) :
    readValue (n + 1) (p.encode ++ rest) = some (p.toJson, rest) := by
  cases p with
  | text s =>
    have hs : skipWs ((Plain.text s).encode ++ rest) =
        '"' :: (s.flatMap escapeChar ++ '"' :: rest) := by
      simp [Plain.encode, encodeString, skipWs_cons, isWs]
    rw [readValue_succ hs, if_pos rfl, readString_encode]
    rfl
  | int k =>
    have hnum := readNumber_encodeInt k hr
    obtain ⟨c, cs, hc, hd⟩ : ∃ c cs, encodeInt k = c :: cs ∧ (c.isDigit = true ∨ c = '-') := by
      unfold encodeInt
      split_ifs
      · exact ⟨_, _, rfl, Or.inr rfl⟩
      · obtain ⟨c, cs, hc, hd⟩ := toDigits_cons k.natAbs
        exact ⟨c, cs, hc, Or.inl hd⟩
    rw [show (Plain.int k).encode = encodeInt k from rfl]
    rw [hc, List.cons_append] at hnum ⊢
    -- the first character of a number is a digit or the sign
    have hne : ∀ d : Char, d.isDigit = false → d ≠ '-' → c ≠ d := by
      rintro d h₁ h₂ rfl
      rcases hd with hd | hd
      · simp [hd] at h₁
      · exact h₂ hd
    have hws : isWs c = false := by
      simp [isWs, hne ' ' (by decide) (by decide), hne '\t' (by decide) (by decide),
        hne '\n' (by decide) (by decide), hne '\r' (by decide) (by decide)]
    have halpha : c.isAlpha = false := by
      rcases hd with hd | rfl
      · exact isAlpha_of_isDigit hd
      · decide
    rw [readValue_succ (skipWs_cons hws _), if_neg (hne _ (by decide) (by decide)),
      if_neg (hne _ (by decide) (by decide)), if_neg (hne _ (by decide) (by decide)), halpha,
      if_neg (by decide), hnum]
    rfl

/-- The members as a reader returns them. -/
def readBack (ms : List (Text × Plain)) : List (Text × Json) := ms.map fun m => (m.1, m.2.toJson)

theorem readMembers_encodeMembers {ms : List (Text × Plain)} (hms : ms ≠ []) :
    ∀ {n : ℕ}, ms.length < n → ∀ rest,
      readMembers n (encodeMembers ms ++ '}' :: rest) = some (readBack ms, rest) := by
  induction ms with
  | nil => exact absurd rfl hms
  | cons m ms ih =>
    intro n hn rest
    obtain ⟨n, rfl⟩ : ∃ k, n = k + 2 := ⟨n - 2, by simp at hn; omega⟩
    have hmember : ∀ tail, encodeMember m ++ tail =
        '"' :: (m.1.flatMap escapeChar ++ '"' :: (':' :: (m.2.encode ++ tail))) := by
      intro tail
      simp [encodeMember, encodeString]
    have hq : ∀ cs, skipWs ('"' :: cs) = '"' :: cs := skipWs_cons (by decide)
    have hcolon : ∀ cs, skipWs (':' :: cs) = ':' :: cs := skipWs_cons (by decide)
    rw [readMembers]
    cases ms with
    -- the last member, before the closing brace
    | nil =>
      have hv : readValue (n + 1) (m.2.encode ++ '}' :: rest) = some (m.2.toJson, '}' :: rest) :=
        readValue_encode n m.2 ⟨_, _, rfl, Or.inr rfl⟩
      have hbrace : skipWs ('}' :: rest) = '}' :: rest := skipWs_cons (by decide) rest
      simp only [encodeMembers, hmember, hq, readString_encode, hcolon, hv, hbrace]
      rfl
    -- a member with others after it
    | cons m' ms =>
      have hcomma : ∀ cs, skipWs (',' :: cs) = ',' :: cs := skipWs_cons (by decide)
      have hv : ∀ tail, readValue (n + 1) (m.2.encode ++ ',' :: tail) =
          some (m.2.toJson, ',' :: tail) := fun tail =>
        readValue_encode n m.2 ⟨_, _, rfl, Or.inl rfl⟩
      have hrest := ih (by simp) (n := n + 1) (by simp at hn ⊢; omega) rest
      simp only [encodeMembers, List.append_assoc, List.cons_append, hmember, hq,
        readString_encode, hcolon, hv, hcomma]
      simp [hrest, readBack]

theorem length_le_encodeMembers (ms : List (Text × Plain)) :
    ms.length ≤ (encodeMembers ms).length := by
  induction ms with
  | nil => exact Nat.zero_le _
  | cons m ms ih =>
    cases ms with
    | nil => simp [encodeMembers, encodeMember, encodeString]
    | cons m' ms =>
      rw [encodeMembers]
      · simp only [List.length_append, List.length_cons] at ih ⊢
        omega
      · simp

theorem readValue_encodeObject {ms : List (Text × Plain)} (hms : ms ≠ []) :
    readValue ((encodeObject ms).length + 1) (encodeObject ms) =
      some (.obj (readBack ms), []) := by
  have hlen := length_le_encodeMembers ms
  have hm := readMembers_encodeMembers hms (n := (encodeObject ms).length)
    (by simp [encodeObject]; omega) []
  have hs : skipWs (encodeObject ms) = '{' :: (encodeMembers ms ++ ['}']) := by
    simp [encodeObject, skipWs_cons, isWs]
  rw [readValue_succ hs, if_neg (by decide), if_pos rfl]
  obtain ⟨cs, hcs⟩ : ∃ cs, encodeMembers ms ++ ['}'] = '"' :: cs := by
    cases ms with
    | nil => exact absurd rfl hms
    | cons m ms =>
      cases ms with
      | nil => exact ⟨_, by simp [encodeMembers, encodeMember, encodeString]; rfl⟩
      | cons m' ms => exact ⟨_, by simp [encodeMembers, encodeMember, encodeString]; rfl⟩
  rw [hcs] at hm ⊢
  rw [readItems, skipWs_cons (by decide)]
  simp [hm]

/-- **Round trip**: the text of a flat object is read as the object. -/
theorem decode_encodeObject {ms : List (Text × Plain)} (hms : ms ≠ []) :
    decode (encodeObject ms) = some (.obj (readBack ms)) := by
  rw [decode, readValue_encodeObject hms]
  rfl

/-- **A cut object is no text**. -/
theorem decode_encodeObject_cut {ms : List (Text × Plain)} (hms : ms ≠ []) {s : Text}
    (hs : s <+: encodeObject ms) (hne : s ≠ encodeObject ms) : decode s = none :=
  decode_cut rfl (readValue_encodeObject hms) hs hne

end Json

end Codec
