import CajaSegura.Codec.Json

/-!
# Cut JSON texts

A reader that has read an object reads it the same way when more text follows, so no text of an
object begins with another complete text: a file cut anywhere is not taken for a whole one.

## Main definitions

* `Json.Continues`: a reader that reads what another one reads, also when text is appended
* `Json.readItems`, `Json.readRest`: what objects and arrays have in common

## Main results

* `Json.readValue_append`: a value that was read stays read when text is appended
* `Json.decode_cut`: no strict initial part of the text of an object is a text
-/

namespace Codec

namespace Json

/-! ## Appending text -/

theorem skipWs_append {cs : Text} (h : skipWs cs ≠ []) (ext : Text) :
    skipWs (cs ++ ext) = skipWs cs ++ ext := by
  unfold skipWs at h ⊢
  rw [List.dropWhile_append, if_neg (by simpa using h)]

theorem skipWs_append_of_cons {cs rest : Text} {c : Char} (h : skipWs cs = c :: rest)
    (ext : Text) : skipWs (cs ++ ext) = c :: (rest ++ ext) := by
  rw [skipWs_append (by simp [h]), h, List.cons_append]

theorem readUnits_append {cs r : Text} {us : List ℕ} (h : readUnits cs = some (us, r))
    (ext : Text) : readUnits (cs ++ ext) = some (us, r ++ ext) := by
  fun_induction readUnits cs generalizing us r with
  | case1 | case3 | case5 | case6 | case8 | case9 => cases h
  | case2 cs =>
    cases h
    exact readUnits_quote _
  | case4 h₁ h₂ h₃ h₄ cs u us' rest hr hu hq ih =>
    cases h
    rw [List.cons_append, List.cons_append, List.cons_append, List.cons_append, List.cons_append,
      List.cons_append, readUnits_hex hu, ih hr]
    rfl
  | case7 e cs he u us' rest hr hu hq ih =>
    cases h
    rw [List.cons_append, List.cons_append, readUnits_escape he hu, ih hr]
    rfl
  | case10 c cs hq hb hc ih =>
    cases hr : readUnits cs with
    | none => simp [hr] at h
    | some p =>
      rw [hr] at h
      cases h
      rw [List.cons_append, readUnits_plain hq hb hc, ih hr]
      rfl

theorem readString_append {cs r s : Text} (h : readString cs = some (s, r)) (ext : Text) :
    readString (cs ++ ext) = some (s, r ++ ext) := by
  obtain ⟨⟨us, r'⟩, hu, he⟩ := Option.map_eq_some_iff.mp h
  cases he
  simp [readString, readUnits_append hu]

theorem readDigits_append {cs ds r : Text} (h : readDigits cs = some (ds, r)) (hr : r ≠ [])
    (ext : Text) : readDigits (cs ++ ext) = some (ds, r ++ ext) := by
  unfold readDigits at h ⊢
  split at h
  · cases h
  · rename_i hne
    cases h
    rw [List.takeWhile_append, List.dropWhile_append]
    have hd : (cs.dropWhile Char.isDigit).isEmpty = false := by simpa using hr
    have ht : (cs.takeWhile Char.isDigit).length ≠ cs.length := by
      intro he
      have hlen := congrArg List.length (List.takeWhile_append_dropWhile (p := Char.isDigit)
        (l := cs))
      rw [List.length_append, he] at hlen
      exact hr (List.eq_nil_of_length_eq_zero (by omega))
    rw [if_neg ht, hd, if_neg hne]
    rfl

theorem readIntPart_append {cs ds r : Text} (h : readIntPart cs = some (ds, r)) (hr : r ≠ [])
    (ext : Text) : readIntPart (cs ++ ext) = some (ds, r ++ ext) := by
  unfold readIntPart at h ⊢
  cases hd : readDigits cs with
  | none => simp [hd] at h
  | some p =>
    rw [hd] at h
    dsimp only at h
    split at h
    · cases h
    · rename_i hz
      cases h
      rw [readDigits_append hd hr]
      exact if_neg hz

theorem readFraction_append {cs ds r : Text} (h : readFraction cs = some (ds, r)) (hr : r ≠ [])
    (ext : Text) : readFraction (cs ++ ext) = some (ds, r ++ ext) := by
  cases cs with
  | nil =>
    cases h
    exact absurd rfl hr
  | cons c cs =>
    by_cases hc : c = '.'
    · subst hc
      exact readDigits_append h hr ext
    · unfold readFraction at h ⊢
      rw [List.cons_append]
      split at h
      · rename_i heq
        cases heq
        exact absurd rfl hc
      · cases h
        split
        · rename_i heq
          cases heq
          exact absurd rfl hc
        · rfl

theorem readExponent_append {cs r : Text} {e : Option ℤ} (h : readExponent cs = some (e, r))
    (hr : r ≠ []) (ext : Text) : readExponent (cs ++ ext) = some (e, r ++ ext) := by
  cases cs with
  | nil =>
    cases h
    exact absurd rfl hr
  | cons c cs =>
    unfold readExponent at h ⊢
    rw [List.cons_append]
    dsimp only at h ⊢
    split at h
    · rename_i hc
      rw [if_pos hc]
      split at h
      case _ cs =>
        obtain ⟨⟨ds, r'⟩, hd, he⟩ := Option.map_eq_some_iff.mp h
        cases he
        simp [readDigits_append hd hr]
      case _ cs =>
        obtain ⟨⟨ds, r'⟩, hd, he⟩ := Option.map_eq_some_iff.mp h
        cases he
        simp [readDigits_append hd hr]
      -- no sign, and none is there in the longer text either
      case _ hm hp =>
        obtain ⟨⟨ds, r'⟩, hd, he⟩ := Option.map_eq_some_iff.mp h
        cases he
        cases cs with
        | nil => cases hd
        | cons d cs =>
          rw [List.cons_append]
          split
          · rename_i heq
            cases heq
            exact absurd rfl (hm cs)
          · rename_i heq
            cases heq
            exact absurd rfl (hp cs)
          · rw [← List.cons_append, readDigits_append hd hr]
            rfl
    · rename_i hc
      cases h
      rw [if_neg hc]
      rfl

theorem readUnsigned_append {neg : Bool} {cs r : Text} {v : Json}
    (h : readUnsigned neg cs = some (v, r)) (hr : r ≠ []) (ext : Text) :
    readUnsigned neg (cs ++ ext) = some (v, r ++ ext) := by
  unfold readUnsigned at h ⊢
  cases hw : readIntPart cs with
  | none => simp [hw] at h
  | some w =>
    obtain ⟨whole, cs₁⟩ := w
    simp only [hw] at h
    cases hf : readFraction cs₁ with
    | none => simp [hf] at h
    | some f =>
      obtain ⟨fraction, cs₂⟩ := f
      simp only [hf] at h
      cases he : readExponent cs₂ with
      | none => simp [he] at h
      | some e =>
        obtain ⟨exponent, cs₃⟩ := e
        simp only [he] at h
        have hr₃ : cs₃ = r := by
          split at h <;> cases h <;> rfl
        have h₃ : cs₃ ≠ [] := hr₃ ▸ hr
        -- what follows the number follows each part of it
        have h₂ : cs₂ ≠ [] := by
          rintro rfl
          cases he
          exact h₃ rfl
        have h₁ : cs₁ ≠ [] := by
          rintro rfl
          cases hf
          exact h₂ rfl
        simp only [readIntPart_append hw h₁, readFraction_append hf h₂, readExponent_append he h₃]
        split at h <;> cases h <;> simp_all

theorem readNumber_append {cs r : Text} {v : Json} (h : readNumber cs = some (v, r))
    (hr : r ≠ []) (ext : Text) : readNumber (cs ++ ext) = some (v, r ++ ext) := by
  cases cs with
  | nil => cases h
  | cons c cs =>
    unfold readNumber at h ⊢
    rw [List.cons_append]
    split at h
    · rename_i heq
      cases heq
      exact readUnsigned_append h hr ext
    · rename_i hc
      split
      · rename_i heq
        cases heq
        exact absurd rfl (hc cs)
      · exact readUnsigned_append h hr ext

theorem readWord_append {cs r : Text} {v : Json} (h : readWord cs = some (v, r)) (ext : Text) :
    readWord (cs ++ ext) = some (v, r ++ ext) := by
  unfold readWord at h
  split at h <;> cases h <;> rfl

/-! ## Values -/

def isNumber : Json → Bool
  | int _ => true
  | double _ _ => true
  | _ => false

theorem isNumber_ofInteger (n : ℤ) : (ofInteger n).isNumber = true := by
  unfold ofInteger
  split <;> rfl

theorem isNumber_readUnsigned {neg : Bool} {cs r : Text} {v : Json}
    (h : readUnsigned neg cs = some (v, r)) : v.isNumber = true := by
  unfold readUnsigned at h
  split at h
  · cases h
  split at h
  · cases h
  split at h
  · cases h
  dsimp only at h
  split at h <;> cases h
  · exact isNumber_ofInteger _
  · rfl

theorem isNumber_readNumber {cs r : Text} {v : Json} (h : readNumber cs = some (v, r)) :
    v.isNumber = true := by
  unfold readNumber at h
  split at h <;> exact isNumber_readUnsigned h

/-- Only a number can be continued by the text after it. -/
def Closed (v : Json) (rest : Text) : Prop := rest ≠ [] ∨ v.isNumber = false

section Items

variable {α : Type}

/-- `read'` reads what `read` reads, also when text is appended. -/
def Continues (read read' : Text → Option (α × Text)) : Prop :=
  ∀ cs r a, read cs = some (a, r) → ∀ ext, read' (cs ++ ext) = some (a, r ++ ext)

/-- What an object or an array is read from after its bracket. -/
def readItems (close : Char) (read : Text → Option (List α × Text)) (wrap : List α → Json)
    (cs : Text) : Option (Json × Text) :=
  match skipWs cs with
  | [] => none
  | c :: rest =>
    if c = close then some (wrap [], rest)
    else (read (c :: rest)).map fun p => (wrap p.1, p.2)

/-- What follows an item: a comma and more items, or the closing bracket. -/
def readRest (close : Char) (read : Text → Option (List α × Text)) (x : α) (cs : Text) :
    Option (List α × Text) :=
  match skipWs cs with
  | [] => none
  | c :: rest =>
    if c = ',' then (read rest).map fun p => (x :: p.1, p.2)
    else if c = close then some ([x], rest)
    else none

variable {close : Char} {read read' : Text → Option (List α × Text)} {cs r : Text}

theorem readItems_append (hread : Continues read read') {wrap : List α → Json} {v : Json}
    (h : readItems close read wrap cs = some (v, r)) (ext : Text) :
    readItems close read' wrap (cs ++ ext) = some (v, r ++ ext) := by
  unfold readItems at h ⊢
  cases hs : skipWs cs with
  | nil => simp [hs] at h
  | cons c rest =>
    simp only [hs] at h
    simp only [skipWs_append_of_cons hs]
    by_cases hc : c = close
    · rw [if_pos hc] at h ⊢
      cases h
      rfl
    · rw [if_neg hc] at h ⊢
      obtain ⟨⟨xs, r'⟩, hr, he⟩ := Option.map_eq_some_iff.mp h
      cases he
      rw [← List.cons_append, hread _ _ _ hr]
      rfl

theorem readRest_append (hread : Continues read read') {x : α} {xs : List α}
    (h : readRest close read x cs = some (xs, r)) (ext : Text) :
    readRest close read' x (cs ++ ext) = some (xs, r ++ ext) := by
  unfold readRest at h ⊢
  cases hs : skipWs cs with
  | nil => simp [hs] at h
  | cons c rest =>
    simp only [hs] at h
    simp only [skipWs_append_of_cons hs]
    by_cases hcomma : c = ','
    · rw [if_pos hcomma] at h ⊢
      obtain ⟨⟨ys, r'⟩, hr, he⟩ := Option.map_eq_some_iff.mp h
      cases he
      rw [hread _ _ _ hr]
      rfl
    rw [if_neg hcomma] at h ⊢
    by_cases hc : c = close
    · rw [if_pos hc] at h ⊢
      cases h
      rfl
    · rw [if_neg hc] at h
      cases h

theorem isNumber_readItems {wrap : List α → Json} (hwrap : ∀ xs, (wrap xs).isNumber = false)
    {v : Json} (h : readItems close read wrap cs = some (v, r)) : v.isNumber = false := by
  unfold readItems at h
  split at h
  · cases h
  split at h
  · cases h
    exact hwrap []
  · obtain ⟨p, -, he⟩ := Option.map_eq_some_iff.mp h
    cases he
    exact hwrap p.1

/-- An item is followed by something. -/
theorem ne_nil_of_readRest {x : α} {xs : List α} (h : readRest close read x cs = some (xs, r)) :
    cs ≠ [] := by
  rintro rfl
  cases h

end Items

theorem readMembers_nil (n : ℕ) : readMembers n [] = none := by
  cases n with
  | zero => rw [readMembers]
  | succ n =>
    rw [readMembers]
    rfl

theorem readElements_nil (n : ℕ) : readElements n [] = none := by
  cases n with
  | zero => rw [readElements]
  | succ n =>
    cases n with
    | zero => rw [readElements, readValue]
    | succ n =>
      rw [readElements, readValue]
      rfl

/-- What `readValue` does once the white space before the value is gone. -/
theorem readValue_succ {n : ℕ} {cs rest : Text} {c : Char} (h : skipWs cs = c :: rest) :
    readValue (n + 1) cs =
      if c = '"' then (readString rest).map fun p => (str p.1, p.2)
      else if c = '{' then readItems '}' (readMembers n) obj rest
      else if c = '[' then readItems ']' (readElements n) arr rest
      else if c.isAlpha then readWord (c :: rest)
      else readNumber (c :: rest) := by
  rw [readValue]
  generalize skipWs cs = trimmed at h
  subst h
  dsimp only
  unfold readItems
  split_ifs with hs hm he
  · rfl
  · cases skipWs rest with
    | nil => simp [readMembers_nil]
    | cons d r => split <;> simp_all
  · cases skipWs rest with
    | nil => simp [readElements_nil]
    | cons d r => split <;> simp_all
  · rfl
  · rfl

theorem readRest_members (n : ℕ) (key : Text) (v : Json) (cs : Text) :
    (match skipWs cs with
      | ',' :: cs => (readMembers n cs).map fun p => ((key, v) :: p.1, p.2)
      | '}' :: rest => some ([(key, v)], rest)
      | _ => none) = readRest '}' (readMembers n) (key, v) cs := by
  unfold readRest
  cases skipWs cs with
  | nil => rfl
  | cons c rest => split <;> simp_all

theorem readElements_succ {n : ℕ} {cs : Text} :
    readElements (n + 1) cs =
      (readValue n cs).bind fun p => readRest ']' (readElements n) p.1 p.2 := by
  rw [readElements]
  cases readValue n cs with
  | none => rfl
  | some p =>
    obtain ⟨v, cs₁⟩ := p
    dsimp only [Option.bind_some]
    unfold readRest
    cases skipWs cs₁ with
    | nil => rfl
    | cons c rest => split <;> simp_all

section Steps

variable {n m : ℕ}

/-- A value, by its first character. -/
theorem readValue_step (hm : Continues (readMembers n) (readMembers m))
    (he : Continues (readElements n) (readElements m)) {cs r : Text} {v : Json}
    (h : readValue (n + 1) cs = some (v, r)) (hv : Closed v r) (ext : Text) :
    readValue (m + 1) (cs ++ ext) = some (v, r ++ ext) := by
  cases hs : skipWs cs with
  | nil =>
    rw [readValue] at h
    simp [hs] at h
  | cons c rest =>
    rw [readValue_succ hs] at h
    rw [readValue_succ (skipWs_append_of_cons hs ext)]
    by_cases h₁ : c = '"'
    · rw [if_pos h₁] at h ⊢
      obtain ⟨⟨s, r'⟩, hr, heq⟩ := Option.map_eq_some_iff.mp h
      cases heq
      simp [readString_append hr]
    rw [if_neg h₁] at h ⊢
    by_cases h₂ : c = '{'
    · rw [if_pos h₂] at h ⊢
      exact readItems_append hm h ext
    rw [if_neg h₂] at h ⊢
    by_cases h₃ : c = '['
    · rw [if_pos h₃] at h ⊢
      exact readItems_append he h ext
    rw [if_neg h₃] at h ⊢
    by_cases h₄ : c.isAlpha
    · rw [if_pos h₄] at h ⊢
      exact readWord_append h ext
    · rw [if_neg h₄] at h ⊢
      have hr : r ≠ [] := hv.resolve_right (by simp [isNumber_readNumber h])
      exact readNumber_append h hr ext

variable (hv : ∀ cs r v, readValue n cs = some (v, r) → Closed v r → ∀ ext,
  readValue m (cs ++ ext) = some (v, r ++ ext))

include hv

theorem readMembers_step (hm : Continues (readMembers n) (readMembers m)) :
    Continues (readMembers (n + 1)) (readMembers (m + 1)) := by
  intro cs r ms h ext
  rw [readMembers] at h ⊢
  split at h
  case h_2 => cases h
  rename_i cs₁ hs
  split at h
  · cases h
  rename_i key cs₂ hk
  split at h
  case h_2 => cases h
  rename_i cs₃ hc
  split at h
  · cases h
  rename_i v cs₄ hval
  have hrest := (readRest_members n key v cs₄).symm.trans h
  have hval' := hv _ _ _ hval (.inl (ne_nil_of_readRest hrest)) ext
  simp only [skipWs_append_of_cons hs, readString_append hk, skipWs_append_of_cons hc, hval']
  exact (readRest_members m key v _).trans (readRest_append hm hrest ext)

theorem readElements_step (he : Continues (readElements n) (readElements m)) :
    Continues (readElements (n + 1)) (readElements (m + 1)) := by
  intro cs r vs h ext
  rw [readElements_succ] at h ⊢
  obtain ⟨⟨v, cs₁⟩, hval, h⟩ := Option.bind_eq_some_iff.mp h
  rw [hv _ _ _ hval (.inl (ne_nil_of_readRest h)) ext]
  exact readRest_append he h ext

end Steps

/-- **Appending text**: a value, the members of an object and the elements of an array that were
read stay read, with any fuel from there on. -/
theorem readValue_append : ∀ n m : ℕ, n ≤ m →
    (∀ cs r v, readValue n cs = some (v, r) → Closed v r → ∀ ext,
      readValue m (cs ++ ext) = some (v, r ++ ext)) ∧
    Continues (readMembers n) (readMembers m) ∧ Continues (readElements n) (readElements m) := by
  intro n
  induction n with
  | zero =>
    refine fun m _ => ⟨fun cs r v h => ?_, fun cs r ms h => ?_, fun cs r vs h => ?_⟩
    · rw [readValue] at h
      cases h
    · rw [readMembers] at h
      cases h
    · rw [readElements] at h
      cases h
  | succ n ih =>
    intro m hm
    obtain ⟨m, rfl⟩ : ∃ k, m = k + 1 := ⟨m - 1, by omega⟩
    obtain ⟨ihv, ihm, ihe⟩ := ih m (by omega)
    exact ⟨fun cs r v => readValue_step ihm ihe, readMembers_step ihv ihm, readElements_step ihv ihe⟩

/-- A text that starts with a brace is read as an object. -/
theorem isNumber_of_brace {n : ℕ} {cs r : Text} {v : Json}
    (h : readValue n ('{' :: cs) = some (v, r)) : v.isNumber = false := by
  cases n with
  | zero =>
    rw [readValue] at h
    cases h
  | succ n =>
    rw [readValue_succ (show skipWs ('{' :: cs) = '{' :: cs by rfl)] at h
    rw [if_neg (by decide), if_pos rfl] at h
    exact isNumber_readItems (fun _ => rfl) h

/-- **A cut text is no text**: when `t` starts with a brace and is read to its end, no strict
initial part of `t` is read as a complete text. -/
theorem decode_cut {t s : Text} {v : Json} (hb : t.head? = some '{')
    (ht : readValue (t.length + 1) t = some (v, [])) (hs : s <+: t) (hne : s ≠ t) :
    decode s = none := by
  obtain ⟨ext, rfl⟩ := hs
  cases s with
  | nil => rfl
  | cons c s =>
    obtain rfl : c = '{' := by simpa using hb
    rw [decode]
    cases hr : readValue (('{' :: s).length + 1) ('{' :: s) with
    | none => rfl
    | some p =>
      obtain ⟨v', r⟩ := p
      have hle : ('{' :: s).length + 1 ≤ ('{' :: s ++ ext).length + 1 := by simp
      have happ := (readValue_append _ _ hle).1 _ _ _ hr (Or.inr (isNumber_of_brace hr)) ext
      rw [ht] at happ
      have hnil : r ++ ext = [] := congrArg Prod.snd (Option.some.inj happ).symm
      obtain ⟨-, rfl⟩ := List.append_eq_nil_iff.mp hnil
      exact absurd (List.append_nil _).symm hne

end Json

end Codec
