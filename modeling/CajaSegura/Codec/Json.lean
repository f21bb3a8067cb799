import CajaSegura.Codec.Base64

/-!
# JSON texts

The reader of JSON texts, and the writer of flat objects of strings and integers. Characters are
Unicode scalar values; a lone surrogate in an escape is read as the replacement character.

## Main definitions

* `Json`: what a reader returns; numbers with a fraction or an exponent are exact decimals
* `Json.decode`: the reader
* `Json.Plain`, `Json.encodeObject`: the writer
-/

namespace Codec

/-- A JSON value. `double m e` is the number `m * 10 ^ e`. -/
inductive Json
  | null
  | bool (b : Bool)
  | int (n : ℤ)
  | double (m e : ℤ)
  | str (s : Text)
  | arr (xs : List Json)
  | obj (members : List (Text × Json))

namespace Json

/-- The value at a key: a later member replaces an earlier one of the same key. -/
def lookup (members : List (Text × Json)) (key : Text) : Option Json :=
  (members.reverse.find? fun m => m.1 = key).map Prod.snd

/-! ## Reading -/

/-- White space between tokens. -/
def isWs (c : Char) : Bool := c = ' ' || c = '\t' || c = '\n' || c = '\r'

def skipWs (cs : Text) : Text := cs.dropWhile isWs

/-- The value of a hexadecimal digit. -/
def hexValue (c : Char) : Option ℕ :=
  if '0' ≤ c ∧ c ≤ '9' then some (c.toNat - '0'.toNat)
  else if 'a' ≤ c ∧ c ≤ 'f' then some (c.toNat - 'a'.toNat + 10)
  else if 'A' ≤ c ∧ c ≤ 'F' then some (c.toNat - 'A'.toNat + 10)
  else none

/-- The code unit of `\uabcd`. -/
def hexUnit (a b c d : Char) : Option ℕ :=
  match hexValue a, hexValue b, hexValue c, hexValue d with
  | some a, some b, some c, some d => some (((a * 16 + b) * 16 + c) * 16 + d)
  | _, _, _, _ => none

/-- The code unit of a one-letter escape. -/
def escapeUnit (c : Char) : Option ℕ :=
  if c = '"' ∨ c = '\\' ∨ c = '/' then some c.toNat
  else if c = 'b' then some 8
  else if c = 'f' then some 12
  else if c = 'n' then some 10
  else if c = 'r' then some 13
  else if c = 't' then some 9
  else none

/-- The characters of a sequence of code points in which a pair of surrogates is one character. -/
def ofUnits : List ℕ → Text
  | hi :: lo :: rest =>
    if 0xD800 ≤ hi ∧ hi < 0xDC00 ∧ 0xDC00 ≤ lo ∧ lo < 0xE000 then
      Char.ofNat (0x10000 + (hi - 0xD800) * 0x400 + (lo - 0xDC00)) :: ofUnits rest
    else (if hi.isValidChar then Char.ofNat hi else Char.ofNat 0xFFFD) :: ofUnits (lo :: rest)
  | [u] => [if u.isValidChar then Char.ofNat u else Char.ofNat 0xFFFD]
  | [] => []

/-- The code points of a string after its opening quote, and the text after its closing one. -/
def readUnits : Text → Option (List ℕ × Text)
  | [] => none
  | c :: cs =>
    if c = '"' then some ([], cs)
    else if c = '\\' then
      match cs with
      | [] => none
      | e :: cs =>
        if e = 'u' then
          match cs with
          | h₁ :: h₂ :: h₃ :: h₄ :: cs =>
            match hexUnit h₁ h₂ h₃ h₄, readUnits cs with
            | some u, some (us, rest) => some (u :: us, rest)
            | _, _ => none
          | _ => none
        else
          match escapeUnit e, readUnits cs with
          | some u, some (us, rest) => some (u :: us, rest)
          | _, _ => none
    else if c.toNat < 0x20 then none
    else (readUnits cs).map fun p => (c.toNat :: p.1, p.2)

theorem readUnits_quote (cs : Text) : readUnits ('"' :: cs) = some ([], cs) := by
  rw [readUnits.eq_def]
  rfl

theorem readUnits_hex {h₁ h₂ h₃ h₄ : Char} {u : ℕ} (hu : hexUnit h₁ h₂ h₃ h₄ = some u)
    (cs : Text) : readUnits ('\\' :: 'u' :: h₁ :: h₂ :: h₃ :: h₄ :: cs) =
      (readUnits cs).map fun p => (u :: p.1, p.2) := by
  rw [readUnits.eq_def]
  simp only [hu]
  cases h : readUnits cs <;> simp

theorem readUnits_escape {e : Char} {u : ℕ} (he : e ≠ 'u') (hu : escapeUnit e = some u)
    (cs : Text) : readUnits ('\\' :: e :: cs) = (readUnits cs).map fun p => (u :: p.1, p.2) := by
  rw [readUnits.eq_def]
  simp only [hu, if_neg he]
  cases h : readUnits cs <;> simp

theorem readUnits_plain {c : Char} (hq : c ≠ '"') (hb : c ≠ '\\') (hc : ¬ c.toNat < 0x20)
    (cs : Text) : readUnits (c :: cs) = (readUnits cs).map fun p => (c.toNat :: p.1, p.2) := by
  rw [readUnits.eq_def]
  simp only [if_neg hq, if_neg hb, if_neg hc]

def readString (cs : Text) : Option (Text × Text) :=
  (readUnits cs).map fun p => (ofUnits p.1, p.2)

/-- A nonempty run of digits and the text after it. -/
def readDigits (cs : Text) : Option (Text × Text) :=
  if cs.takeWhile Char.isDigit = [] then none
  else some (cs.takeWhile Char.isDigit, cs.dropWhile Char.isDigit)

/-- The integer part: no leading zero before another digit. -/
def readIntPart (cs : Text) : Option (Text × Text) :=
  match readDigits cs with
  | some (ds, rest) => if ds.head? = some '0' ∧ ds.length ≠ 1 then none else some (ds, rest)
  | none => none

/-- The digits of the fraction, none if there is no point. -/
def readFraction : Text → Option (Text × Text)
  | '.' :: cs => readDigits cs
  | cs => some ([], cs)

/-- The exponent, if there is one. -/
def readExponent : Text → Option (Option ℤ × Text)
  | c :: cs =>
    if c = 'e' ∨ c = 'E' then
      match cs with
      | '-' :: cs => (readDigits cs).map fun p => (some (-(Nat.ofDigitChars 10 p.1 0 : ℤ)), p.2)
      | '+' :: cs => (readDigits cs).map fun p => (some (Nat.ofDigitChars 10 p.1 0 : ℤ), p.2)
      | cs => (readDigits cs).map fun p => (some (Nat.ofDigitChars 10 p.1 0 : ℤ), p.2)
    else some (none, c :: cs)
  | [] => some (none, [])

/-- An integer literal outside the 64-bit range is read as a double. -/
def ofInteger (n : ℤ) : Json := if -2 ^ 63 ≤ n ∧ n < 2 ^ 63 then int n else double n 0

/-- A number without its sign. -/
def readUnsigned (neg : Bool) (cs : Text) : Option (Json × Text) :=
  match readIntPart cs with
  | none => none
  | some (whole, cs) =>
    match readFraction cs with
    | none => none
    | some (fraction, cs) =>
      match readExponent cs with
      | none => none
      | some (exponent, cs) =>
        let m : ℤ := (if neg then -1 else 1) * (Nat.ofDigitChars 10 (whole ++ fraction) 0 : ℤ)
        if fraction = [] ∧ exponent = none then some (ofInteger m, cs)
        else some (double m (exponent.getD 0 - fraction.length), cs)

def readNumber : Text → Option (Json × Text)
  | '-' :: cs => readUnsigned true cs
  | cs => readUnsigned false cs

/-- A word of letters that stands for a value. -/
def readWord (cs : Text) : Option (Json × Text) :=
  match cs with
  | 't' :: 'r' :: 'u' :: 'e' :: rest => some (bool true, rest)
  | 'f' :: 'a' :: 'l' :: 's' :: 'e' :: rest => some (bool false, rest)
  | 'n' :: 'u' :: 'l' :: 'l' :: rest => some (null, rest)
  | _ => none

mutual

/-- A value and the text after it. Every nested call is given less fuel. -/
def readValue : ℕ → Text → Option (Json × Text)
  | 0, _ => none
  | n + 1, cs =>
    match skipWs cs with
    | [] => none
    | c :: cs =>
      if c = '"' then (readString cs).map fun p => (str p.1, p.2)
      else if c = '{' then
        match skipWs cs with
        | '}' :: rest => some (obj [], rest)
        | cs => (readMembers n cs).map fun p => (obj p.1, p.2)
      else if c = '[' then
        match skipWs cs with
        | ']' :: rest => some (arr [], rest)
        | cs => (readElements n cs).map fun p => (arr p.1, p.2)
      else if c.isAlpha then readWord (c :: cs)
      else readNumber (c :: cs)

/-- The members of an object after its brace, up to its closing brace. -/
def readMembers : ℕ → Text → Option (List (Text × Json) × Text)
  | 0, _ => none
  | n + 1, cs =>
    match skipWs cs with
    | '"' :: cs =>
      match readString cs with
      | none => none
      | some (key, cs) =>
        match skipWs cs with
        | ':' :: cs =>
          match readValue n cs with
          | none => none
          | some (v, cs) =>
            match skipWs cs with
            | ',' :: cs => (readMembers n cs).map fun p => ((key, v) :: p.1, p.2)
            | '}' :: rest => some ([(key, v)], rest)
            | _ => none
        | _ => none
    | _ => none

/-- The elements of an array after its bracket, up to its closing bracket. -/
def readElements : ℕ → Text → Option (List Json × Text)
  | 0, _ => none
  | n + 1, cs =>
    match readValue n cs with
    | none => none
    | some (v, cs) =>
      match skipWs cs with
      | ',' :: cs => (readElements n cs).map fun p => (v :: p.1, p.2)
      | ']' :: rest => some ([v], rest)
      | _ => none

end

/-- The value of a complete text. Every call reads a character, so the length is fuel enough. -/
def decode (t : Text) : Option Json :=
  match readValue (t.length + 1) t with
  | some (v, rest) => if skipWs rest = [] then some v else none
  | none => none

/-! ## Writing -/

/-- The values the writer is given. -/
inductive Plain
  | text (s : Text)
  | int (n : ℤ)

/-- The value a reader returns for a written one. -/
def Plain.toJson : Plain → Json
  | .text s => .str s
  | .int n => ofInteger n

def hexDigit (n : ℕ) : Char := "0123456789abcdef".toList.getD n '0'

/-- The writer escapes quotes, backslashes and the control characters below the space. -/
def escapeChar (c : Char) : Text :=
  if c = '"' then ['\\', '"']
  else if c = '\\' then ['\\', '\\']
  else if c.toNat = 8 then ['\\', 'b']
  else if c.toNat = 9 then ['\\', 't']
  else if c.toNat = 10 then ['\\', 'n']
  else if c.toNat = 12 then ['\\', 'f']
  else if c.toNat = 13 then ['\\', 'r']
  else if c.toNat < 0x20 then ['\\', 'u', '0', '0', hexDigit (c.toNat / 16), hexDigit (c.toNat % 16)]
  else [c]

def encodeString (s : Text) : Text := '"' :: s.flatMap escapeChar ++ ['"']

def encodeInt (n : ℤ) : Text :=
  if n < 0 then '-' :: Nat.toDigits 10 n.natAbs else Nat.toDigits 10 n.natAbs

def Plain.encode : Plain → Text
  | .text s => encodeString s
  | .int n => encodeInt n

def encodeMember (m : Text × Plain) : Text := encodeString m.1 ++ ':' :: m.2.encode

/-- The members separated by commas. -/
def encodeMembers : List (Text × Plain) → Text
  | [] => []
  | [m] => encodeMember m
  | m :: ms => encodeMember m ++ ',' :: encodeMembers ms

/-- The text of a flat object. -/
def encodeObject (ms : List (Text × Plain)) : Text := '{' :: encodeMembers ms ++ ['}']

end Json

end Codec
