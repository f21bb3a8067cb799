import Mathlib.Algebra.Group.Nat.Defs
import Mathlib.Algebra.Ring.Int.Defs
import Mathlib.Tactic.Common

/-!
# Base64

The standard alphabet with padding, as a strict decoder reads it: groups of four digits, the
URL-safe ones accepted beside the standard ones, no stray bits before the padding, and the escape
`%3D` accepted for a padding character.

## Main definitions

* `Bytes`, `Text`: byte strings and character strings
* `Base64.encode`, `Base64.decode`

## Main results

* `Base64.decode_encode`: decoding inverts encoding
-/

namespace Codec

/-- A byte string. -/
abbrev Bytes := List UInt8

/-- A character string. -/
abbrev Text := List Char

namespace Base64

/-- The digit of the standard alphabet with value `n`. -/
def digit (n : ℕ) : Char :=
  "ABCDEFGHIJKLMNOPQRSTUVWXYZabcdefghijklmnopqrstuvwxyz0123456789+/".toList.getD n '='

/-- The value of a digit, in the standard or the URL-safe alphabet. -/
def value (c : Char) : Option ℕ :=
  if 'A' ≤ c ∧ c ≤ 'Z' then some (c.toNat - 'A'.toNat)
  else if 'a' ≤ c ∧ c ≤ 'z' then some (c.toNat - 'a'.toNat + 26)
  else if '0' ≤ c ∧ c ≤ '9' then some (c.toNat - '0'.toNat + 52)
  else if c = '+' ∨ c = '-' then some 62
  else if c = '/' ∨ c = '_' then some 63
  else none

/-- Three bytes make four digits; the last group is padded. -/
def encode : Bytes → Text
  | a :: b :: c :: rest =>
    digit (a.toNat / 4) :: digit (a.toNat % 4 * 16 + b.toNat / 16) ::
      digit (b.toNat % 16 * 4 + c.toNat / 64) :: digit (c.toNat % 64) :: encode rest
  | [a, b] =>
    [digit (a.toNat / 4), digit (a.toNat % 4 * 16 + b.toNat / 16), digit (b.toNat % 16 * 4), '=']
  | [a] => [digit (a.toNat / 4), digit (a.toNat % 4 * 16), '=', '=']
  | [] => []

/-- What follows a padding character, which may be escaped. -/
def afterPad : Text → Option Text
  | '=' :: rest => some rest
  | '%' :: '3' :: 'D' :: rest => some rest
  | '%' :: '3' :: 'd' :: rest => some rest
  | _ => none

/-- The inverse of `encode`; `none` where the decoder throws. -/
def decode : Text → Option Bytes
  | [] => some []
  | c₀ :: c₁ :: c₂ :: c₃ :: rest =>
    match value c₀, value c₁, value c₂, value c₃ with
    | some v₀, some v₁, some v₂, some v₃ =>
      (decode rest).map fun bs => UInt8.ofNat (v₀ * 4 + v₁ / 16) ::
        UInt8.ofNat (v₁ % 16 * 16 + v₂ / 4) :: UInt8.ofNat (v₂ % 4 * 64 + v₃) :: bs
    | some v₀, some v₁, some v₂, none =>
      if afterPad (c₃ :: rest) = some [] ∧ v₂ % 4 = 0 then
        some [UInt8.ofNat (v₀ * 4 + v₁ / 16), UInt8.ofNat (v₁ % 16 * 16 + v₂ / 4)]
      else none
    | some v₀, some v₁, none, _ =>
      if (afterPad (c₂ :: c₃ :: rest)).bind afterPad = some [] ∧ v₁ % 16 = 0 then
        some [UInt8.ofNat (v₀ * 4 + v₁ / 16)]
      else none
    | _, _, _, _ => none
  | _ => none

theorem value_digit {n : ℕ} (hn : n < 64) : value (digit n) = some n := by
  have key : ∀ m : Fin 64, value (digit m) = some m.val := by decide +kernel
  exact key ⟨n, hn⟩

theorem value_pad : value '=' = none := by decide

theorem ofNat_eq_of_toNat {a : UInt8} {n : ℕ} (h : n = a.toNat) : UInt8.ofNat n = a := by
  rw [h, UInt8.ofNat_toNat]

/-- Decoding inverts encoding. -/
theorem decode_encode (bs : Bytes) : decode (encode bs) = some bs := by
  induction bs using encode.induct with
  | case1 a b c rest ih =>
    have ha := a.toNat_lt
    have hb := b.toNat_lt
    have hc := c.toNat_lt
    rw [encode, decode, value_digit (by omega), value_digit (by omega), value_digit (by omega),
      value_digit (by omega)]
    simp only [ih, Option.map_some]
    rw [ofNat_eq_of_toNat (a := a) (by omega), ofNat_eq_of_toNat (a := b) (by omega),
      ofNat_eq_of_toNat (a := c) (by omega)]
  | case2 a b =>
    have ha := a.toNat_lt
    have hb := b.toNat_lt
    rw [encode, decode, value_digit (by omega), value_digit (by omega), value_digit (by omega),
      value_pad]
    have hpad : afterPad ['='] = some [] ∧ b.toNat % 16 * 4 % 4 = 0 := ⟨rfl, by omega⟩
    simp only [if_pos hpad]
    rw [ofNat_eq_of_toNat (a := a) (by omega), ofNat_eq_of_toNat (a := b) (by omega)]
  | case3 a =>
    have ha := a.toNat_lt
    rw [encode, decode, value_digit (by omega), value_digit (by omega), value_pad]
    have hpad : (afterPad ['=', '=']).bind afterPad = some [] ∧ a.toNat % 4 * 16 % 16 = 0 :=
      ⟨rfl, by omega⟩
    simp only [if_pos hpad]
    rw [ofNat_eq_of_toNat (a := a) (by omega)]
  | case4 => rfl

example : decode "AA%3D%3D".toList = some [0] := by decide

theorem encode_ne_nil {bs : Bytes} (h : bs ≠ []) : encode bs ≠ [] := by
  intro he
  have hd := decode_encode bs
  rw [he] at hd
  exact h (Option.some.inj hd).symm

end Base64

end Codec
