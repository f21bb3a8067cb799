import CajaSegura.Codec.Base64

/-!
# UTF-8

## Main definitions

* `Utf8.encode`, `Utf8.decode`: the strict codec; the decoder drops a byte order mark

## Main results

* `Utf8.decode_encode`: decoding inverts encoding where the text starts with no mark
* `Utf8.decode_cut`: what an initial part of the bytes of a text decodes to is an initial part of
  the text
-/

namespace Codec.Utf8

/-- The bytes of a text. -/
def encode (t : Text) : Bytes := t.flatMap String.utf8EncodeChar

/-- The characters of well-formed bytes. -/
def characters (b : Bytes) : Option Text := b.toByteArray.utf8Decode?.map Array.toList

/-- The byte order mark. -/
def mark : Char := '\uFEFF'

/-- The text without the mark at its start. -/
def unmarked : Text → Text
  | [] => []
  | c :: t => if c = mark then t else c :: t

/-- The text of well-formed bytes; a mark at the start is not part of it. -/
def decode (b : Bytes) : Option Text := (characters b).map unmarked

theorem unmarked_of_head {t : Text} (h : t.head? ≠ some mark) : unmarked t = t := by
  cases t with
  | nil => rfl
  | cons c t => exact if_neg fun hc => h (congrArg some hc)

theorem toByteArray_encode (t : Text) : (encode t).toByteArray = t.utf8Encode := rfl

theorem characters_encode (t : Text) : characters (encode t) = some t := by
  rw [characters, toByteArray_encode, List.utf8Decode?_utf8Encode]
  simp

/-- Decoding inverts encoding. -/
theorem decode_encode {t : Text} (h : t.head? ≠ some mark) : decode (encode t) = some t := by
  rw [decode, characters_encode, Option.map_some, unmarked_of_head h]

/-- Only the bytes of a text have its characters. -/
theorem encode_of_characters {b : Bytes} {t : Text} (h : characters b = some t) :
    encode t = b := by
  obtain ⟨a, ha, rfl⟩ := Option.map_eq_some_iff.mp h
  have hs : b.toByteArray.utf8Decode?.isSome = true := by rw [ha]; rfl
  have he := ByteArray.utf8Encode_get_utf8Decode? (b := b.toByteArray) (h := hs)
  rw [← List.toByteArray_inj, toByteArray_encode, ← he]
  congr 2
  exact Option.some.inj ((Option.some_get hs).trans ha).symm

/-- A strict initial part of the bytes of `t` that decodes is the bytes of a strict initial part
of `t`. -/
theorem decode_cut {b : Bytes} {t s : Text} (ht : t.head? ≠ some mark) (hp : b <+: encode t)
    (hne : b ≠ encode t) (h : decode b = some s) : s <+: t ∧ s ≠ t := by
  obtain ⟨s', hs', rfl⟩ := Option.map_eq_some_iff.mp h
  have hs := encode_of_characters hs'
  obtain ⟨rest, hr⟩ := hp
  have hinit : s' <+: t := by
    refine List.isPrefix_of_utf8Encode_append_eq_utf8Encode rest.toByteArray ?_
    rw [← toByteArray_encode, ← toByteArray_encode, hs, ← List.toByteArray_append, hr]
  -- an initial part of a text without a mark has none either
  have hmark : s'.head? ≠ some mark := by
    obtain ⟨r, rfl⟩ := hinit
    cases s' with
    | nil => exact fun h => by cases h
    | cons c s' => exact ht
  rw [unmarked_of_head hmark]
  exact ⟨hinit, fun he => hne (by rw [← hs, he])⟩

end Codec.Utf8
