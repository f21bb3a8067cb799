import CajaSegura.Codec.DateTime
import CajaSegura.Codec.JsonRoundTrip
import CajaSegura.Platform.DartError

/-!
# Metadata of a vault entry

## Main definitions

* `VaultFileMeta`, `VaultFileMeta.make`: the record, and its constructor with assertions on or off
* `VaultFileMeta.toJson`, `VaultFileMeta.fromJson`

## Main results

* `VaultFileMeta.fromJson_toJson`: reading back what was written
-/

namespace CajaSegura

open Codec

structure VaultFileMeta where
  id : Text
  originalName : Text
  mimeType : Text
  originalSize : ℤ
  createdAt : DateTime
  dekWrappedB64 : Text
  dekWrapIvB64 : Text
  fileIvB64 : Text
  deriving DecidableEq

/-! ## Numbers and casts -/

/-- `a / b` rounded to the nearest integer, half to even. -/
def roundHalfEven (a b : ℕ) : ℕ :=
  if 2 * (a % b) < b ∨ 2 * (a % b) = b ∧ a / b % 2 = 0 then a / b else a / b + 1

/-- The integer part of the double nearest to `a / b`; `none` if that is infinite. -/
@[irreducible] def truncDouble (a b : ℕ) : Option ℕ :=
  let k₀ : ℤ := (Nat.log2 a : ℤ) - Nat.log2 b - 52
  -- the exponent at which the quotient has 53 bits
  let k : ℤ := if a * 2 ^ (-k₀).toNat / (b * 2 ^ k₀.toNat) < 2 ^ 52 then k₀ - 1 else k₀
  let q := roundHalfEven (a * 2 ^ (-k).toNat) (b * 2 ^ k.toNat)
  let n := q * 2 ^ k.toNat / 2 ^ (-k).toNat
  if n < 2 ^ 1024 then some n else none

/-- `toInt` of the double nearest to `m * 10 ^ e`, clamped to 64 bits. -/
@[irreducible] def doubleToInt (m e : ℤ) : Option ℤ :=
  (truncDouble (m.natAbs * 10 ^ e.toNat) (10 ^ (-e).toNat)).map fun n =>
    if m < 0 then max (-n) (-2 ^ 63) else min n (2 ^ 63 - 1)

/-- The name of a value's type in the text of a cast error. -/
def typeName : Json → Text
  | .null => "Null".toList
  | .bool _ => "bool".toList
  | .int _ => "int".toList
  | .double .. => "double".toList
  | .str _ => "String".toList
  | .arr _ => "List<dynamic>".toList
  | .obj _ => "_Map<String, dynamic>".toList

/-- `j as Map<String, dynamic>`. -/
def asMap : Json → Except DartError (List (Text × Json))
  | .obj ms => .ok ms
  | j => .error (.cast (typeName j) "Map<String, dynamic>".toList)

/-- `v as String? ?? ''`. -/
def asText : Option Json → Except DartError Text
  | none | some .null => .ok []
  | some (.str s) => .ok s
  | some j => .error (.cast (typeName j) "String?".toList)

/-- `(v as num?)?.toInt() ?? 0`. -/
def asInt : Option Json → Except DartError ℤ
  | none | some .null => .ok 0
  | some (.int n) => .ok n
  | some (.double m e) =>
    match doubleToInt m e with
    | some n => .ok n
    | none => .error (.unsupported "Infinity or NaN toInt".toList)
  | some j => .error (.cast (typeName j) "num?".toList)

/-- `v != null ? DateTime.parse(v as String) : DateTime.now()`. -/
def asDateTime (z : Zone) (now : DateTime) : Option Json → Except DartError DateTime
  | none | some .null => .ok now
  | some (.str s) =>
    match DateTime.parse z s with
    | some d => .ok d
    | none => .error (.format ("Invalid date format\n".toList ++ s))
  | some j => .error (.cast (typeName j) "String".toList)

namespace VaultFileMeta

/-- What the constructor asserts. -/
def assertions (m : VaultFileMeta) : List (Bool × Text) :=
  [(m.id != [], "ID cannot be empty".toList),
    (m.originalName != [], "Original name cannot be empty".toList),
    (m.mimeType != [], "MIME type cannot be empty".toList),
    (decide (0 ≤ m.originalSize), "Original size cannot be negative".toList),
    (m.dekWrappedB64 != [], "DEK wrapped cannot be empty".toList),
    (m.dekWrapIvB64 != [], "DEK wrap IV cannot be empty".toList),
    (m.fileIvB64 != [], "File IV cannot be empty".toList)]

/-- The constructor; assertions are checked in debug builds. -/
def make (asserts : Bool) (m : VaultFileMeta) : Except DartError VaultFileMeta :=
  match m.assertions.find? fun a => !a.1 with
  | some a => if asserts then .error (.assertion a.2) else .ok m
  | none => .ok m

def toJson (z : Zone) (m : VaultFileMeta) : List (Text × Json.Plain) :=
  [("id".toList, .text m.id),
    ("originalName".toList, .text m.originalName),
    ("mimeType".toList, .text m.mimeType),
    ("originalSize".toList, .int m.originalSize),
    ("createdAt".toList, .text (m.createdAt.toIso8601String z)),
    ("dekWrappedB64".toList, .text m.dekWrappedB64),
    ("dekWrapIvB64".toList, .text m.dekWrapIvB64),
    ("fileIvB64".toList, .text m.fileIvB64)]

/-- The arguments of the constructor in the order in which they are evaluated, and the call. -/
def parse (asserts : Bool) (z : Zone) (now : DateTime) (j : List (Text × Json)) :
    Except DartError VaultFileMeta := do
  let id ← asText (Json.lookup j "id".toList)
  let originalName ← asText (Json.lookup j "originalName".toList)
  let mimeType ← asText (Json.lookup j "mimeType".toList)
  let originalSize ← asInt (Json.lookup j "originalSize".toList)
  let createdAt ← asDateTime z now (Json.lookup j "createdAt".toList)
  let dekWrappedB64 ← asText (Json.lookup j "dekWrappedB64".toList)
  let dekWrapIvB64 ← asText (Json.lookup j "dekWrapIvB64".toList)
  let fileIvB64 ← asText (Json.lookup j "fileIvB64".toList)
  make asserts { id, originalName, mimeType, originalSize, createdAt, dekWrappedB64, dekWrapIvB64,
                 fileIvB64 }

def fromJson (asserts : Bool) (z : Zone) (now : DateTime) (j : List (Text × Json)) :
    Except DartError VaultFileMeta :=
  match parse asserts z now j with
  | .ok m => .ok m
  | .error e => .error (.format ("Error parsing VaultFileMeta from JSON: ".toList ++ e.toText))

/-- The assertions hold. -/
def Valid (m : VaultFileMeta) : Prop := ∀ a ∈ m.assertions, a.1 = true

theorem make_of_valid {m : VaultFileMeta} (h : m.Valid) (asserts : Bool) :
    make asserts m = .ok m := by
  have hf : (m.assertions.find? fun a => !a.1) = none := by
    rw [List.find?_eq_none]
    intro a ha
    simp [h a ha]
  rw [make, hf]

/-- A record that the constructor lets through when assertions are on satisfies them. -/
theorem valid_of_make {m m' : VaultFileMeta} (h : make true m = .ok m') : m' = m ∧ m.Valid := by
  unfold make at h
  split at h
  · rw [if_pos rfl] at h
    cases h
  · rename_i hf
    cases h
    refine ⟨rfl, fun a ha => ?_⟩
    have := List.find?_eq_none.mp hf a ha
    simpa using this

theorem make_eq_ok {asserts : Bool} {m m' : VaultFileMeta} (h : make asserts m = .ok m') :
    m' = m := by
  unfold make at h
  split at h
  · split at h
    · cases h
    · cases h
      rfl
  · cases h
    rfl

theorem make_eq_error {asserts : Bool} {m : VaultFileMeta} {e : DartError}
    (h : make asserts m = .error e) : asserts = true ∧ ¬ m.Valid := by
  refine ⟨?_, fun hv => ?_⟩
  · unfold make at h
    split at h
    · split at h
      · assumption
      · cases h
    · cases h
  · rw [make_of_valid hv] at h
    cases h

/-- The record with another time of creation. -/
def withCreatedAt (m : VaultFileMeta) (d : DateTime) : VaultFileMeta := { m with createdAt := d }

/-- The assertions do not look at the time. -/
theorem make_withCreatedAt {asserts : Bool} {m : VaultFileMeta} (hm : make asserts m = .ok m)
    (d : DateTime) : make asserts (m.withCreatedAt d) = .ok (m.withCreatedAt d) := by
  have hfind : ((m.withCreatedAt d).assertions.find? fun a => !a.1) =
      m.assertions.find? fun a => !a.1 := rfl
  unfold make at hm ⊢
  rw [hfind]
  split at hm
  · split at hm
    · cases hm
    · rename_i hasserts
      exact if_neg hasserts
  · rfl

theorem parse_toJson {asserts : Bool} (z z' : Zone) (now : DateTime) (m : VaultFileMeta) :
    parse asserts z' now (Json.readBack (m.toJson z)) =
      (do
        let originalSize ← asInt (some (Json.ofInteger m.originalSize))
        let createdAt ← asDateTime z' now (some (.str (m.createdAt.toIso8601String z)))
        make asserts { m with originalSize, createdAt }) := by
  have h₁ : Json.lookup (Json.readBack (m.toJson z)) "id".toList = some (.str m.id) := rfl
  have h₂ : Json.lookup (Json.readBack (m.toJson z)) "originalName".toList =
      some (.str m.originalName) := rfl
  have h₃ : Json.lookup (Json.readBack (m.toJson z)) "mimeType".toList =
      some (.str m.mimeType) := rfl
  have h₄ : Json.lookup (Json.readBack (m.toJson z)) "originalSize".toList =
      some (Json.ofInteger m.originalSize) := rfl
  have h₅ : Json.lookup (Json.readBack (m.toJson z)) "createdAt".toList =
      some (.str (m.createdAt.toIso8601String z)) := rfl
  have h₆ : Json.lookup (Json.readBack (m.toJson z)) "dekWrappedB64".toList =
      some (.str m.dekWrappedB64) := rfl
  have h₇ : Json.lookup (Json.readBack (m.toJson z)) "dekWrapIvB64".toList =
      some (.str m.dekWrapIvB64) := rfl
  have h₈ : Json.lookup (Json.readBack (m.toJson z)) "fileIvB64".toList =
      some (.str m.fileIvB64) := rfl
  unfold parse
  rw [h₁, h₂, h₃, h₄, h₅, h₆, h₇, h₈]
  rfl

theorem asInt_ofInteger {n : ℤ} (h : -2 ^ 63 ≤ n ∧ n < 2 ^ 63) :
    asInt (some (Json.ofInteger n)) = .ok n := by
  rw [Json.ofInteger, if_pos h]
  rfl

/-- **Reading back what was written**, in a zone which may be another one: the time of creation is
what the clock has shown, read in the second zone. -/
theorem fromJson_toJson {asserts : Bool} {z z' : Zone} (now : DateTime) {m : VaultFileMeta}
    (hm : make asserts m = .ok m) (hd : m.createdAt.isUtc = false)
    (hs : -2 ^ 63 ≤ m.originalSize ∧ m.originalSize < 2 ^ 63) {d : DateTime}
    (hz : DateTime.ofWall z' (m.createdAt.wall z) = some d) :
    fromJson asserts z' now (Json.readBack (m.toJson z)) = .ok (m.withCreatedAt d) := by
  have hdate : asDateTime z' now (some (.str (m.createdAt.toIso8601String z))) = .ok d := by
    rw [asDateTime, DateTime.parse_toIso8601String z z' hd, hz]
  have hp : parse asserts z' now (Json.readBack (m.toJson z)) = make asserts (m.withCreatedAt d) := by
    rw [parse_toJson, asInt_ofInteger hs, hdate]
    rfl
  rw [fromJson, hp, make_withCreatedAt hm]

/-- A time that is no instant in the second zone is not read. -/
theorem fromJson_toJson_none {asserts : Bool} {z z' : Zone} (now : DateTime) {m : VaultFileMeta}
    (hd : m.createdAt.isUtc = false)
    (hs : -2 ^ 63 ≤ m.originalSize ∧ m.originalSize < 2 ^ 63)
    (hz : DateTime.ofWall z' (m.createdAt.wall z) = none) :
    ∃ e, fromJson asserts z' now (Json.readBack (m.toJson z)) = .error e := by
  have hdate : ∃ e, asDateTime z' now (some (.str (m.createdAt.toIso8601String z))) = .error e := by
    rw [asDateTime, DateTime.parse_toIso8601String z z' hd, hz]
    exact ⟨_, rfl⟩
  obtain ⟨e, hdate⟩ := hdate
  rw [fromJson, parse_toJson, asInt_ofInteger hs, hdate]
  exact ⟨_, rfl⟩

/-- The record as it is read back in the zone in which it was written. -/
def reread (z : Zone) (m : VaultFileMeta) : VaultFileMeta := m.withCreatedAt (m.createdAt.reread z)

end VaultFileMeta

end CajaSegura
