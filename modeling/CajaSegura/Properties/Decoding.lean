import CajaSegura.Models.VaultFile

/-!
# What the reader of metadata accepts

## Main definitions

* `VaultFileMeta.Malformed`: an object that no build reads
* `VaultFileMeta.Complete`: an object whose record satisfies the assertions

## Main results

* `VaultFileMeta.fromJson_valid_iff`: the builds agree, and accept valid records only, on the
  objects that are malformed or complete and on no others
-/

namespace CajaSegura

open Codec

/-! ## The casts -/

theorem asText_eq_error (v : Option Json) :
    (∃ e, asText v = .error e) ↔ ∃ j, v = some j ∧ j ≠ .null ∧ ∀ s, j ≠ .str s := by
  rcases v with _ | (_ | _ | _ | _ | _ | _ | _) <;> simp [asText]

theorem asText_nonempty (v : Option Json) (s : Text) :
    asText v = .ok s ∧ s ≠ [] ↔ v = some (.str s) ∧ s ≠ [] := by
  rcases v with _ | (_ | _ | _ | _ | _ | _ | _) <;> simp +contextual [asText, eq_comm]

theorem asInt_double_eq_none {m e : ℤ} (h : doubleToInt m e = none) :
    asInt (some (.double m e)) = .error (.unsupported "Infinity or NaN toInt".toList) := by
  rw [asInt, h]

theorem asInt_double_eq_some {m e n : ℤ} (h : doubleToInt m e = some n) :
    asInt (some (.double m e)) = .ok n := by
  rw [asInt, h]

theorem asInt_eq_error (v : Option Json) :
    (∃ e, asInt v = .error e) ↔ ∃ j, v = some j ∧ j ≠ .null ∧ (∀ n, j ≠ .int n) ∧
      ∀ m e, j = .double m e → doubleToInt m e = none := by
  rcases v with _ | (_ | _ | _ | ⟨m, e⟩ | _ | _ | _)
  case some.double =>
    rcases Option.eq_none_or_eq_some (doubleToInt m e) with h | ⟨k, h⟩
    · simp [asInt_double_eq_none h, h]
    · simp [asInt_double_eq_some h, h]
  all_goals simp [asInt]

/-- A size read is not negative if the number it is read from is not. -/
theorem asInt_nonneg {v : Option Json} {n : ℤ} (h : asInt v = .ok n) :
    0 ≤ n ↔ (∀ k, v = some (.int k) → 0 ≤ k) ∧
      ∀ m e k, v = some (.double m e) → doubleToInt m e = some k → 0 ≤ k := by
  rcases v with _ | (_ | _ | k | ⟨m, e⟩ | _ | _ | _)
  case some.double =>
    rcases Option.eq_none_or_eq_some (doubleToInt m e) with hk | ⟨k, hk⟩
    · simp [asInt_double_eq_none hk] at h
    · rw [asInt_double_eq_some hk, Except.ok.injEq] at h
      subst h
      constructor
      · intro hn
        refine ⟨by simp, fun m' e' k' hv hk' => ?_⟩
        cases hv
        rw [hk] at hk'
        cases hk'
        exact hn
      · exact fun hd => hd.2 m e k rfl hk
  all_goals
    simp only [asInt, Except.ok.injEq, reduceCtorEq] at h
    try simp [← h]

theorem asDateTime_eq_error (z : Zone) (now : DateTime) (v : Option Json) :
    (∃ e, asDateTime z now v = .error e) ↔ ∃ j, v = some j ∧ j ≠ .null ∧
      ∀ s, j = .str s → DateTime.parse z s = none := by
  rcases v with _ | (_ | _ | _ | _ | s | _ | _) <;> simp [asDateTime]
  cases DateTime.parse z s <;> simp

theorem exists_ok_iff {ε α : Type} (x : Except ε α) : (∃ a, x = .ok a) ↔ ¬ ∃ e, x = .error e := by
  cases x <;> simp

namespace VaultFileMeta

/-! ## Objects -/

/-- The members read as strings. -/
def textKeys : List Text :=
  ["id".toList, "originalName".toList, "mimeType".toList, "dekWrappedB64".toList,
    "dekWrapIvB64".toList, "fileIvB64".toList]

/-- A member is there, is not null, and is not what the reader takes there. -/
inductive Malformed (z : Zone) (j : List (Text × Json)) : Prop
  | text (key : Text) (hkey : key ∈ textKeys) (v : Json) (hv : Json.lookup j key = some v)
      (hnull : v ≠ .null) (hstr : ∀ s, v ≠ .str s)
  | size (v : Json) (hv : Json.lookup j "originalSize".toList = some v) (hnull : v ≠ .null)
      (hint : ∀ n, v ≠ .int n) (hdouble : ∀ m e, v = .double m e → doubleToInt m e = none)
  | date (v : Json) (hv : Json.lookup j "createdAt".toList = some v) (hnull : v ≠ .null)
      (hdate : ∀ s, v = .str s → DateTime.parse z s = none)

/-- The strings are there and are not empty, and the size, if it is there, is not negative. -/
structure Complete (j : List (Text × Json)) : Prop where
  text : ∀ key ∈ textKeys, ∃ s, Json.lookup j key = some (.str s) ∧ s ≠ []
  int : ∀ n, Json.lookup j "originalSize".toList = some (.int n) → 0 ≤ n
  double : ∀ m e n, Json.lookup j "originalSize".toList = some (.double m e) →
    doubleToInt m e = some n → 0 ≤ n

/-- `m` is the record of the members of `j`. -/
structure Reads (z : Zone) (now : DateTime) (j : List (Text × Json)) (m : VaultFileMeta) :
    Prop where
  id : asText (Json.lookup j "id".toList) = .ok m.id
  originalName : asText (Json.lookup j "originalName".toList) = .ok m.originalName
  mimeType : asText (Json.lookup j "mimeType".toList) = .ok m.mimeType
  originalSize : asInt (Json.lookup j "originalSize".toList) = .ok m.originalSize
  createdAt : asDateTime z now (Json.lookup j "createdAt".toList) = .ok m.createdAt
  dekWrappedB64 : asText (Json.lookup j "dekWrappedB64".toList) = .ok m.dekWrappedB64
  dekWrapIvB64 : asText (Json.lookup j "dekWrapIvB64".toList) = .ok m.dekWrapIvB64
  fileIvB64 : asText (Json.lookup j "fileIvB64".toList) = .ok m.fileIvB64

variable {asserts : Bool} {z : Zone} {now : DateTime} {j : List (Text × Json)} {m : VaultFileMeta}

theorem valid_iff (m : VaultFileMeta) :
    m.Valid ↔ m.id ≠ [] ∧ m.originalName ≠ [] ∧ m.mimeType ≠ [] ∧ 0 ≤ m.originalSize ∧
      m.dekWrappedB64 ≠ [] ∧ m.dekWrapIvB64 ≠ [] ∧ m.fileIvB64 ≠ [] := by
  simp [Valid, assertions]

theorem exists_reads_iff : (∃ m, Reads z now j m) ↔ ¬ Malformed z j := by
  constructor
  -- a field of the wrong kind has no value that could be read
  · rintro ⟨m, h⟩ hj
    have htext : ∀ key ∈ textKeys, ∃ s, asText (Json.lookup j key) = .ok s := by
      simp only [textKeys, List.forall_mem_cons]
      exact ⟨⟨_, h.id⟩, ⟨_, h.originalName⟩, ⟨_, h.mimeType⟩, ⟨_, h.dekWrappedB64⟩,
        ⟨_, h.dekWrapIvB64⟩, ⟨_, h.fileIvB64⟩, fun _ ht => nomatch ht⟩
    cases hj with
    | text key hkey v hv hnull hstr =>
      exact (exists_ok_iff _).mp (htext key hkey) ((asText_eq_error _).mpr ⟨v, hv, hnull, hstr⟩)
    | size v hv hnull hint hdouble =>
      exact (exists_ok_iff _).mp ⟨_, h.originalSize⟩
        ((asInt_eq_error _).mpr ⟨v, hv, hnull, hint, hdouble⟩)
    | date v hv hnull hdate =>
      exact (exists_ok_iff _).mp ⟨_, h.createdAt⟩
        ((asDateTime_eq_error z now _).mpr ⟨v, hv, hnull, hdate⟩)
  -- without such a field each one is read, and together they are the metadata
  · intro hj
    have htext : ∀ key ∈ textKeys, ∃ s, asText (Json.lookup j key) = .ok s := by
      intro key hkey
      refine (exists_ok_iff _).mpr fun he => hj ?_
      obtain ⟨v, hv, hnull, hstr⟩ := (asText_eq_error _).mp he
      exact .text key hkey v hv hnull hstr
    have hsize : ∃ n, asInt (Json.lookup j "originalSize".toList) = .ok n := by
      refine (exists_ok_iff _).mpr fun he => hj ?_
      obtain ⟨v, hv, hnull, hint, hdouble⟩ := (asInt_eq_error _).mp he
      exact .size v hv hnull hint hdouble
    have hdate : ∃ d, asDateTime z now (Json.lookup j "createdAt".toList) = .ok d := by
      refine (exists_ok_iff _).mpr fun he => hj ?_
      obtain ⟨v, hv, hnull, hdate⟩ := (asDateTime_eq_error z now _).mp he
      exact .date v hv hnull hdate
    simp only [textKeys, List.forall_mem_cons] at htext
    obtain ⟨⟨id, h₁⟩, ⟨name, h₂⟩, ⟨mime, h₃⟩, ⟨wrapped, h₆⟩, ⟨wrapIv, h₇⟩, ⟨fileIv, h₈⟩, -⟩ := htext
    obtain ⟨size, h₄⟩ := hsize
    obtain ⟨date, h₅⟩ := hdate
    exact ⟨⟨id, name, mime, size, date, wrapped, wrapIv, fileIv⟩, h₁, h₂, h₃, h₄, h₅, h₆, h₇, h₈⟩

theorem Reads.valid_iff_complete (h : Reads z now j m) : m.Valid ↔ Complete j := by
  have hsize := asInt_nonneg h.originalSize
  rw [valid_iff]
  constructor
  · rintro ⟨h₁, h₂, h₃, h₄, h₆, h₇, h₈⟩
    refine ⟨?_, (hsize.mp h₄).1, (hsize.mp h₄).2⟩
    simp only [textKeys, List.forall_mem_cons]
    exact ⟨⟨_, (asText_nonempty _ _).mp ⟨h.id, h₁⟩⟩, ⟨_, (asText_nonempty _ _).mp ⟨h.2, h₂⟩⟩,
      ⟨_, (asText_nonempty _ _).mp ⟨h.3, h₃⟩⟩, ⟨_, (asText_nonempty _ _).mp ⟨h.6, h₆⟩⟩,
      ⟨_, (asText_nonempty _ _).mp ⟨h.7, h₇⟩⟩, ⟨_, (asText_nonempty _ _).mp ⟨h.8, h₈⟩⟩,
      fun _ ht => nomatch ht⟩
  · rintro ⟨htext, hint, hdouble⟩
    have hne : ∀ key ∈ textKeys, ∀ s, asText (Json.lookup j key) = .ok s → s ≠ [] := by
      intro key hkey s hs
      obtain ⟨t, ht, hne⟩ := htext key hkey
      rw [ht] at hs
      cases hs
      exact hne
    simp only [textKeys, List.forall_mem_cons] at hne
    obtain ⟨h₁, h₂, h₃, h₆, h₇, h₈, -⟩ := hne
    exact ⟨h₁ _ h.id, h₂ _ h.originalName, h₃ _ h.mimeType, hsize.mpr ⟨hint, hdouble⟩,
      h₆ _ h.dekWrappedB64, h₇ _ h.dekWrapIvB64, h₈ _ h.fileIvB64⟩

/-! ## The reader -/

theorem Reads.parse (h : Reads z now j m) : parse asserts z now j = make asserts m := by
  unfold VaultFileMeta.parse
  rw [h.id, h.originalName, h.mimeType, h.originalSize, h.createdAt, h.dekWrappedB64,
    h.dekWrapIvB64, h.fileIvB64]
  rfl

theorem reads_of_parse (h : VaultFileMeta.parse asserts z now j = .ok m) : Reads z now j m := by
  unfold VaultFileMeta.parse at h
  obtain ⟨id, h₁, h⟩ := bind_eq_ok h
  obtain ⟨name, h₂, h⟩ := bind_eq_ok h
  obtain ⟨mime, h₃, h⟩ := bind_eq_ok h
  obtain ⟨size, h₄, h⟩ := bind_eq_ok h
  obtain ⟨date, h₅, h⟩ := bind_eq_ok h
  obtain ⟨wrapped, h₆, h⟩ := bind_eq_ok h
  obtain ⟨wrapIv, h₇, h⟩ := bind_eq_ok h
  obtain ⟨fileIv, h₈, h⟩ := bind_eq_ok h
  obtain rfl := make_eq_ok h
  exact ⟨h₁, h₂, h₃, h₄, h₅, h₆, h₇, h₈⟩

theorem fromJson_eq_ok :
    fromJson asserts z now j = .ok m ↔ VaultFileMeta.parse asserts z now j = .ok m := by
  unfold fromJson
  cases VaultFileMeta.parse asserts z now j <;> simp

/-- The reader throws nothing but format errors. -/
theorem fromJson_eq_error {e : DartError} (h : fromJson asserts z now j = .error e) :
    ∃ t, e = .format t := by
  unfold fromJson at h
  split at h
  · cases h
  · cases h
    exact ⟨_, rfl⟩

/-- The reader throws a format error or returns a record that satisfies the assertions. -/
def Validates (asserts : Bool) (z : Zone) (now : DateTime) (j : List (Text × Json)) : Prop :=
  (∃ t, fromJson asserts z now j = .error (.format t)) ∨
    ∃ m, fromJson asserts z now j = .ok m ∧ m.Valid

/-- The reader returns a record. -/
def Accepts (asserts : Bool) (z : Zone) (now : DateTime) (j : List (Text × Json)) : Prop :=
  ∃ m, fromJson asserts z now j = .ok m

theorem validates_of_not_accepts (h : ¬ Accepts asserts z now j) :
    Validates asserts z now j := by
  cases hr : fromJson asserts z now j with
  | error e =>
    obtain ⟨t, rfl⟩ := fromJson_eq_error hr
    exact .inl ⟨t, hr⟩
  | ok m => exact (h ⟨m, hr⟩).elim

theorem Malformed.not_accepts (h : Malformed z j) : ¬ Accepts asserts z now j := by
  rintro ⟨m, hm⟩
  exact exists_reads_iff.mp ⟨m, reads_of_parse (fromJson_eq_ok.mp hm)⟩ h

/-- Without assertions every object that can be read is accepted, as the record of its members. -/
theorem Reads.fromJson_release (h : Reads z now j m) : fromJson false z now j = .ok m := by
  rw [fromJson_eq_ok, h.parse, make]
  split <;> rfl

/-- With assertions only a valid record is accepted. -/
theorem Reads.accepts_debug_iff (h : Reads z now j m) : Accepts true z now j ↔ m.Valid := by
  unfold Accepts
  simp only [fromJson_eq_ok, h.parse]
  constructor
  · rintro ⟨m', hm'⟩
    exact (valid_of_make hm').2
  · exact fun hv => ⟨m, make_of_valid hv true⟩

/-- **What is accepted.** For every object, both builds throw a format error or return a valid
record and both accept it or neither does, exactly when it is malformed or complete. -/
theorem fromJson_valid_iff (z : Zone) (now : DateTime) (j : List (Text × Json)) :
    ((∀ asserts, Validates asserts z now j) ∧ (Accepts true z now j ↔ Accepts false z now j)) ↔
      Malformed z j ∨ Complete j := by
  by_cases hj : Malformed z j
  · refine iff_of_true ⟨fun _ => validates_of_not_accepts hj.not_accepts, ?_⟩ (.inl hj)
    exact iff_of_false hj.not_accepts hj.not_accepts
  obtain ⟨m, hm⟩ : ∃ m, Reads z now j m := exists_reads_iff.mpr hj
  have hrelease := hm.fromJson_release
  rw [← hm.valid_iff_complete]
  constructor
  · rintro ⟨-, haccepts⟩
    exact .inr (hm.accepts_debug_iff.mp (haccepts.mpr ⟨m, hrelease⟩))
  · rintro (hmal | hvalid)
    · exact (hj hmal).elim
    · -- the record of a complete object passes the assertions, so the builds do the same
      have hmake : ∀ asserts, fromJson asserts z now j = .ok m := fun asserts => by
        rw [fromJson_eq_ok, hm.parse, make_of_valid hvalid]
      exact ⟨fun asserts => .inr ⟨m, hmake asserts, hvalid⟩,
        iff_of_true ⟨m, hmake true⟩ ⟨m, hmake false⟩⟩

/-- The empty object is accepted without assertions, as a record without an id. -/
theorem fromJson_accepts_empty :
    ¬ ∀ (z : Zone) (now : DateTime) (j : List (Text × Json)),
      (∀ asserts, Validates asserts z now j) ∧ (Accepts true z now j ↔ Accepts false z now j) := by
  intro h
  let z : Zone := .fixed 0 (by decide)
  let now : DateTime := Instant.local ⟨0, by decide⟩
  obtain ⟨-, haccepts⟩ := h z now []
  have hrelease : fromJson false z now [] = .ok ⟨[], [], [], 0, now, [], [], []⟩ := rfl
  obtain ⟨m, hm⟩ := haccepts.mpr ⟨_, hrelease⟩
  have hreads := reads_of_parse (fromJson_eq_ok.mp hm)
  have hid : m.id = [] := (Except.ok.inj hreads.id).symm
  have hvalid := hreads.accepts_debug_iff.mp ⟨m, hm⟩
  exact ((valid_iff m).mp hvalid).1 hid

end VaultFileMeta

end CajaSegura
