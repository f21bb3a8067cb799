import CajaSegura.Codec.Base64
import Mathlib.Data.List.TakeWhile

/-!
# Time stamps

A `DateTime` is an instant, with the flag that says whether its fields are shown in UTC or in the
zone of the device. The text of a local time stamp shows its wall-clock fields and no offset, and a
reader takes such a text in the zone then current.

## Main definitions

* `Instant`, `DateTime`, `Zone`: instants within the platform's range, and offsets from UTC
* `civilOfDays`, `daysOfCivil`: the proleptic Gregorian calendar
* `DateTime.toIso8601String`, `DateTime.parse`

## Main results

* `daysOfCivil_civilOfDays`: the calendar has an inverse
* `DateTime.parse_toIso8601String`: a local time stamp written in one zone and read in another
-/

namespace Codec

/-- The largest distance of an instant from 1970-01-01T00:00Z, in microseconds. -/
def maxMicros : ℤ := 8640000000000000000

def dayMicros : ℤ := 86400000000

/-- An instant in microseconds since 1970-01-01T00:00Z. -/
structure Instant where
  micros : ℤ
  inRange : -maxMicros ≤ micros ∧ micros ≤ maxMicros
  deriving DecidableEq

/-- An instant, and whether it is shown in UTC. -/
structure DateTime extends Instant where
  isUtc : Bool
  deriving DecidableEq

/-- The time stamp of an instant in the zone of the device. -/
def Instant.local (t : Instant) : DateTime := { toInstant := t, isUtc := false }

/-- The rules of a time zone, in microseconds: the offset from UTC that is in force at an instant, and
the instant as which a time of the local clock is read. -/
structure Zone where
  offset : ℤ → ℤ
  instantOf : ℤ → ℤ
  inRange : ∀ t, -dayMicros < offset t ∧ offset t < dayMicros
  instantOf_inRange : ∀ t, -maxMicros ≤ t ∧ t ≤ maxMicros →
    -maxMicros ≤ instantOf (t + offset t) ∧ instantOf (t + offset t) ≤ maxMicros

/-- A zone whose offset never changes. -/
def Zone.fixed (offset : ℤ) (h : -dayMicros < offset ∧ offset < dayMicros) : Zone where
  offset _ := offset
  instantOf wall := wall - offset
  inRange _ := h
  instantOf_inRange t ht := by simpa using ht

/-! ## The calendar -/

/-- The fields of a calendar day. -/
@[ext] structure Civil where
  year : ℤ
  month : ℤ
  day : ℤ

/-- The year of an era of 400 years, counted from March, and the day of that year. -/
def yearOfEra (doe : ℤ) : ℤ × ℤ :=
  let century := min (doe / 36524) 3
  let doc := doe - 36524 * century
  let year := min (doc % 1461 / 365) 3
  (100 * century + 4 * (doc / 1461) + year, doc % 1461 - 365 * year)

/-- The calendar day of a day of a year counted from March; January and February belong to the
next calendar year. -/
def civilOfMarch (year doy : ℤ) : Civil :=
  if (5 * doy + 2) / 153 < 10 then
    { year := year
      month := (5 * doy + 2) / 153 + 3
      day := doy - (153 * ((5 * doy + 2) / 153) + 2) / 5 + 1 }
  else
    { year := year + 1
      month := (5 * doy + 2) / 153 - 9
      day := doy - (153 * ((5 * doy + 2) / 153) + 2) / 5 + 1 }

/-- The calendar day of a number of days since 1970-01-01. -/
def civilOfDays (days : ℤ) : Civil :=
  civilOfMarch
    (400 * ((days + 719468) / 146097) + (yearOfEra ((days + 719468) % 146097)).1)
    (yearOfEra ((days + 719468) % 146097)).2

/-- The days from 1970-01-01 to a day of a month, which may lie outside the month. -/
def daysOfCivil (c : Civil) : ℤ :=
  let year := if c.month ≤ 2 then c.year - 1 else c.year
  let mp := if c.month ≤ 2 then c.month + 9 else c.month - 3
  365 * year + year / 4 - year / 100 + year / 400 + (153 * mp + 2) / 5 + c.day - 1 - 719468

theorem yearOfEra_bounds (doe : ℤ) (h₀ : 0 ≤ doe) (h₁ : doe < 146097) :
    0 ≤ (yearOfEra doe).1 ∧ (yearOfEra doe).1 < 400 ∧ 0 ≤ (yearOfEra doe).2 ∧
      (yearOfEra doe).2 ≤ 365 := by
  simp only [yearOfEra]
  omega

/-- The leap days of `c` centuries, `q` cycles of four years and `y` years. -/
theorem leapDays {c q y : ℤ} (hq : 0 ≤ q ∧ q ≤ 24) (hy : 0 ≤ y ∧ y ≤ 3) :
    (100 * c + 4 * q + y) / 4 = 25 * c + q ∧ (100 * c + 4 * q + y) / 100 = c := by
  omega

theorem yearOfEra_days (doe : ℤ) (h₀ : 0 ≤ doe) (h₁ : doe < 146097) :
    365 * (yearOfEra doe).1 + (yearOfEra doe).1 / 4 - (yearOfEra doe).1 / 100 +
      (yearOfEra doe).2 = doe := by
  simp only [yearOfEra]
  have hq : 0 ≤ (doe - 36524 * min (doe / 36524) 3) / 1461 ∧
      (doe - 36524 * min (doe / 36524) 3) / 1461 ≤ 24 := by omega
  have hy : 0 ≤ min ((doe - 36524 * min (doe / 36524) 3) % 1461 / 365) 3 ∧
      min ((doe - 36524 * min (doe / 36524) 3) % 1461 / 365) 3 ≤ 3 := by omega
  obtain ⟨h₄, h₁₀₀⟩ := leapDays hq hy
  rw [h₄, h₁₀₀]
  omega

/-- An era has 97 leap days. -/
theorem eraDays (era : ℤ) {y : ℤ} (hy : 0 ≤ y ∧ y < 400) :
    (400 * era + y) / 4 - (400 * era + y) / 100 + (400 * era + y) / 400 =
      97 * era + y / 4 - y / 100 := by
  omega

theorem civilOfMarch_bounds (year : ℤ) {doy : ℤ} (h : 0 ≤ doy ∧ doy ≤ 365) :
    (1 ≤ (civilOfMarch year doy).month ∧ (civilOfMarch year doy).month ≤ 12) ∧
      1 ≤ (civilOfMarch year doy).day ∧ (civilOfMarch year doy).day ≤ 31 := by
  unfold civilOfMarch
  split <;> dsimp only <;> omega

theorem daysOfCivil_civilOfMarch (year : ℤ) {doy : ℤ} (h : 0 ≤ doy ∧ doy ≤ 365) :
    daysOfCivil (civilOfMarch year doy) =
      365 * year + (year / 4 - year / 100 + year / 400) + doy - 719468 := by
  unfold civilOfMarch daysOfCivil
  split
  · dsimp only
    rw [if_neg (by omega), if_neg (by omega)]
    omega
  · dsimp only
    rw [if_pos (by omega), if_pos (by omega), Int.add_sub_cancel]
    omega

theorem civilOfDays_bounds (days : ℤ) :
    (1 ≤ (civilOfDays days).month ∧ (civilOfDays days).month ≤ 12) ∧
      1 ≤ (civilOfDays days).day ∧ (civilOfDays days).day ≤ 31 := by
  have hb := yearOfEra_bounds ((days + 719468) % 146097) (by omega) (by omega)
  exact civilOfMarch_bounds _ hb.2.2

/-- The calendar has an inverse. -/
theorem daysOfCivil_civilOfDays (days : ℤ) : daysOfCivil (civilOfDays days) = days := by
  have hb := yearOfEra_bounds ((days + 719468) % 146097) (by omega) (by omega)
  have hd := yearOfEra_days ((days + 719468) % 146097) (by omega) (by omega)
  have hdiv := Int.mul_ediv_add_emod (days + 719468) 146097
  rw [civilOfDays, daysOfCivil_civilOfMarch _ hb.2.2, eraDays _ ⟨hb.1, hb.2.1⟩]
  omega

/-! ## Fixed-width numbers -/

/-- The `w` last decimal digits of `n`. -/
def fixed : ℕ → ℕ → Text
  | 0, _ => []
  | w + 1, n => fixed w (n / 10) ++ [Nat.digitChar (n % 10)]

/-- Read exactly `w` digits. -/
def readFixed (w : ℕ) (cs : Text) : Option (ℕ × Text) :=
  if (cs.take w).length = w ∧ (cs.take w).all Char.isDigit then
    some (Nat.ofDigitChars 10 (cs.take w) 0, cs.drop w)
  else none

theorem length_fixed (w n : ℕ) : (fixed w n).length = w := by
  induction w generalizing n with
  | zero => rfl
  | succ w ih => simp [fixed, ih]

theorem all_isDigit_fixed (w n : ℕ) : (fixed w n).all Char.isDigit = true := by
  induction w generalizing n with
  | zero => rfl
  | succ w ih => simp [fixed, ih, Nat.mod_lt]

theorem ofDigitChars_fixed {w n : ℕ} (h : n < 10 ^ w) (a : ℕ) :
    Nat.ofDigitChars 10 (fixed w n) a = a * 10 ^ w + n := by
  induction w generalizing n with
  | zero =>
    rw [Nat.pow_zero] at h
    rw [fixed, Nat.ofDigitChars_nil]
    omega
  | succ w ih =>
    rw [Nat.pow_succ] at h
    rw [fixed, Nat.ofDigitChars_append, ih (by omega),
      Nat.ofDigitChars_cons_digitChar_of_lt_ten (Nat.mod_lt _ (by decide)), Nat.ofDigitChars_nil,
      Nat.pow_succ, ← Nat.mul_assoc]
    omega

theorem readFixed_fixed {w n : ℕ} (h : n < 10 ^ w) (rest : Text) :
    readFixed w (fixed w n ++ rest) = some (n, rest) := by
  have ht : (fixed w n ++ rest).take w = fixed w n := List.take_left' (length_fixed w n)
  have hd : (fixed w n ++ rest).drop w = rest := List.drop_left' (length_fixed w n)
  rw [readFixed, ht, hd, if_pos ⟨length_fixed w n, all_isDigit_fixed w n⟩, ofDigitChars_fixed h,
    Nat.zero_mul, Nat.zero_add]

/-- Too few digits. -/
theorem readFixed_fixed_none {w v n : ℕ} (hv : v < w) {c : Char} (hc : c.isDigit = false)
    (rest : Text) : readFixed w (fixed v n ++ c :: rest) = none := by
  refine if_neg fun h => ?_
  have hmem : c ∈ (fixed v n ++ c :: rest).take w := by
    obtain ⟨k, rfl⟩ := Nat.exists_eq_add_of_lt hv
    rw [show v + k + 1 = (fixed v n).length + (k + 1) by rw [length_fixed]; omega,
      List.take_length_add_append]
    simp
  have := List.all_eq_true.mp h.2 c hmem
  simp [hc] at this

/-! ## Texts of time stamps -/

namespace DateTime

/-- The wall-clock microseconds whose fields are shown. -/
def wall (z : Zone) (d : DateTime) : ℤ :=
  if d.isUtc then d.micros else d.micros + z.offset d.micros

/-- A year in four digits where they are enough, in six otherwise. -/
def yearText (y : ℤ) : Text :=
  if -9999 ≤ y ∧ y ≤ 9999 then (if y < 0 then ['-'] else []) ++ fixed 4 y.natAbs
  else (if y < 0 then '-' else '+') :: fixed 6 y.natAbs

/-- The time of day; the microseconds of the millisecond are shown if there are any. -/
def clockText (tod : ℤ) : Text :=
  fixed 2 (tod / 3600000000).toNat ++ ':' :: (fixed 2 (tod / 60000000 % 60).toNat ++
    ':' :: (fixed 2 (tod / 1000000 % 60).toNat ++ '.' :: (fixed 3 (tod / 1000 % 1000).toNat ++
      if tod % 1000 = 0 then [] else fixed 3 (tod % 1000).toNat)))

/-- `DateTime.toIso8601String` in a zone. -/
def toIso8601String (z : Zone) (d : DateTime) : Text :=
  let c := civilOfDays (d.wall z / dayMicros)
  yearText c.year ++ '-' :: (fixed 2 c.month.toNat ++ '-' :: (fixed 2 c.day.toNat ++
    'T' :: (clockText (d.wall z % dayMicros) ++ if d.isUtc then ['Z'] else [])))

/-- The fields a reader has found. The minutes may lie outside the hour after an offset is
subtracted; `isUtc` says that an offset was given. -/
structure Fields where
  civil : Civil
  hour : ℤ
  minute : ℤ
  second : ℤ
  micros : ℤ
  isUtc : Bool

/-- The instant of fields, of which the month and the smaller ones may lie outside their range. -/
def ofFields (z : Zone) (f : Fields) : Option DateTime :=
  let c : Civil :=
    { year := f.civil.year + (f.civil.month - 1) / 12
      month := (f.civil.month - 1) % 12 + 1
      day := f.civil.day }
  let shown := daysOfCivil c * dayMicros + f.hour * 3600000000 + f.minute * 60000000 +
    f.second * 1000000 + f.micros
  let micros := if f.isUtc then shown else z.instantOf shown
  if h : -maxMicros ≤ micros ∧ micros ≤ maxMicros then some ⟨⟨micros, h⟩, f.isUtc⟩ else none

def skipChar (c : Char) : Text → Text
  | d :: cs => if d = c then cs else d :: cs
  | [] => []

/-- The microseconds of a fraction of a second, cut after six digits. -/
def fractionMicros (ds : Text) : ℤ :=
  Nat.ofDigitChars 10 (ds.take 6) 0 * 10 ^ (6 - (ds.take 6).length)

/-- The offset at the end of a text, in minutes; `none` for no offset. -/
def readOffset (cs : Text) : Option (Option ℤ) :=
  if cs = [] then some none
  else
    match skipChar ' ' cs with
    | [c] => if c = 'z' ∨ c = 'Z' then some (some 0) else none
    | c :: cs =>
      if c = '+' ∨ c = '-' then
        match readFixed 2 cs with
        | some (h, []) => some (some ((if c = '-' then -1 else 1) * (60 * h)))
        | some (h, cs) =>
          match readFixed 2 (skipChar ':' cs) with
          | some (m, []) => some (some ((if c = '-' then -1 else 1) * (60 * h + m)))
          | _ => none
        | none => none
      else none
    | [] => none

/-- The fraction of a second, if there is one. -/
def readFraction : Text → Option (ℤ × Text)
  | c :: cs =>
    if c = '.' ∨ c = ',' then
      if cs.takeWhile Char.isDigit = [] then none
      else some (fractionMicros (cs.takeWhile Char.isDigit), cs.dropWhile Char.isDigit)
    else some (0, c :: cs)
  | [] => some (0, [])

/-- The fields after the day: the time of day and the offset. -/
def readClock (c : Civil) (cs : Text) : Option Fields :=
  match readFixed 2 cs with
  | none => none
  | some (hour, cs₁) =>
    let (minute, second, micros, rest) : ℕ × ℕ × ℤ × Option Text :=
      match readFixed 2 (skipChar ':' cs₁) with
      | none => (0, 0, 0, some cs₁)
      | some (minute, cs₂) =>
        match readFixed 2 (skipChar ':' cs₂) with
        | none => (minute, 0, 0, some cs₂)
        | some (second, cs₃) =>
          match readFraction cs₃ with
          | none => (minute, second, 0, none)
          | some (micros, cs₄) => (minute, second, micros, some cs₄)
    match rest.bind readOffset with
    | none => none
    | some none => some ⟨c, hour, minute, second, micros, false⟩
    | some (some offset) => some ⟨c, hour, minute - offset, second, micros, true⟩

/-- The sign of a year, if there is one. -/
def readSign : Text → Bool × Text
  | c :: cs => if c = '-' then (true, cs) else if c = '+' then (false, cs) else (false, c :: cs)
  | [] => (false, [])

/-- The fields of a text whose year has `w` digits. -/
def readFields (w : ℕ) (t : Text) : Option Fields :=
  match readFixed w (readSign t).2 with
  | none => none
  | some (year, cs) =>
    match readFixed 2 (skipChar '-' cs) with
    | none => none
    | some (month, cs) =>
      match readFixed 2 (skipChar '-' cs) with
      | none => none
      | some (day, cs) =>
        let c : Civil := ⟨if (readSign t).1 then -year else year, month, day⟩
        match cs with
        | [] => some ⟨c, 0, 0, 0, 0, false⟩
        | d :: cs => if d = ' ' ∨ d = 'T' then readClock c cs else none

/-- `DateTime.parse` in a zone: the longest year that lets the rest be read. -/
def parse (z : Zone) (t : Text) : Option DateTime :=
  ((readFields 6 t).or ((readFields 5 t).or (readFields 4 t))).bind (ofFields z)

/-! ### Reading what is written -/

theorem readSign_fixed (w n : ℕ) (t : Text) :
    readSign (fixed (w + 1) n ++ t) = (false, fixed (w + 1) n ++ t) := by
  have hd := all_isDigit_fixed (w + 1) n
  have hl := length_fixed (w + 1) n
  cases h : fixed (w + 1) n with
  | nil => simp [h] at hl
  | cons c cs =>
    rw [h, List.all_cons, Bool.and_eq_true] at hd
    have hm : c ≠ '-' := by rintro rfl; exact absurd hd.1 (by decide)
    have hp : c ≠ '+' := by rintro rfl; exact absurd hd.1 (by decide)
    rw [List.cons_append, readSign, if_neg hm, if_neg hp]

theorem skipChar_self (c : Char) (cs : Text) : skipChar c (c :: cs) = cs := by
  rw [skipChar, if_pos rfl]

theorem fractionMicros_millis {n : ℕ} (h : n < 10 ^ 3) :
    fractionMicros (fixed 3 n) = 1000 * n := by
  rw [fractionMicros, List.take_of_length_le (by rw [length_fixed]; omega), ofDigitChars_fixed h,
    length_fixed]
  omega

theorem fractionMicros_micros {m n : ℕ} (hm : m < 10 ^ 3) (hn : n < 10 ^ 3) :
    fractionMicros (fixed 3 m ++ fixed 3 n) = 1000 * m + n := by
  have hl : (fixed 3 m ++ fixed 3 n).length = 6 := by
    rw [List.length_append, length_fixed, length_fixed]
  rw [fractionMicros, List.take_of_length_le (Nat.le_of_eq hl), Nat.ofDigitChars_append,
    ofDigitChars_fixed hm, ofDigitChars_fixed hn, hl]
  omega

theorem readFraction_digits {ds : Text} (hne : ds ≠ []) (hd : ds.all Char.isDigit = true) :
    readFraction ('.' :: ds) = some (fractionMicros ds, []) := by
  have hall : ∀ c ∈ ds, c.isDigit = true := List.all_eq_true.mp hd
  have ht : ds.takeWhile Char.isDigit = ds :=
    List.takeWhile_eq_self_iff.mpr hall
  have hw : ds.dropWhile Char.isDigit = [] :=
    List.dropWhile_eq_nil_iff.mpr hall
  rw [readFraction, if_pos (Or.inl rfl), ht, hw, if_neg hne]

/-- The fraction of a second that a clock shows. -/
theorem readFraction_clock (tod : ℤ) :
    readFraction ('.' :: (fixed 3 (tod / 1000 % 1000).toNat ++
      if tod % 1000 = 0 then [] else fixed 3 (tod % 1000).toNat)) = some (tod % 1000000, []) := by
  have hms : (tod / 1000 % 1000).toNat < 10 ^ 3 := by omega
  have hus : (tod % 1000).toNat < 10 ^ 3 := by omega
  have hne : fixed 3 (tod / 1000 % 1000).toNat ≠ [] :=
    List.ne_nil_of_length_pos (by rw [length_fixed]; omega)
  split
  · rw [List.append_nil, readFraction_digits hne (all_isDigit_fixed _ _),
      fractionMicros_millis hms]
    congr 2
    omega
  · rw [readFraction_digits (by simp [hne]) (by simp [all_isDigit_fixed, List.all_append]),
      fractionMicros_micros hms hus]
    congr 2
    omega

theorem readClock_clockText (c : Civil) {tod : ℤ} (h₀ : 0 ≤ tod) (h₁ : tod < dayMicros) :
    readClock c (clockText tod) =
      some ⟨c, tod / 3600000000, tod / 60000000 % 60, tod / 1000000 % 60, tod % 1000000, false⟩ := by
  rw [dayMicros] at h₁
  unfold readClock clockText
  rw [readFixed_fixed (by omega)]
  dsimp only
  rw [skipChar_self, readFixed_fixed (by omega)]
  dsimp only
  rw [skipChar_self, readFixed_fixed (by omega)]
  dsimp only
  rw [readFraction_clock]
  simp only [Option.bind_some, readOffset, if_true]
  congr 2 <;> omega

/-- The fields of a day and a time of day written with a year of `w` digits. -/
theorem readFields_fixed {w : ℕ} (t : Text) {neg : Bool} {y m d : ℕ} {tod : ℤ}
    (hs : readSign t = (neg, fixed w y ++ '-' :: (fixed 2 m ++ '-' :: (fixed 2 d ++
      'T' :: clockText tod))))
    (hy : y < 10 ^ w) (hm : m < 10 ^ 2) (hd : d < 10 ^ 2) (h₀ : 0 ≤ tod) (h₁ : tod < dayMicros) :
    readFields w t = some ⟨⟨if neg then -y else y, m, d⟩, tod / 3600000000, tod / 60000000 % 60,
      tod / 1000000 % 60, tod % 1000000, false⟩ := by
  unfold readFields
  rw [hs, readFixed_fixed hy]
  dsimp only
  rw [skipChar_self, readFixed_fixed hm]
  dsimp only
  rw [skipChar_self, readFixed_fixed hd]
  dsimp only
  rw [if_pos (Or.inr rfl), readClock_clockText _ h₀ h₁]

/-- A longer year than the one written is not found. -/
theorem readFields_fixed_none {w v : ℕ} (hv : v < w) (t : Text) {neg : Bool} {y : ℕ} {rest : Text}
    (hs : readSign t = (neg, fixed v y ++ '-' :: rest)) : readFields w t = none := by
  unfold readFields
  rw [hs, readFixed_fixed_none hv (by decide)]

/-- The years of the platform's range. -/
theorem year_bounds (days : ℤ) (h₀ : -100000002 ≤ days) (h₁ : days ≤ 100000002) :
    -999999 ≤ (civilOfDays days).year ∧ (civilOfDays days).year ≤ 999999 := by
  have hd := daysOfCivil_civilOfDays days
  have hb := civilOfDays_bounds days
  simp only [daysOfCivil] at hd
  omega

/-- What a reader makes of a local time stamp before it looks for the instant. -/
theorem readFields_toIso8601String (z : Zone) {d : DateTime} (hd : d.isUtc = false) :
    (readFields 6 (toIso8601String z d)).or ((readFields 5 (toIso8601String z d)).or
      (readFields 4 (toIso8601String z d))) =
    some ⟨civilOfDays (d.wall z / dayMicros), d.wall z % dayMicros / 3600000000,
      d.wall z % dayMicros / 60000000 % 60, d.wall z % dayMicros / 1000000 % 60,
      d.wall z % dayMicros % 1000000, false⟩ := by
  have hr := d.inRange
  have hz := z.inRange d.micros
  have htod : 0 ≤ d.wall z % dayMicros ∧ d.wall z % dayMicros < dayMicros := by
    simp only [dayMicros]
    omega
  have hy := year_bounds (d.wall z / dayMicros)
    (by simp only [wall, hd, dayMicros, maxMicros, Bool.false_eq_true, if_false] at *; omega)
    (by simp only [wall, hd, dayMicros, maxMicros, Bool.false_eq_true, if_false] at *; omega)
  have hb := civilOfDays_bounds (d.wall z / dayMicros)
  have hm : (civilOfDays (d.wall z / dayMicros)).month.toNat < 10 ^ 2 := by omega
  have hdd : (civilOfDays (d.wall z / dayMicros)).day.toNat < 10 ^ 2 := by omega
  have htext : toIso8601String z d = yearText (civilOfDays (d.wall z / dayMicros)).year ++ '-' ::
      (fixed 2 (civilOfDays (d.wall z / dayMicros)).month.toNat ++ '-' ::
        (fixed 2 (civilOfDays (d.wall z / dayMicros)).day.toNat ++
          'T' :: clockText (d.wall z % dayMicros))) := by
    simp [toIso8601String, hd]
  -- sign and digits of the year, put together again
  have hcivil (neg : Bool) (hn : neg = decide ((civilOfDays (d.wall z / dayMicros)).year < 0)) :
      (⟨if neg then -((civilOfDays (d.wall z / dayMicros)).year.natAbs : ℤ)
        else (civilOfDays (d.wall z / dayMicros)).year.natAbs,
        (civilOfDays (d.wall z / dayMicros)).month.toNat,
        (civilOfDays (d.wall z / dayMicros)).day.toNat⟩ : Civil) =
      civilOfDays (d.wall z / dayMicros) := by
    subst hn
    ext
    · by_cases h : (civilOfDays (d.wall z / dayMicros)).year < 0
      · simp only [h, decide_true, if_true]
        omega
      · simp only [h, decide_false, Bool.false_eq_true, if_false]
        omega
    · dsimp only; omega
    · dsimp only; omega
  rw [htext]
  by_cases hshort : -9999 ≤ (civilOfDays (d.wall z / dayMicros)).year ∧
      (civilOfDays (d.wall z / dayMicros)).year ≤ 9999
  · -- four digits: the longer years are tried first and are not found
    have hsign (rest : Text) : readSign (yearText (civilOfDays (d.wall z / dayMicros)).year ++ rest) =
        (decide ((civilOfDays (d.wall z / dayMicros)).year < 0),
          fixed 4 (civilOfDays (d.wall z / dayMicros)).year.natAbs ++ rest) := by
      rw [yearText, if_pos hshort]
      by_cases h : (civilOfDays (d.wall z / dayMicros)).year < 0
      · rw [if_pos h, decide_eq_true h]
        rfl
      · rw [if_neg h, decide_eq_false h]
        exact readSign_fixed 3 _ _
    rw [readFields_fixed_none (by decide) _ (hsign _), readFields_fixed_none (by decide) _ (hsign _),
      readFields_fixed _ (hsign _) (by omega) hm hdd htod.1 htod.2, hcivil _ rfl]
    rfl
  -- six digits
  · have hsign (rest : Text) : readSign (yearText (civilOfDays (d.wall z / dayMicros)).year ++ rest) =
        (decide ((civilOfDays (d.wall z / dayMicros)).year < 0),
          fixed 6 (civilOfDays (d.wall z / dayMicros)).year.natAbs ++ rest) := by
      rw [yearText, if_neg hshort]
      by_cases h : (civilOfDays (d.wall z / dayMicros)).year < 0
      · rw [if_pos h, decide_eq_true h]
        rfl
      · rw [if_neg h, decide_eq_false h]
        rfl
    rw [readFields_fixed _ (hsign _) (by omega) hm hdd htod.1 htod.2, hcivil _ rfl]
    rfl

/-- The local time stamp of a time that the clock shows, if that is an instant. -/
def ofWall (z : Zone) (shown : ℤ) : Option DateTime :=
  if h : -maxMicros ≤ z.instantOf shown ∧ z.instantOf shown ≤ maxMicros then
    some ⟨⟨z.instantOf shown, h⟩, false⟩
  else none

/-- **A local time stamp written in one zone and read in another** is what the clock has shown, read
in the second zone. -/
theorem parse_toIso8601String (z z' : Zone) {d : DateTime} (hd : d.isUtc = false) :
    parse z' (toIso8601String z d) = ofWall z' (d.wall z) := by
  have hb := civilOfDays_bounds (d.wall z / dayMicros)
  have hmonth : ((civilOfDays (d.wall z / dayMicros)).month - 1) / 12 = 0 := by omega
  have hdays := daysOfCivil_civilOfDays (d.wall z / dayMicros)
  rw [parse, readFields_toIso8601String z hd, Option.bind_some, ofFields]
  dsimp only
  rw [hmonth, Int.add_zero,
    show ((civilOfDays (d.wall z / dayMicros)).month - 1) % 12 + 1 =
      (civilOfDays (d.wall z / dayMicros)).month by omega, hdays]
  have hshown : d.wall z / dayMicros * dayMicros + d.wall z % dayMicros / 3600000000 * 3600000000 +
      d.wall z % dayMicros / 60000000 % 60 * 60000000 +
      d.wall z % dayMicros / 1000000 % 60 * 1000000 + d.wall z % dayMicros % 1000000 =
      d.wall z := by
    simp only [dayMicros]
    omega
  simp only [Bool.false_eq_true, if_false, hshown]
  rfl

/-- A local time stamp written and read again in one zone. -/
def reread (z : Zone) (d : DateTime) : DateTime where
  micros := z.instantOf (d.micros + z.offset d.micros)
  inRange := z.instantOf_inRange d.micros d.inRange
  isUtc := false

theorem ofWall_wall (z : Zone) {d : DateTime} (hd : d.isUtc = false) :
    ofWall z (d.wall z) = some (d.reread z) := by
  have hwall : d.wall z = d.micros + z.offset d.micros := by simp [wall, hd]
  rw [ofWall, hwall, dif_pos (z.instantOf_inRange d.micros d.inRange)]
  rfl

end DateTime

end Codec
