import CajaSegura.Codec.JsonRoundTrip
import CajaSegura.Platform.Sample
import CajaSegura.Services.BackgroundService

/-!
# Where the copy of a background lands

The name of the copy is made of a time stamp and of an extension, which is cut from the whole path
of the picture.

## Main definitions

* `afterLast`: what follows the last occurrence of a character
* `HasExtension`, `BaseName`: the parts of a path
* `BackgroundService.Lands`: the copy is a file of the directory for backgrounds, under the
  extension of the picture

## Main results

* `BackgroundService.lands_iff`: the copy lands there exactly when the name of the picture has a dot
-/

namespace CajaSegura

open Codec

/-! ## The last part of a text -/

/-- What follows the last `c`, or everything. -/
def afterLast (c : Char) (s : Text) : Text := (s.splitOn c).getLastD []

theorem afterLast_of_notMem {c : Char} {s : Text} (h : c ∉ s) : afterLast c s = s := by
  unfold afterLast
  rw [List.splitOn_eq_singleton h]
  rfl

theorem afterLast_append_cons (c : Char) (s t : Text) :
    afterLast c (s ++ c :: t) = afterLast c t := by
  unfold afterLast
  rw [List.splitOn_append_cons_self]
  cases h : t.splitOn c with
  | nil => exact absurd h (List.splitOn_ne_nil c t)
  | cons x xs => simp only [List.getLastD_eq_getLast?, List.getLast?_append, List.getLast?_cons,
      Option.some_or]

/-- A text ends in its last part, after the last `c` if there is one. -/
theorem afterLast_spec (c : Char) (s : Text) : c ∉ afterLast c s ∧
    (c ∉ s ∧ s = afterLast c s ∨ ∃ t, s = t ++ c :: afterLast c s) := by
  by_cases h : c ∈ s
  · obtain ⟨as, bs, hr, has⟩ := List.eq_append_cons_of_mem (List.mem_reverse.mpr h)
    have hs : s = bs.reverse ++ c :: as.reverse := by
      rw [← List.reverse_reverse s, hr]
      simp
    have hlast : afterLast c s = as.reverse := by
      rw [hs, afterLast_append_cons, afterLast_of_notMem (by simpa using has)]
    rw [hlast]
    exact ⟨by simpa using has, .inr ⟨_, hs⟩⟩
  · rw [afterLast_of_notMem h]
    exact ⟨h, .inl ⟨h, rfl⟩⟩

/-- The last part is the only one that is preceded by `c` or by nothing and has no `c` itself. -/
theorem eq_afterLast {c : Char} {s t : Text} (ht : c ∉ t) (h : s = t ∨ ∃ u, s = u ++ c :: t) :
    t = afterLast c s := by
  rcases h with rfl | ⟨u, rfl⟩
  · exact (afterLast_of_notMem ht).symm
  · rw [afterLast_append_cons, afterLast_of_notMem ht]

theorem afterLast_append {c : Char} {s t : Text} (h : c ∉ t) :
    afterLast c (s ++ t) = afterLast c s ++ t := by
  obtain ⟨hlast, hs⟩ := afterLast_spec c s
  refine (eq_afterLast (by simp [hlast, h]) ?_).symm
  rcases hs with ⟨-, hs⟩ | ⟨u, hs⟩
  · exact .inl (congrArg (· ++ t) hs)
  · refine .inr ⟨u, ?_⟩
    rw [← List.cons_append, ← List.append_assoc, ← hs]

/-! ## The parts of a path -/

/-- `ext` is what follows the last dot of `name`. -/
def HasExtension (name ext : Text) : Prop := '.' ∉ ext ∧ ∃ stem, name = stem ++ '.' :: ext

/-- `base` is what follows the last separator of `path`. -/
def BaseName (path base : Text) : Prop :=
  '/' ∉ base ∧ (path = base ∨ ∃ dir, path = dir ++ '/' :: base)

theorem hasExtension_iff {name ext : Text} :
    HasExtension name ext ↔ '.' ∈ name ∧ ext = afterLast '.' name := by
  constructor
  · rintro ⟨hext, stem, rfl⟩
    exact ⟨by simp, eq_afterLast hext (.inr ⟨stem, rfl⟩)⟩
  · rintro ⟨hdot, rfl⟩
    obtain ⟨hext, ⟨hno, -⟩ | hstem⟩ := afterLast_spec '.' name
    · exact absurd hdot hno
    · exact ⟨hext, hstem⟩

theorem baseName_iff {path base : Text} : BaseName path base ↔ base = afterLast '/' path := by
  constructor
  · rintro ⟨hbase, h⟩
    exact eq_afterLast hbase h
  · rintro rfl
    obtain ⟨hbase, ⟨-, h⟩ | hdir⟩ := afterLast_spec '/' path
    · exact ⟨hbase, .inl h⟩
    · exact ⟨hbase, .inr hdir⟩

namespace BackgroundService

variable (P : Platform)

/-- `ext` is the lower-cased extension of the base name of `path`, or `jpg` if it has none. -/
def WantedExtension (path ext : Text) : Prop :=
  ∃ base, BaseName path base ∧ ((∃ e, HasExtension base e ∧ ext = toLowerCase P e) ∨
    '.' ∉ base ∧ ext = "jpg".toList)

/-- The copy of the picture at `path` is a file of the directory for backgrounds itself, under the
extension of the picture. -/
def Lands (now : Instant) (path : Text) : Prop :=
  ∃ name ext, newPath P now path = pathText (backgroundsDir P) ++ '/' :: name ∧ '/' ∉ name ∧
    HasExtension name ext ∧ WantedExtension P path ext

variable {P} {s path : Text} {now : Instant}

/-! ## Lower case -/

/-- Separators and dots are not letters. -/
theorem mem_toLowerCase {d : Char} (hd : d = '/' ∨ d = '.') : d ∈ toLowerCase P s ↔ d ∈ s := by
  have hlower : ∀ c, d ∈ P.lowerCase c ↔ d = c := by
    intro c
    -- an ASCII letter goes to an ASCII letter, any other character never to these two
    by_cases hc : c.toNat < 128
    · rw [P.lowerCase_ascii c hc, List.mem_singleton]
      unfold Char.toLower
      split
      · rename_i hu
        constructor
        · intro h
          exfalso
          have hn := congrArg Char.toNat h
          have h₁ : 65 ≤ c.toNat := hu.1
          have h₂ : c.toNat ≤ 90 := hu.2
          rw [Char.toNat_mk] at hn
          rcases hd with rfl | rfl <;> simp at hn <;> omega
        · rintro rfl
          exfalso
          rcases hd with rfl | rfl <;> exact absurd hu (by decide)
      · exact Iff.rfl
    · have hother := P.lowerCase_other c (by omega)
      constructor
      · intro h
        rcases hd with rfl | rfl
        · exact absurd rfl (hother _ h).1
        · exact absurd rfl (hother _ h).2
      · rintro rfl
        rcases hd with rfl | rfl <;> exact absurd (by decide) hc
  unfold toLowerCase
  simp only [List.mem_flatMap, hlower]
  exact ⟨fun ⟨c, hc, h⟩ => h ▸ hc, fun h => ⟨d, h, rfl⟩⟩

/-! ## The name of the copy -/

theorem _getFileExtension_eq : _getFileExtension P path = toLowerCase P (afterLast '.' path) :=
  if_pos (List.splitOn_ne_nil '.' path)

theorem hasExtension_fileName {ext : Text} :
    HasExtension (fileName P now path) ext ↔ ext = _getFileExtension P path := by
  have hdot : '.' ∉ _getFileExtension P path := by
    rw [_getFileExtension_eq, mem_toLowerCase (.inr rfl)]
    exact (afterLast_spec '.' path).1
  rw [hasExtension_iff]
  unfold fileName
  rw [afterLast_append_cons, afterLast_of_notMem hdot]
  simp

theorem slash_mem_fileName : '/' ∈ fileName P now path ↔ '/' ∈ afterLast '.' path := by
  have hi := Json.notMem_encodeInt (c := '/') rfl (by decide) (now.micros.tdiv 1000)
  unfold fileName
  rw [_getFileExtension_eq]
  simp [hi, mem_toLowerCase]

theorem wantedExtension_iff {ext : Text} : WantedExtension P path ext ↔
    ('.' ∈ afterLast '/' path ∧ ext = toLowerCase P (afterLast '.' (afterLast '/' path))) ∨
      ('.' ∉ afterLast '/' path ∧ ext = "jpg".toList) := by
  unfold WantedExtension
  simp only [baseName_iff, hasExtension_iff, exists_eq_left]
  constructor
  · rintro (⟨e, ⟨hdot, rfl⟩, rfl⟩ | h)
    · exact .inl ⟨hdot, rfl⟩
    · exact .inr h
  · rintro (⟨hdot, rfl⟩ | h)
    · exact .inl ⟨_, ⟨hdot, rfl⟩, rfl⟩
    · exact .inr h

/-- The copy is named after what follows the last dot of the whole path. -/
theorem lands_iff_extension : Lands P now path ↔
    '/' ∉ afterLast '.' path ∧ WantedExtension P path (_getFileExtension P path) := by
  constructor
  · rintro ⟨name, ext, hpath, hslash, hext, hwanted⟩
    have hname : fileName P now path = name :=
      (List.cons.inj (List.append_cancel_left hpath)).2
    subst hname
    rw [hasExtension_fileName] at hext
    subst hext
    exact ⟨fun h => hslash (slash_mem_fileName.mpr h), hwanted⟩
  · rintro ⟨hslash, hwanted⟩
    exact ⟨_, _, rfl, fun h => hslash (slash_mem_fileName.mp h), hasExtension_fileName.mpr rfl,
      hwanted⟩

/-- If the base name has a dot, the last dot of the path is in it. -/
theorem afterLast_dot (h : '.' ∈ afterLast '/' path) :
    afterLast '.' path = afterLast '.' (afterLast '/' path) := by
  obtain ⟨hext, stem, hstem⟩ := hasExtension_iff.mpr ⟨h, rfl⟩
  obtain ⟨-, hdir⟩ := baseName_iff.mpr (rfl : afterLast '/' path = _)
  refine (eq_afterLast hext (.inr ?_)).symm
  rcases hdir with hpath | ⟨dir, hpath⟩
  · exact ⟨stem, hpath.trans hstem⟩
  · refine ⟨dir ++ '/' :: stem, ?_⟩
    rw [List.append_assoc, List.cons_append, ← hstem]
    exact hpath

/-- **The copy lands in the directory for backgrounds**, under the extension of the picture, exactly
when the name of the picture has a dot; but for the picture at the relative path `jpg`. -/
theorem lands_iff (P : Platform) (now : Instant) (path : Text) : Lands P now path ↔
    '.' ∈ afterLast '/' path ∨ toLowerCase P path = "jpg".toList := by
  rw [lands_iff_extension, wantedExtension_iff, _getFileExtension_eq]
  -- with a dot in the base name, what follows the last one has no slash
  by_cases hdot : '.' ∈ afterLast '/' path
  · have hslash : '/' ∉ afterLast '.' path := by
      rw [afterLast_dot hdot]
      obtain ⟨hbase, -⟩ := afterLast_spec '/' path
      obtain ⟨-, stem, hstem⟩ := hasExtension_iff.mpr ⟨hdot, rfl⟩
      intro h
      apply hbase
      rw [hstem]
      simp [h]
    rw [afterLast_dot hdot] at hslash ⊢
    simp [hdot, hslash]
  · simp only [hdot, false_and, not_false_eq_true, true_and, false_or]
    -- without a dot in the base name, what follows the last dot goes on to the end of the path
    by_cases hpath : '.' ∈ path
    · have hslash : '/' ∈ afterLast '.' path := by
        obtain ⟨-, ⟨hno, -⟩ | ⟨stem, hstem⟩⟩ := afterLast_spec '.' path
        · exact absurd hpath hno
        · by_contra hslash
          apply hdot
          rw [hstem, afterLast_append (by simp [hslash])]
          simp
      refine iff_of_false (fun h => h.1 hslash) fun h => ?_
      have hmem := (mem_toLowerCase (P := P) (.inr rfl)).mpr hpath
      rw [h] at hmem
      exact absurd hmem (by decide)
    · rw [afterLast_of_notMem hpath, ← mem_toLowerCase (P := P) (.inl rfl)]
      constructor
      · exact And.right
      · intro h
        rw [h]
        exact ⟨by decide, rfl⟩

/-- A picture without extension, in a directory with a dot in its name. -/
theorem not_lands_photo : ¬ Lands (.sample .marked) ⟨0, by decide⟩
    "/data/user/0/com.example.caja/cache/photo".toList := by
  intro h
  exact (lands_iff_extension.mp h).1 (by decide)

end BackgroundService

end CajaSegura
