import CajaSegura.Codec.JsonRoundTrip
import CajaSegura.Main
import CajaSegura.Platform.Sample
import CajaSegura.Services.BackgroundRules

/-!
# The background after a restart

Runs of start-ups, of pictures that are set and of backgrounds that are cleared, without failures.
The start of the application does not read the saved path, so that a custom background is gone
after a restart and its image stays behind.

## Main definitions

* `BackgroundLife`: the runs, with the moments after each start-up and each operation
* `Moment.Wanted`: the background is the one that was last set, and the only image that is kept
* `Displays`: what holds until a start-up forgets a background

## Main results

* `BackgroundLife.wanted_iff`: all is as wanted exactly when the application is never started while
  a custom background is set
-/

namespace CajaSegura

open Codec Async
open Program hiding bind
open BackgroundService

variable {P : Platform}

/-! ## Runs -/

/-- `DateTime.now().millisecondsSinceEpoch`. -/
def millis (t : Instant) : ℤ := t.micros.tdiv 1000

/-- An operation without failures during which the clock shows `t`. It is read once, so that it may
as well stand. -/
def readingAt (P : Platform) (t : Instant) : Discipline (device P) :=
  { faultless P with rely := fun w w' => TimePasses w w' ∧ w'.now = t }

/-- The world after a start-up or an operation, and what the last picture set and not cleared since
held. -/
structure Moment where
  last : Option Bytes
  started : Bool
  world : World

/-- Others leave the background and the directory of its image alone. -/
structure World.Elsewhere (P : Platform) (w w' : World) : Prop where
  background : w'.background = w.background
  files : ∀ name, w'.fs.files ⟨backgroundsDir P, name⟩ = w.fs.files ⟨backgroundsDir P, name⟩
  dirs : ∀ p, w.fs.dirs p = true → w'.fs.dirs p = true
  subdirs : ∀ c, w'.fs.dirs (backgroundsDir P ++ [c]) = w.fs.dirs (backgroundsDir P ++ [c])

theorem World.Elsewhere.refl (w : World) : w.Elsewhere P w :=
  ⟨rfl, fun _ => rfl, fun _ => id, fun _ => rfl⟩

/-- The moments of a run, the last one first, the readings of the clock, what the last picture set
held, and the world that the run leads to. -/
inductive BackgroundLife (P : Platform) (w₀ : World) :
    List Moment → List Instant → Option Bytes → World → Prop
  | fresh : BackgroundLife P w₀ [] [] none w₀
  | startUp {ms : List Moment} {ts : List Instant} {last : Option Bytes} {w w₁ w' : World}
    {r : Except DartError Unit} (h : BackgroundLife P w₀ ms ts last w) (hw : w.Elsewhere P w₁)
    (hmain : (main P).Completes (undisturbed P) (restarted w₁) r w') :
    BackgroundLife P w₀ (⟨last, true, w'⟩ :: ms) ts last w'
  | setBackground {ms : List Moment} {ts : List Instant} {last : Option Bytes} {w w₁ w' : World}
    {b : Bytes} (h : BackgroundLife P w₀ ms ts last w) (hw : w.Elsewhere P w₁) (imageFile : File)
    (t : Instant) (ht : ∀ t' ∈ ts, millis t' < millis t)
    (hb : w₁.fs.read imageFile = some b)
    (hset : (setBackground P imageFile).Completes (readingAt P t) w₁ (.ok true) w') :
    BackgroundLife P w₀ (⟨some b, false, w'⟩ :: ms) (t :: ts) (some b) w'
  | clearBackground {ms : List Moment} {ts : List Instant} {last : Option Bytes} {w w₁ w' : World}
    {r : Except DartError Unit} (h : BackgroundLife P w₀ ms ts last w) (hw : w.Elsewhere P w₁)
    (hclear : (clearBackground : App Unit).Completes (faultless P) w₁ r w') :
    BackgroundLife P w₀ (⟨none, false, w'⟩ :: ms) ts none w'

/-- A device on which no background was ever set. -/
structure Fresh (P : Platform) (w : World) : Prop where
  background : w.background = ⟨none, none⟩
  rooted : w.fs.Rooted P.supportDir
  files : ∀ name, w.fs.files ⟨backgroundsDir P, name⟩ = none
  subdirs : ∀ c, w.fs.dirs (backgroundsDir P ++ [c]) = false

/-! ## What is wanted -/

/-- The background in force: the default one, or an image with these contents. -/
def InForce (last : Option Bytes) (w : World) : Prop :=
  match last with
  | none => hasCustomBackground w = false
  | some b => ∃ path, w.background._currentBackground = some path ∧
      w.fs.read (.ofPath path) = some b

/-- The files of the directory for backgrounds are the image in force and no other. -/
def Exactly (P : Platform) (w : World) : Prop :=
  ∀ name, w.fs.files ⟨backgroundsDir P, name⟩ ≠ none ↔
    ∃ path, w.background._currentBackground = some path ∧
      w.fs.resolve (.ofPath path) = some ⟨backgroundsDir P, name⟩

def Moment.Wanted (P : Platform) (m : Moment) : Prop :=
  (m.started = true → InForce m.last m.world) ∧ Exactly P m.world

/-! ## The names of the copies -/

theorem encodeInt_injective : Function.Injective Json.encodeInt := by
  intro n m h
  have hends : Json.EndsNumber [','] := ⟨_, _, rfl, .inl rfl⟩
  have hn := Json.readNumber_encodeInt n hends
  rw [h, Json.readNumber_encodeInt m hends] at hn
  have hi : Json.ofInteger m = Json.ofInteger n := (Prod.mk.inj (Option.some.inj hn)).1
  unfold Json.ofInteger at hi
  split at hi <;> split at hi <;> cases hi <;> rfl

/-- Copies made in different milliseconds have different names. -/
theorem millis_of_fileName {t t' : Instant} {picture picture' : Text}
    (h : fileName P t picture = fileName P t' picture') : millis t = millis t' := by
  have hdot (n : ℤ) : ∀ c ∈ Json.encodeInt n, (c != '.') = true := by
    intro c hc
    rw [bne_iff_ne]
    rintro rfl
    exact Json.notMem_encodeInt rfl (by decide) n hc
  have htake (n : ℤ) (ext : Text) :
      (Json.encodeInt n ++ '.' :: ext).takeWhile (· != '.') = Json.encodeInt n := by
    rw [List.takeWhile_append_of_pos (hdot n)]
    simp
  unfold fileName at h
  rw [List.append_assoc, List.append_assoc] at h
  have htails := congrArg (List.takeWhile (· != '.')) (List.append_cancel_left h)
  rw [htake, htake] at htails
  exact encodeInt_injective htails

variable {fs : Fs} {t : Instant} {picture : Text}

theorem plain_fileName (h : '/' ∉ fileName P t picture) : Plain (fileName P t picture) := by
  refine ⟨h, ?_⟩
  have hl : 2 < (fileName P t picture).length := by
    unfold fileName
    rw [List.append_assoc, List.length_append]
    exact Nat.lt_add_right _ (by decide)
  rintro (h | h | h) <;> simp [h] at hl

theorem rooted_backgrounds (h : fs.Rooted P.supportDir) (hd : fs.dirs (backgroundsDir P) = true) :
    fs.Rooted (backgroundsDir P) where
  plain c hc := by
    rcases List.mem_append.mp hc with hc | hc
    · exact h.plain c hc
    · rw [List.mem_singleton.mp hc]
      decide
  dirs p hp := by
    rcases List.prefix_concat_iff.mp hp with rfl | hp
    · exact hd
    · exact h.dirs p hp

theorem subdirs_prepared (h : ∀ c, fs.dirs (backgroundsDir P ++ [c]) = false) (c : Text) :
    (prepared P fs).dirs (backgroundsDir P ++ [c]) = false := by
  unfold prepared
  split
  · exact h c
  · have hlong : (backgroundsDir P ++ [c]).isPrefixOf (backgroundsDir P) = false := by
      rw [Bool.eq_false_iff]
      intro hp
      have hl := (List.isPrefixOf_iff_prefix.mp hp).length_le
      rw [List.length_append, List.length_singleton] at hl
      omega
    simp [Fs.create, h c, hlong]

/-- The directory for backgrounds has none below it, so that a copy can only be put into it. -/
theorem key_of_resolve (h : fs.Rooted P.supportDir)
    (hsub : ∀ c, fs.dirs (backgroundsDir P ++ [c]) = false) {k : Key}
    (hk : (prepared P fs).resolve (.ofPath (newPath P t picture)) = some k) :
    k = ⟨backgroundsDir P, fileName P t picture⟩ ∧ Plain (fileName P t picture) := by
  have hmade : (prepared P fs).dirs (backgroundsDir P) = true := by
    unfold prepared
    split
    · assumption
    · simp [Fs.create]
  have hrooted : (prepared P fs).Rooted (backgroundsDir P) :=
    rooted_backgrounds ⟨h.plain, fun p hp => dirs_prepared (h.dirs p hp)⟩ hmade
  unfold newPath at hk
  rw [Fs.resolve_ofPath hrooted] at hk
  -- a slash in the extension makes the name a path through a directory that is not there
  by_cases hslash : '/' ∈ fileName P t picture
  · exfalso
    obtain ⟨cs, rest, hname, hcs⟩ := List.eq_append_cons_of_mem hslash
    have hlong : 2 < cs.length := by
      have hpre : "custom_background_".toList <+: fileName P t picture := by
        unfold fileName
        rw [List.append_assoc]
        exact List.prefix_append _ _
      have hcs' : cs ++ ['/'] <+: fileName P t picture := ⟨rest, by rw [hname]; simp⟩
      rcases List.prefix_or_prefix_of_prefix hpre hcs' with hp | hp
      · have hl := hp.length_le
        rw [List.length_append, List.length_singleton] at hl
        have hten : "custom_background_".toList.length = 18 := by decide
        omega
      · exact absurd (hp.subset (by simp : '/' ∈ cs ++ ['/'])) (by decide)
    have hplain : ¬ NoName cs := by
      rintro (h | h | h) <;> simp [h] at hlong
    -- the first component of the name is not a directory
    have hwalk : (prepared P fs).walk (backgroundsDir P)
        (cs :: (rest.splitOn '/').dropLast) = none := by
      have henter : Fs.enter (backgroundsDir P) cs = backgroundsDir P ++ [cs] := by
        unfold Fs.enter
        rw [if_neg fun h => hplain (h.imp_right .inl), if_neg fun h => hplain (.inr (.inr h))]
      rw [Fs.walk, henter, subdirs_prepared hsub cs]
      rfl
    unfold Fs.resolve at hk
    rw [hname, List.splitOn_append_cons_self, Fs.splitOn_plain hcs, List.singleton_append,
      List.dropLast_cons_of_ne_nil (List.splitOn_ne_nil '/' rest), hwalk] at hk
    split at hk <;> cases hk
  · have hplain := plain_fileName hslash
    rw [Fs.resolve_plain _ hplain] at hk
    exact ⟨(Option.some.inj hk).symm, hplain⟩

/-! ## What holds until a background is forgotten -/

/-- The image under `name` holds `b`, is in force, and is the only one. -/
structure Only (P : Platform) (path name : Text) (b : Bytes) (w : World) : Prop where
  background : w.background = ⟨some path, some path⟩
  path : path = pathText (backgroundsDir P) ++ '/' :: name
  plain : Plain name
  image : w.fs.files ⟨backgroundsDir P, name⟩ = some b
  others : ∀ n, n ≠ name → w.fs.files ⟨backgroundsDir P, n⟩ = none

/-- The background is the one that was last set, at one of the readings `ts`. -/
structure Displays (P : Platform) (ts : List Instant) (last : Option Bytes) (w : World) : Prop where
  rooted : w.fs.Rooted P.supportDir
  subdirs : ∀ c, w.fs.dirs (backgroundsDir P ++ [c]) = false
  absent : last = none → w.background = ⟨none, none⟩ ∧
    ∀ name, w.fs.files ⟨backgroundsDir P, name⟩ = none
  shown : ∀ b, last = some b → ∃ t ∈ ts, ∃ picture path,
    Only P path (fileName P t picture) b w

variable {ts : List Instant} {last : Option Bytes} {w w' : World} {path name : Text} {b : Bytes}

theorem Only.resolve (h : Only P path name b w) (hr : w.fs.Rooted P.supportDir) :
    w.fs.resolve (.ofPath path) = some ⟨backgroundsDir P, name⟩ := by
  have hd := (w.fs.parent ⟨backgroundsDir P, name⟩ (by rw [h.image]; exact nofun)).1
  rw [h.path, Fs.resolve_ofPath (rooted_backgrounds hr hd), Fs.resolve_plain _ h.plain]

theorem Displays.inForce (h : Displays P ts last w) : InForce last w := by
  cases last with
  | none =>
    unfold InForce hasCustomBackground
    rw [(h.absent rfl).1]
    rfl
  | some b =>
    obtain ⟨t, -, picture, path, honly⟩ := h.shown b rfl
    refine ⟨path, by rw [honly.background], ?_⟩
    rw [Fs.read_of_resolve (honly.resolve h.rooted), honly.image]

theorem Displays.exactly (h : Displays P ts last w) : Exactly P w := by
  intro name
  cases last with
  | none =>
    obtain ⟨hbackground, hfiles⟩ := h.absent rfl
    rw [hbackground]
    refine iff_of_false (by simp [hfiles name]) ?_
    rintro ⟨path, hpath, -⟩
    cases hpath
  | some b =>
    obtain ⟨t, -, picture, path, honly⟩ := h.shown b rfl
    have hresolve := honly.resolve h.rooted
    rw [honly.background]
    constructor
    · intro hname
      refine ⟨path, rfl, ?_⟩
      by_cases hn : name = fileName P t picture
      · rw [hn, hresolve]
      · exact absurd (honly.others name hn) hname
    · rintro ⟨path', hpath', hname⟩
      cases hpath'
      rw [hresolve] at hname
      cases hname
      rw [honly.image]
      exact nofun

theorem Displays.wanted (h : Displays P ts last w) (started : Bool) :
    Moment.Wanted P ⟨last, started, w⟩ := ⟨fun _ => h.inForce, h.exactly⟩

theorem Displays.of_fresh (h : Fresh P w) : Displays P [] none w :=
  ⟨h.rooted, h.subdirs, fun _ => ⟨h.background, h.files⟩, nofun⟩

theorem Displays.elsewhere (h : Displays P ts last w) (hw : w.Elsewhere P w') :
    Displays P ts last w' where
  rooted := ⟨h.rooted.plain, fun p hp => hw.dirs p (h.rooted.dirs p hp)⟩
  subdirs c := (hw.subdirs c).trans (h.subdirs c)
  absent hlast := by
    obtain ⟨hb, hf⟩ := h.absent hlast
    exact ⟨hw.background.trans hb, fun n => (hw.files n).trans (hf n)⟩
  shown b hlast := by
    obtain ⟨t, ht, picture, path, ho⟩ := h.shown b hlast
    exact ⟨t, ht, picture, path, hw.background.trans ho.background, ho.path, ho.plain,
      (hw.files _).trans ho.image, fun n hn => (hw.files n).trans (ho.others n hn)⟩

/-! ## The operations -/

/-- What the deletion of the image in force leaves of the other files. -/
theorem Displays.files_of_delete (h : Displays P ts last w) {path : Text}
    (hpath : w.background._currentBackgroundPath = some path)
    (hdirs : ∀ p, w.fs.dirs p = true → fs.dirs p = true)
    (hfiles : ∀ t ∈ ts, ∀ picture, fs.files ⟨backgroundsDir P, fileName P t picture⟩ =
      w.fs.files ⟨backgroundsDir P, fileName P t picture⟩) :
    ∃ t ∈ ts, ∃ picture, (fs.onDelete (.ofPath path) .done).2.dirs = fs.dirs ∧
      (fs.onDelete (.ofPath path) .done).2.files =
        Function.update fs.files ⟨backgroundsDir P, fileName P t picture⟩ none ∧
      ∀ n, n ≠ fileName P t picture → w.fs.files ⟨backgroundsDir P, n⟩ = none := by
  cases last with
  | none =>
    rw [(h.absent rfl).1] at hpath
    cases hpath
  | some b =>
    obtain ⟨t, ht, picture, path', honly⟩ := h.shown b rfl
    rw [honly.background] at hpath
    cases hpath
    have hresolve := Fs.resolve_mono hdirs (honly.resolve h.rooted)
    obtain ⟨hd, ⟨-, -, hf⟩ | ⟨-, ⟨e, ho, -⟩ | ⟨ho, -⟩⟩⟩ :=
      Fs.onDelete_of_resolve hresolve ((hfiles t ht picture).trans honly.image) .done
    · exact ⟨t, ht, picture, hd, hf, honly.others⟩
    · cases ho
    · cases ho

theorem Displays.set (h : Displays P ts last w) {imageFile : File} {t : Instant}
    (ht : ∀ t' ∈ ts, millis t' < millis t) (hb : w.fs.read imageFile = some b)
    (hset : SetEnds (readingAt P t) imageFile w true w') : Displays P (t :: ts) (some b) w' := by
  cases hset with
  | @saved path l w₁ _ hswap hfs hbackground hsaved ha =>
  obtain ⟨-, hcopy, hdel, -, hlooked⟩ := hswap
  rename_i b' k fs fs' l₀ del
  obtain rfl : b' = b := Option.some.inj (hcopy.source.symm.trans hb)
  obtain ⟨_, w₂, ⟨-, rfl⟩, rfl⟩ := hcopy.named
  obtain ⟨rfl, hplain⟩ := key_of_resolve h.rooted h.subdirs hcopy.resolve
  have hne {t' : Instant} (ht' : t' ∈ ts) (picture : Text) :
      fileName P t' picture ≠ fileName P w₂.now imageFile.path :=
    fun he => absurd (millis_of_fileName he) (Int.ne_of_lt (ht t' ht'))
  have hkey {n n' : Text} (hn : n ≠ n') :
      (⟨backgroundsDir P, n⟩ : Key) ≠ ⟨backgroundsDir P, n'⟩ := fun he => hn (Key.mk.inj he).2
  have hdirs (p : Path) (hp : w.fs.dirs p = true) : fs.dirs p = true := by
    rw [hcopy.dirs]
    exact dirs_prepared hp
  -- of the files of the directory the old image is deleted and the copy is added
  have hends : fs'.dirs = (prepared P w.fs).dirs ∧
      fs'.files ⟨backgroundsDir P, fileName P w₂.now imageFile.path⟩ = some b' ∧
      ∀ n, n ≠ fileName P w₂.now imageFile.path → fs'.files ⟨backgroundsDir P, n⟩ = none := by
    -- is there an image to replace?
    cases hcur : w.background._currentBackgroundPath with
    | none =>
      rw [hcur] at hdel
      cases hdel with
      | none =>
        refine ⟨hcopy.dirs, by rw [hcopy.files, Function.update_self], fun n hn => ?_⟩
        rw [hcopy.files, Function.update_of_ne (hkey hn)]
        cases last with
        | none => exact (h.absent rfl).2 n
        | some b =>
          obtain ⟨_, -, _, _, honly⟩ := h.shown b rfl
          rw [honly.background] at hcur
          cases hcur
    | some old =>
      rw [hcur] at hdel
      cases hdel with
      | some _ o ho =>
        obtain ⟨_, rfl : o = .done⟩ := ho
        obtain ⟨t', ht', picture, hd, hf, hothers⟩ := h.files_of_delete hcur hdirs
          fun t' ht' picture => by rw [hcopy.files, Function.update_of_ne (hkey (hne ht' picture))]
        refine ⟨hd.trans hcopy.dirs, ?_, fun n hn => ?_⟩
        · rw [hf, Function.update_of_ne (hkey (hne ht' picture).symm), hcopy.files,
            Function.update_self]
        · rw [hf]
          by_cases hn' : n = fileName P t' picture
          · rw [hn', Function.update_self]
          · rw [Function.update_of_ne (hkey hn'), hcopy.files, Function.update_of_ne (hkey hn),
              hothers n hn']
  obtain ⟨hd, himage, hothers⟩ := hends
  rw [← hlooked.fs, ← hfs] at hd himage hothers
  refine ⟨⟨h.rooted.plain, fun p hp => ?_⟩, fun c => ?_, nofun, fun b'' hb'' => ?_⟩
  · rw [hd]
    exact dirs_prepared (h.rooted.dirs p hp)
  · rw [hd]
    exact subdirs_prepared h.subdirs c
  · cases hb''
    exact ⟨w₂.now, List.mem_cons_self, imageFile.path, _, hbackground, rfl, hplain, himage, hothers⟩

theorem Displays.clear (h : Displays P ts last w) {r : Except DartError Unit}
    (hclear : ClearEnds (faultless P) w r w') : Displays P ts none w' := by
  cases hclear with
  | unsaved _ _ ho _ =>
    obtain ⟨_, ho⟩ := ho
    cases (ho : _ = _)
  | @cleared l del fs _ _ hdel hfs hbackground _ _ =>
    have hends : fs.dirs = w.fs.dirs ∧ ∀ n, fs.files ⟨backgroundsDir P, n⟩ = none := by
      -- is there an image to delete?
      cases hcur : w.background._currentBackgroundPath with
      | none =>
        rw [hcur] at hdel
        cases hdel with
        | none =>
          refine ⟨rfl, fun n => ?_⟩
          cases last with
          | none => exact (h.absent rfl).2 n
          | some b =>
            obtain ⟨_, -, _, _, honly⟩ := h.shown b rfl
            rw [honly.background] at hcur
            cases hcur
      | some old =>
        obtain ⟨t, ht, picture, hd, hf, hothers⟩ := h.files_of_delete hcur (fun _ => id)
          fun _ _ _ => rfl
        rw [hcur] at hdel
        cases hdel with
        | some _ o ho =>
          obtain ⟨_, rfl : o = .done⟩ := ho
          refine ⟨hd, fun n => ?_⟩
          rw [hf]
          by_cases hn : n = fileName P t picture
          · rw [hn, Function.update_self]
          · rw [Function.update_of_ne fun he => hn (Key.mk.inj he).2, hothers n hn]
        | unseen _ e he =>
          obtain ⟨_, he⟩ := he
          cases (he : _ = _)
        -- the image in use has not been lost before
        | absent _ hnone =>
          have hforce := h.inForce
          cases last with
          | none =>
            rw [(h.absent rfl).1] at hcur
            cases hcur
          | some b =>
            obtain ⟨_, -, _, _, honly⟩ := h.shown b rfl
            rw [honly.background] at hcur
            cases hcur
            rw [Fs.read_of_resolve (honly.resolve h.rooted), honly.image] at hnone
            cases hnone
    obtain ⟨hd, hf⟩ := hends
    rw [← hfs] at hd hf
    exact ⟨⟨h.rooted.plain, fun p hp => by rw [hd]; exact h.rooted.dirs p hp⟩,
      fun c => by rw [hd]; exact h.subdirs c, fun _ => ⟨hbackground, hf⟩, nofun⟩

/-! ## Start-ups -/

/-- Where there is no background, a start-up forgets nothing. -/
theorem Displays.started (h : Displays P ts none w) (hf : w'.fs = w.fs)
    (hb : w'.background = ⟨none, none⟩) : Displays P ts none w' where
  rooted := by
    rw [hf]
    exact h.rooted
  subdirs c := by
    rw [hf]
    exact h.subdirs c
  absent _ := by
    rw [hf]
    exact ⟨hb, (h.absent rfl).2⟩
  shown := nofun

/-- The start of the application touches neither the files nor the background. -/
theorem main_keeps (w : World) : (main P).wp (undisturbed P)
    (fun _ w' => w'.fs = w.fs ∧ w'.background = w.background) w := by
  -- none of the calls of a start is about files, and none of its writes about the background
  have hwithin : (main P).Within (fun op => ∀ w o, (World.exec P w op o).2.fs = w.fs)
      fun w w' => w'.fs = w.fs ∧ w'.background = w.background := by
    have hchrome : ∀ w o, (World.exec P w .systemChrome o).2.fs = w.fs := by rintro w (_ | e) <;> rfl
    have hhop : ∀ w o, (World.exec P w .hop o).2.fs = w.fs := fun _ _ => rfl
    have hsettings : (awaited SettingsService.init).Within
        (fun op => ∀ w o, (World.exec P w op o).2.fs = w.fs)
        fun w w' => w'.fs = w.fs ∧ w'.background = w.background := by
      refine within_awaited (Within.bind (Within.get _) fun there => within_when ?_) hhop
      refine Within.bind (within_call.mpr ?_) fun _ => Within.modify.mpr fun w => ⟨rfl, rfl⟩
      rintro w (_ | e) <;> rfl
    have hauth : (awaited (LockManager.init P)).Within
        (fun op => ∀ w o, (World.exec P w op o).2.fs = w.fs)
        fun w w' => w'.fs = w.fs ∧ w'.background = w.background := by
      refine within_awaited (within_awaited (AuthService.within_init hhop ?_ ?_ ?_) hhop) hhop
      · exact fun _ _ => rfl
      · rintro v w (_ | e) <;> rfl
      · exact fun _ _ => ⟨rfl, rfl⟩
    refine Within.bind (within_call.mpr hchrome) fun _ => ?_
    refine Within.bind (Within.tryCatch (Within.bind hsettings fun _ => hauth) fun _ => trivial)
      fun _ => ?_
    refine Within.bind (Within.tryCatch ?_ fun _ => trivial) fun _ => Within.modify.mpr fun w => ?_
    · refine Within.bind (Within.get _) fun enabled => Within.bind (Within.done _) fun enabled => ?_
      exact within_when (within_call.mpr hchrome)
    · exact ⟨rfl, rfl⟩
  refine Within.keeps (I := fun w' => w'.fs = w.fs ∧ w'.background = w.background) hwithin ?_ ?_ ?_
    w ⟨rfl, rfl⟩
  · rintro w₁ w₂ ⟨hf, hb⟩ ⟨t, rfl⟩
    exact ⟨hf, hb⟩
  · rintro w₁ w₂ ⟨hf, hb⟩ ⟨hf', hb'⟩
    exact ⟨trivial, hf'.trans hf, hb'.trans hb⟩
  · rintro op hop w₁ o ⟨hf, hb⟩ -
    exact ⟨trivial, (hop w₁ o).trans hf, (World.outside_exec P w₁ op o).background.trans hb⟩

/-- The process that was started has the default background. -/
theorem forgotten_of_main {w₁ : World} {r : Except DartError Unit}
    (h : (main P).Completes (undisturbed P) (restarted w₁) r w') :
    w'.fs = w₁.fs ∧ w'.background = ⟨none, none⟩ := wp_completes (main_keeps _) h

variable {w₀ : World} {ms : List Moment}

/-- After a start-up the background is the default one, whatever was saved. -/
theorem BackgroundLife.forgotten (h : BackgroundLife P w₀ ms ts last w) {m : Moment} (hm : m ∈ ms)
    (hs : m.started = true) : m.world.background = ⟨none, none⟩ := by
  induction h with
  | fresh => cases hm
  | startUp _ _ hmain ih =>
    rcases List.mem_cons.mp hm with rfl | hm
    · exact (forgotten_of_main hmain).2
    · exact ih hm
  | setBackground _ _ _ _ _ _ _ ih =>
    rcases List.mem_cons.mp hm with rfl | hm
    · cases hs
    · exact ih hm
  | clearBackground _ _ _ ih =>
    rcases List.mem_cons.mp hm with rfl | hm
    · cases hs
    · exact ih hm

/-- As long as no start-up forgets a background, the one that was last set is shown. -/
theorem BackgroundLife.displays (h : BackgroundLife P w₀ ms ts last w) (h₀ : Fresh P w₀)
    (hs : ∀ m ∈ ms, m.started = true → m.last = none) :
    (∀ m ∈ ms, m.Wanted P) ∧ Displays P ts last w := by
  induction h with
  | fresh => exact ⟨List.forall_mem_nil _, .of_fresh h₀⟩
  | startUp h hw hmain ih =>
    obtain ⟨hms, hd⟩ := ih fun m hm => hs m (List.mem_cons_of_mem _ hm)
    have hlast := hs _ List.mem_cons_self rfl
    dsimp only at hlast
    obtain ⟨hf, hb⟩ := forgotten_of_main hmain
    subst hlast
    have hd' := (hd.elsewhere hw).started hf hb
    exact ⟨List.forall_mem_cons.mpr ⟨hd'.wanted _, hms⟩, hd'⟩
  | setBackground h hw imageFile t ht hread hset ih =>
    obtain ⟨hms, hd⟩ := ih fun m hm => hs m (List.mem_cons_of_mem _ hm)
    obtain ⟨_, hok, hends⟩ := wp_completes (setBackground_wp (D := readingAt P t)
      (fun _ _ h => h.1) (fun _ _ => trivial) imageFile _) hset
    cases hok
    have hd' := (hd.elsewhere hw).set ht hread hends
    exact ⟨List.forall_mem_cons.mpr ⟨hd'.wanted _, hms⟩, hd'⟩
  | clearBackground h hw hclear ih =>
    obtain ⟨hms, hd⟩ := ih fun m hm => hs m (List.mem_cons_of_mem _ hm)
    have hends := wp_completes (clearBackground_wp (D := faultless P) (fun _ _ => id)
      (fun _ _ => trivial) (List.forall_mem_nil _) (Looked.refl _)) hclear
    have hd' := (hd.elsewhere hw).clear hends
    exact ⟨List.forall_mem_cons.mpr ⟨hd'.wanted _, hms⟩, hd'⟩

/-- **The chosen background survives**, and no other image is kept, exactly in the runs in which the
application is never started while a custom background is set. -/
theorem BackgroundLife.wanted_iff (h : BackgroundLife P w₀ ms ts last w) (h₀ : Fresh P w₀) :
    (∀ m ∈ ms, m.Wanted P) ↔ ∀ m ∈ ms, m.started = true → m.last = none := by
  constructor
  · intro hw m hm hs
    have hforce := (hw m hm).1 hs
    have hb := h.forgotten hm hs
    cases hlast : m.last with
    | none => rfl
    | some b =>
      rw [hlast] at hforce
      obtain ⟨path, hpath, -⟩ := hforce
      rw [hb] at hpath
      cases hpath
  · intro hs
    exact (h.displays h₀ hs).1

/-! ## A start-up that forgets -/

/-- A device with a picture and a directory of the application. -/
def World.settled : World :=
  let w := sample [] [1]
  { w with
    fs := (w.fs.put ⟨["home".toList], "a.jpg".toList⟩ [2] fits_picture).create ["app".toList] }

/-- The application is started in the world `w`. -/
def World.begun (w : World) : World :=
  ((main (.sample .marked)).run (device (.sample .marked)) (fun _ => usual) 0 (restarted w)).2

/-- After the first start the picture is set as the background. -/
def World.decorated : World :=
  ((setBackground (.sample .marked) ⟨["home".toList], "a.jpg".toList⟩).run
    (device (.sample .marked)) (fun _ => usual) 0 (begun .settled)).2

def Moment.begun : Moment := ⟨none, true, .begun .settled⟩

def Moment.decorated : Moment := ⟨some [2], false, .decorated⟩

theorem fresh_settled : Fresh (.sample .marked) .settled where
  background := rfl
  rooted := by
    constructor
    · intro c hc
      obtain rfl := List.mem_singleton.mp hc
      decide
    · intro p hp
      rcases p with - | ⟨c, cs⟩
      · decide
      · obtain ⟨rfl, hcs⟩ := List.cons_prefix_cons.mp hp
        obtain rfl := List.prefix_nil.mp hcs
        decide
  files name := by
    have hdir : World.settled.fs.dirs (backgroundsDir (.sample .marked)) = false := by decide
    by_contra h
    exact Bool.false_ne_true (hdir.symm.trans (World.settled.fs.parent _ h).1)
  subdirs _ := rfl

theorem main_completes_begun (w : World) :
    (main (.sample .marked)).Completes (undisturbed (.sample .marked)) (restarted w)
      ((main (.sample .marked)).run (device (.sample .marked)) (fun _ => usual) 0
        (restarted w)).1 (.begun w) :=
  completes_run (D := undisturbed (.sample .marked)) (fun w => ⟨w.now, rfl⟩)
    (fun _ _ _ => trivial) (fun _ _ _ => trivial) _ 0 _

/-- The application is started, and a background is set. -/
theorem BackgroundLife.decorated : BackgroundLife (.sample .marked) .settled
    [.decorated, .begun] [World.settled.now] (some [2]) .decorated := by
  refine .setBackground (.startUp .fresh (.refl _) (main_completes_begun _)) (.refl _)
    ⟨["home".toList], "a.jpg".toList⟩ _ (List.forall_mem_nil _) (by decide +kernel) ?_
  have hrun : (BackgroundService.setBackground (.sample .marked)
        ⟨["home".toList], "a.jpg".toList⟩).Completes
      (readingAt (.sample .marked) World.settled.now) (.begun .settled) _ .decorated :=
    Within.completes_run (D := readingAt (.sample .marked) World.settled.now)
      (S := fun w => w.now = World.settled.now) (G := fun w w' => w'.now = w.now)
      (fun w h => ⟨⟨w.now, rfl⟩, h⟩) (fun _ w _ _ h => good_usual w h) (fun _ _ _ _ => trivial)
      (fun _ w op h _ => (World.now_exec w op _).trans h) (fun _ _ h hw => h.trans hw)
      (within_setBackground (fun _ h => h) (fun _ _ => rfl) _) 0 rfl
  have hok : ((BackgroundService.setBackground (.sample .marked)
      ⟨["home".toList], "a.jpg".toList⟩).run (device (.sample .marked)) (fun _ => usual) 0
        (.begun .settled)).1 = .ok true := rfl
  rwa [hok] at hrun

theorem BackgroundLife.wanted_iff_decorated :
    (∀ m ∈ [Moment.decorated, .begun], m.Wanted (.sample .marked)) ↔
      ∀ m ∈ [Moment.decorated, .begun], m.started = true → m.last = none :=
  BackgroundLife.wanted_iff BackgroundLife.decorated fresh_settled

/-- The application is started again: the background is the default one. -/
def World.plainAgain : World := .begun .decorated

theorem BackgroundLife.not_wanted_plainAgain : ∃ ms ts w,
    BackgroundLife (.sample .marked) .settled ms ts (some [2]) w ∧ Fresh (.sample .marked) .settled ∧
      ¬ ∀ m ∈ ms, m.Wanted (.sample .marked) := by
  refine ⟨_, _, _, .startUp .decorated (.refl _) (main_completes_begun _), fresh_settled, fun hw => ?_⟩
  obtain ⟨path, hpath, -⟩ := (hw _ List.mem_cons_self).1 rfl
  have hnone : World.plainAgain.background._currentBackground = none := rfl
  cases hnone.symm.trans hpath

end CajaSegura
