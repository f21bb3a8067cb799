import CajaSegura.Main
import CajaSegura.Platform.Sample
import CajaSegura.Services.BackgroundRules

/-!
# Changing the background

Runs of the operations of `BackgroundService`, one after another, in which any call may fail. The
old image is deleted before the path of the new one is saved, so that a failure in between leaves
neither.

## Main definitions

* `BackgroundCall`, `BackgroundRun`: the operations of a run, with the worlds before and after each
* `Usable`: a custom background has its image and is the one that is saved
* `BackgroundCall.Atomic`: what is wanted of an operation
* `BackgroundCall.Spoils`: the failures that spoil an operation

## Main results

* `BackgroundRun.atomic_iff`: a run is as wanted exactly when no operation of it is spoilt
-/

namespace CajaSegura

open Codec Async
open Program hiding bind
open BackgroundService

/-! ## Runs -/

/-- An operation that has ended, the worlds around it, and whether it was a `setBackground` that
returned `false`. -/
structure BackgroundCall where
  before : World
  refused : Bool
  after : World

/-- The operations, undisturbed and with any outcome of their calls, and a restart of the process. -/
inductive BackgroundCall.Happens (P : Platform) : BackgroundCall → Prop
  | init {w w' : World} {r : Except DartError Unit}
    (h : (BackgroundService.init : App Unit).Completes (undisturbed P) w r w') :
    Happens P ⟨w, false, w'⟩
  | setBackground {w w' : World} {b : Bool} (imageFile : File)
    (h : (BackgroundService.setBackground P imageFile).Completes (undisturbed P) w (.ok b) w') :
    Happens P ⟨w, !b, w'⟩
  | clearBackground {w w' : World} {r : Except DartError Unit}
    (h : (BackgroundService.clearBackground : App Unit).Completes (undisturbed P) w r w') :
    Happens P ⟨w, false, w'⟩
  | restart (w : World) : Happens P ⟨w, false, restarted w⟩

/-- Others leave the background, its image and its saved path alone. -/
structure World.Besides (w w' : World) : Prop where
  background : w'.background = w.background
  saved : w'.backgroundStorage = w.backgroundStorage
  image : ∀ path, w.background._currentBackgroundPath = some path →
    w'.fs.read (.ofPath path) = w.fs.read (.ofPath path)

/-- The operations of a run, the last one first, and the world that they lead to. -/
inductive BackgroundRun (P : Platform) (w₀ : World) : List BackgroundCall → World → Prop
  | start : BackgroundRun P w₀ [] w₀
  | call {cs : List BackgroundCall} {w : World} (c : BackgroundCall) (h : BackgroundRun P w₀ cs w)
    (hw : w.Besides c.before) (hc : c.Happens P) : BackgroundRun P w₀ (c :: cs) c.after

/-! ## What is wanted -/

/-- A custom background has its image, and is the one that is saved. -/
def Usable (w : World) : Prop :=
  hasCustomBackground w = true → ∃ path, w.background._currentBackgroundPath = some path ∧
    w.fs.read (.ofPath path) ≠ none ∧ w.backgroundStorage = some path

namespace BackgroundCall

/-- The background, its image and its saved path are as they were. -/
def Unchanged (c : BackgroundCall) : Prop := c.before.Besides c.after

/-- The background is usable, and as it was if it could not be set. -/
def Atomic (c : BackgroundCall) : Prop := Usable c.after ∧ (c.refused = true → c.Unchanged)

/-! ## What spoils an operation -/

/-- The call was answered so during the operation. -/
def Answered (c : BackgroundCall) (a : Sigma Outcome) : Prop :=
  ∃ l, c.after.record.answers = l ++ c.before.record.answers ∧ a ∈ l

/-- The saved path could not be changed. -/
def Unsaved (c : BackgroundCall) : Prop :=
  (∃ path e, c.Answered ⟨.backgroundWrite path, some e⟩) ∨
    ∃ e, c.Answered ⟨.backgroundDelete, some e⟩

/-- The picture was copied to the file at `path`. -/
def CopiedTo (P : Platform) (c : BackgroundCall) (path : Text) (picture : File) : Prop :=
  ∃ t, c.Answered ⟨.copy picture t, none⟩ ∧
    (prepared P c.before.fs).resolve t = (prepared P c.before.fs).resolve (.ofPath path)

/-- There is a background, and its image was deleted although the new path could not be saved or is
that of the same file; or other contents were copied over it and the path could not be saved. -/
def Spoils (P : Platform) (c : BackgroundCall) : Prop :=
  ∃ path, c.before.background._currentBackgroundPath = some path ∧
    ((c.Answered ⟨.delete (.ofPath path), .done⟩ ∧
        (c.Unsaved ∨ ∃ picture, c.CopiedTo P path picture)) ∨
      (c.Unsaved ∧ ∃ picture, c.CopiedTo P path picture ∧
        c.before.fs.read picture ≠ c.before.fs.read (.ofPath path)))

variable {c : BackgroundCall} {l : List (Sigma Outcome)} {a : Sigma Outcome}

theorem answered_iff (h : c.after.record.answers = l ++ c.before.record.answers) :
    c.Answered a ↔ a ∈ l := by
  constructor
  · rintro ⟨l', h', ha⟩
    rwa [← List.append_cancel_right (h'.symm.trans h)]
  · exact fun ha => ⟨l, h, ha⟩

end BackgroundCall

/-- The image is that of the current path, and it is usable. -/
structure Settled (w : World) : Prop where
  image : w.background._currentBackground = w.background._currentBackgroundPath
  usable : Usable w

variable {P : Platform} {w w' : World}

/-- In a settled world the file of a background is there, and its path is saved. -/
theorem Settled.current (h : Settled w) {path : Text}
    (hpath : w.background._currentBackgroundPath = some path) :
    (∃ k b, w.fs.resolve (.ofPath path) = some k ∧ w.fs.files k = some b) ∧
      w.backgroundStorage = some path := by
  have hcustom : hasCustomBackground w = true := by
    unfold hasCustomBackground
    rw [h.image, hpath]
    rfl
  obtain ⟨path', hpath', hread, hsaved⟩ := h.usable hcustom
  obtain rfl : path' = path := Option.some.inj (hpath'.symm.trans hpath)
  obtain ⟨b, hb⟩ := Option.ne_none_iff_exists'.mp hread
  obtain ⟨k, hk, hb⟩ := Option.bind_eq_some_iff.mp hb
  exact ⟨⟨k, b, hk, hb⟩, hsaved⟩

theorem usable_of_none (h : w.background._currentBackground = none) : Usable w := by
  intro hcustom
  unfold hasCustomBackground at hcustom
  rw [h] at hcustom
  exact absurd hcustom nofun

theorem Settled.besides (h : Settled w) (hw : w.Besides w') : Settled w' := by
  refine ⟨by rw [hw.background, h.image], fun hcustom => ?_⟩
  unfold hasCustomBackground at hcustom
  rw [hw.background] at hcustom
  obtain ⟨path, hpath, hread, hsaved⟩ := h.usable hcustom
  exact ⟨path, hw.background ▸ hpath, by rwa [hw.image path hpath], hw.saved.trans hsaved⟩

/-- Where the background is as it was, it is usable as before. -/
theorem Settled.looked (h : Settled w) {fs : Fs} {l : List (Sigma Outcome)}
    (hl : Looked w fs l w') (hfiles : fs.files = w.fs.files)
    (hdirs : ∀ p, w.fs.dirs p = true → fs.dirs p = true) : w.Besides w' where
  background := hl.background
  saved := hl.saved
  image path hpath := by
    obtain ⟨⟨k, b, hk, hb⟩, -⟩ := h.current hpath
    rw [hl.fs, Fs.read_of_resolve (Fs.resolve_mono hdirs hk), Fs.read_of_resolve hk, hfiles]

/-! ## One operation -/

/-- Where nothing is deleted or saved, nothing is spoilt. -/
theorem BackgroundCall.not_spoils_of_idle {c : BackgroundCall} {l : List (Sigma Outcome)}
    (ha : c.after.record.answers = l ++ c.before.record.answers)
    (hl : ∀ a ∈ l, ¬ a.1.Spends) : ¬ c.Spoils P := by
  have hunsaved : ¬ c.Unsaved := by
    rintro (⟨path, e, h⟩ | ⟨e, h⟩)
    · exact hl _ ((answered_iff ha).mp h) trivial
    · exact hl _ ((answered_iff ha).mp h) trivial
  rintro ⟨path, -, ⟨h, -⟩ | ⟨h, -⟩⟩
  · exact hl _ ((answered_iff ha).mp h) trivial
  · exact hunsaved h

theorem BackgroundCall.not_spoils_of_none {c : BackgroundCall}
    (h : c.before.background._currentBackgroundPath = none) : ¬ c.Spoils P := by
  rintro ⟨path, hpath, -⟩
  rw [h] at hpath
  cases hpath

variable {D : Discipline (device P)} {imageFile : File} {w₁ : World} {old path : Text}
  {l : List (Sigma Outcome)}

/-- What the image at `old` and the copy at `path` have become: the former was the file `k` with the
contents `b`, the latter is the file `k'` with the contents `b'`. -/
structure Exchanged (P : Platform) (imageFile : File) (w w₁ : World) (old path : Text)
    (o : DeleteOutcome) (k k' : Key) (b b' : Bytes) : Prop where
  picture : w.fs.read imageFile = some b'
  image : w.fs.read (.ofPath old) = some b
  leadsOld : (prepared P w.fs).resolve (.ofPath old) = some k
  leadsNew : (prepared P w.fs).resolve (.ofPath path) = some k'
  deleted : o = .done → w₁.fs.read (.ofPath old) = none
  kept : o ≠ .done → w₁.fs.read (.ofPath old) = some (if k' = k then b' else b)
  copy : w₁.fs.read (.ofPath path) = none ↔ o = .done ∧ k' = k

theorem exchanged_of_swapped (hs : Settled w) (hold : w.background._currentBackgroundPath = some old)
    (h : Swapped D imageFile w path l w₁) : ∃ o l₀ k k' b b', (∀ a ∈ l₀, ¬ a.1.Mutates) ∧
      l = ⟨.delete (.ofPath old), o⟩ :: ⟨.copy imageFile (.ofPath path), none⟩ :: l₀ ∧
      Exchanged P imageFile w w₁ old path o k k' b b' := by
  obtain ⟨hl₀, hcopy, hdel, rfl, hlooked⟩ := h
  rename_i b' k' fs fs' l₀ del
  obtain ⟨⟨k, b, hk, hb⟩, -⟩ := hs.current hold
  rw [hold] at hdel
  cases hdel with
  | some _ o ho =>
    have hk₁ := Fs.resolve_mono (fun _ => dirs_prepared (P := P)) hk
    have hold₁ : fs.resolve (.ofPath old) = some k := by rwa [Fs.resolve_congr hcopy.dirs]
    have hnew₁ : fs.resolve (.ofPath path) = some k' := by
      rw [Fs.resolve_congr hcopy.dirs, hcopy.resolve]
    -- what the old path leads to after the copy: the copy itself, if both lead to one file
    have hthere : fs.files k = some (if k' = k then b' else b) := by
      rw [hcopy.files]
      by_cases hkk : k' = k
      · rw [hkk, Function.update_self, if_pos rfl]
      · rw [Function.update_of_ne (Ne.symm hkk), if_neg hkk, hb]
    obtain ⟨hdirs, hends⟩ := Fs.onDelete_of_resolve hold₁ hthere o
    have hold₂ := (Fs.resolve_congr hdirs (.ofPath old)).trans hold₁
    have hnew₂ := (Fs.resolve_congr hdirs (.ofPath path)).trans hnew₁
    refine ⟨o, l₀, k, k', b, b', hl₀, rfl, hcopy.source, ?_, hk₁, hcopy.resolve, ?_, ?_, ?_⟩
    · rw [Fs.read_of_resolve hk, hb]
    -- the old background is deleted
    · rintro rfl
      rw [hlooked.fs, Fs.read_of_resolve hold₂]
      rcases hends with ⟨-, -, hfiles⟩ | ⟨-, ⟨e, ho, -⟩ | ⟨ho, -⟩⟩
      · rw [hfiles, Function.update_self]
      · cases ho
      · cases ho
    -- the deletion fails, and the old background stays
    · intro hne
      rw [hlooked.fs, Fs.read_of_resolve hold₂]
      rcases hends with ⟨ho, -⟩ | ⟨hfiles, -⟩
      · exact absurd ho hne
      · rw [hfiles, hthere]
    -- the copy is lost exactly if it has been deleted as the old background
    · have hcopied : fs.files k' = some b' := by rw [hcopy.files, Function.update_self]
      rw [hlooked.fs, Fs.read_of_resolve hnew₂]
      rcases hends with ⟨rfl, -, hfiles⟩ | ⟨hfiles, ho⟩
      · rw [hfiles]
        by_cases hkk : k' = k
        · simp [hkk]
        · simp [hcopied, hkk]
      · rw [hfiles, hcopied]
        refine iff_of_false nofun ?_
        rintro ⟨rfl, -⟩
        rcases ho with ⟨e, ho, -⟩ | ⟨ho, -⟩ <;> cases ho

/-- Where there was no background, the copy is there. -/
theorem read_of_swapped (hnone : w.background._currentBackgroundPath = none)
    (h : Swapped D imageFile w path l w₁) : w₁.fs.read (.ofPath path) ≠ none := by
  obtain ⟨hl₀, hcopy, hdel, rfl, hlooked⟩ := h
  rename_i b' k' fs fs' l₀ del
  rw [hnone] at hdel
  cases hdel with
  | none =>
    rw [hlooked.fs, Fs.read_of_resolve ((Fs.resolve_congr hcopy.dirs _).trans hcopy.resolve),
      hcopy.files, Function.update_self]
    exact nofun

/-- The calls of an operation that has come to the end of the exchange. -/
theorem BackgroundCall.spoils_iff {c : BackgroundCall} {o : DeleteOutcome} {x : Option DartError}
    {l₀ : List (Sigma Outcome)} {k k' : Key} {b b' : Bytes}
    (hold : c.before.background._currentBackgroundPath = some old)
    (he : Exchanged P imageFile c.before w₁ old path o k k' b b') (hl₀ : ∀ a ∈ l₀, ¬ a.1.Mutates)
    (ha : c.after.record.answers = ⟨.backgroundWrite path, x⟩ :: ⟨.delete (.ofPath old), o⟩ ::
      ⟨.copy imageFile (.ofPath path), none⟩ :: l₀ ++ c.before.record.answers) :
    c.Spoils P ↔ (o = .done ∧ (x ≠ none ∨ k' = k)) ∨ (x ≠ none ∧ k' = k ∧ b' ≠ b) := by
  -- the calls that change something, of which there are at most three
  have hmem (a : Sigma Outcome) (hm : a.1.Mutates) : c.Answered a ↔
      a = ⟨.backgroundWrite path, x⟩ ∨ a = ⟨.delete (.ofPath old), o⟩ ∨
        a = ⟨.copy imageFile (.ofPath path), none⟩ := by
    rw [answered_iff ha, List.mem_cons, List.mem_cons, List.mem_cons]
    have hnot : a ∉ l₀ := fun h => hl₀ a h hm
    simp only [hnot, or_false]
  have hdelete : c.Answered ⟨.delete (.ofPath old), .done⟩ ↔ o = .done := by
    rw [hmem _ (by trivial)]
    constructor
    · rintro (h | h | h) <;> cases h
      rfl
    · rintro rfl
      exact .inr (.inl rfl)
  have hunsaved : c.Unsaved ↔ x ≠ none := by
    constructor
    · rintro (⟨p, e, h⟩ | ⟨e, h⟩)
      · rcases (hmem _ (by trivial)).mp h with h | h | h <;> cases h
        exact nofun
      · rcases (hmem _ (by trivial)).mp h with h | h | h <;> cases h
    · intro hx
      obtain ⟨e, rfl⟩ := Option.ne_none_iff_exists'.mp hx
      exact .inl ⟨path, e, (hmem _ (by trivial)).mpr (.inl rfl)⟩
  have hcopied (picture : File) : c.CopiedTo P old picture ↔ picture = imageFile ∧ k' = k := by
    constructor
    · rintro ⟨t, h, ht⟩
      rcases (hmem _ (by trivial)).mp h with h | h | h <;> cases h
      rw [he.leadsNew, he.leadsOld] at ht
      exact ⟨rfl, Option.some.inj ht⟩
    · rintro ⟨rfl, rfl⟩
      exact ⟨_, (hmem _ (by trivial)).mpr (.inr (.inr rfl)), he.leadsNew.trans he.leadsOld.symm⟩
  unfold Spoils
  simp only [hold, Option.some.injEq, exists_eq_left', hdelete, hunsaved, hcopied, he.image]
  constructor
  · rintro (⟨ho, hx | ⟨picture, -, hk⟩⟩ | ⟨hx, picture, ⟨rfl, hk⟩, hb⟩)
    · exact .inl ⟨ho, .inl hx⟩
    · exact .inl ⟨ho, .inr hk⟩
    · rw [he.picture] at hb
      exact .inr ⟨hx, hk, fun h => hb (congrArg some h)⟩
  · rintro (⟨ho, hx | hk⟩ | ⟨hx, hk, hb⟩)
    · exact .inl ⟨ho, .inl hx⟩
    · exact .inl ⟨ho, .inr ⟨imageFile, rfl, hk⟩⟩
    · refine .inr ⟨hx, imageFile, ⟨rfl, hk⟩, ?_⟩
      rw [he.picture]
      exact fun h => hb (Option.some.inj h)

/-- A background that could not be set. -/
theorem atomic_of_unsaved (hs : Settled w) (hold : w.background._currentBackgroundPath = some old)
    (hbackground : w'.background = w.background) (hsaved : w'.backgroundStorage = w.backgroundStorage)
    {refused : Bool} : BackgroundCall.Atomic ⟨w, refused, w'⟩ ↔
      w'.fs.read (.ofPath old) ≠ none ∧
        (refused = true → w'.fs.read (.ofPath old) = w.fs.read (.ofPath old)) := by
  have himage : w.background._currentBackground = some old := hs.image.trans hold
  constructor
  · rintro ⟨husable, hunchanged⟩
    refine ⟨?_, fun hr => (hunchanged hr).image old hold⟩
    have hcustom : hasCustomBackground w' = true := by
      unfold hasCustomBackground
      rw [hbackground, himage]
      rfl
    obtain ⟨path, hpath, hread, -⟩ := husable hcustom
    rw [hbackground, hold] at hpath
    cases hpath
    exact hread
  · rintro ⟨hread, hsame⟩
    refine ⟨fun _ => ⟨old, hbackground ▸ hold, hread, hsaved.trans (hs.current hold).2⟩, fun hr => ?_⟩
    refine ⟨hbackground, hsaved, fun path hpath => ?_⟩
    obtain rfl : old = path := Option.some.inj (hold.symm.trans hpath)
    exact hsame hr

theorem setBackground_atomic_iff (hs : Settled w) {b : Bool} (h : SetEnds D imageFile w b w') :
    (BackgroundCall.Atomic ⟨w, !b, w'⟩ ↔ ¬ BackgroundCall.Spoils P ⟨w, !b, w'⟩) ∧
      w'.background._currentBackground = w'.background._currentBackgroundPath := by
  cases h with
  -- nothing has been deleted or saved: the state before the call
  | refused hl hfiles hdirs h =>
    have hw := hs.looked h hfiles hdirs
    have hs' := hs.besides hw
    exact ⟨iff_of_true ⟨hs'.usable, fun _ => hw⟩
      (BackgroundCall.not_spoils_of_idle (c := ⟨w, _, w'⟩) h.answers hl), hs'.image⟩
  -- the preference is not written, so the background before the call must be as it was
  | unsaved h ho h' =>
    refine ⟨?_, by rw [h'.background, hs.image]⟩
    cases hold : w.background._currentBackgroundPath with
    | none =>
      have himage : w'.background._currentBackground = none := by
        rw [h'.background, hs.image, hold]
      refine iff_of_true ⟨usable_of_none himage, fun _ => ⟨h'.background, h'.saved, ?_⟩⟩
        (BackgroundCall.not_spoils_of_none hold)
      intro path hpath
      rw [show w.background._currentBackgroundPath = some path from hpath] at hold
      cases hold
    | some old =>
      obtain ⟨o, l₀, k, k', c, c', hl₀, rfl, he⟩ := exchanged_of_swapped hs hold h
      rw [atomic_of_unsaved hs hold h'.background h'.saved, h'.fs,
        BackgroundCall.spoils_iff (c := ⟨w, _, w'⟩) hold he hl₀ h'.answers, he.image]
      by_cases hdone : o = .done
      · simp [he.deleted hdone, hdone]
      · rw [he.kept hdone]
        by_cases hk : k' = k <;> simp [hdone, hk]
  -- all is written, so the new background must be there
  | saved h hfs hbackground hsaved ha =>
    refine ⟨?_, by rw [hbackground]⟩
    have hatomic (path : Text) (hb : w'.background = ⟨some path, some path⟩)
        (hs : w'.backgroundStorage = some path) : BackgroundCall.Atomic ⟨w, !true, w'⟩ ↔
          w'.fs.read (.ofPath path) ≠ none := by
      constructor
      · rintro ⟨husable, -⟩
        obtain ⟨path', hpath, hread, -⟩ := husable (by unfold hasCustomBackground; rw [hb]; rfl)
        rw [hb] at hpath
        cases hpath
        exact hread
      · exact fun hread => ⟨fun _ => ⟨path, by rw [hb], hread, hs⟩, nofun⟩
    rw [hatomic _ hbackground hsaved, hfs]
    cases hold : w.background._currentBackgroundPath with
    | none =>
      exact iff_of_true (read_of_swapped hold h) (BackgroundCall.not_spoils_of_none hold)
    | some old =>
      obtain ⟨o, l₀, k, k', c, c', hl₀, rfl, he⟩ := exchanged_of_swapped hs hold h
      rw [BackgroundCall.spoils_iff (c := ⟨w, _, w'⟩) hold he hl₀ ha, ne_eq, he.copy]
      simp

/-- Without a write of the saved path and without a copy, only a removal of the saved path spoils. -/
theorem BackgroundCall.spoils_clear_iff {c : BackgroundCall} {x : Option DartError}
    {del l₀ : List (Sigma Outcome)} (hold : c.before.background._currentBackgroundPath = some old)
    (hdel : del = [] ∨ ∃ o, del = [⟨.delete (.ofPath old), o⟩]) (hl₀ : ∀ a ∈ l₀, ¬ a.1.Mutates)
    (ha : c.after.record.answers =
      ⟨.backgroundDelete, x⟩ :: (del ++ l₀) ++ c.before.record.answers) :
    c.Spoils P ↔ del = [⟨.delete (.ofPath old), .done⟩] ∧ x ≠ none := by
  -- the calls that change something: one deletion at most, and the preference
  have hmem {op : Op} (y : Outcome op) (hm : op.Mutates) : c.Answered ⟨op, y⟩ ↔
      (⟨op, y⟩ : Sigma Outcome) = ⟨.backgroundDelete, x⟩ ∨ (⟨op, y⟩ : Sigma Outcome) ∈ del := by
    rw [answered_iff ha, List.mem_cons, List.mem_append]
    have hnot : (⟨op, y⟩ : Sigma Outcome) ∉ l₀ := fun h => hl₀ _ h hm
    simp only [hnot, or_false]
  have hother (op : Op) (y : Outcome op) (hm : op.Mutates) (hne : op ≠ .backgroundDelete)
      (hne' : op ≠ .delete (.ofPath old)) : ¬ c.Answered ⟨op, y⟩ := by
    intro h
    rcases (hmem y hm).mp h with h | h
    · exact hne (congrArg Sigma.fst h)
    · rcases hdel with rfl | ⟨o, rfl⟩
      · cases h
      · exact hne' (congrArg Sigma.fst (List.mem_singleton.mp h))
  have hdelete : c.Answered ⟨.delete (.ofPath old), .done⟩ ↔
      del = [⟨.delete (.ofPath old), .done⟩] := by
    rw [hmem _ (by trivial)]
    constructor
    · rintro (h | h)
      · cases h
      · rcases hdel with rfl | ⟨o, rfl⟩
        · cases h
        · rw [List.mem_singleton.mp h]
    · rintro rfl
      exact .inr List.mem_cons_self
  have hunsaved : c.Unsaved ↔ x ≠ none := by
    constructor
    · rintro (⟨p, e, h⟩ | ⟨e, h⟩)
      · exact absurd h (hother (.backgroundWrite p) _ trivial nofun nofun)
      · rcases (hmem _ (by trivial)).mp h with h | h
        · cases h
          exact nofun
        · rcases hdel with rfl | ⟨o, rfl⟩
          · cases h
          · cases List.mem_singleton.mp h
    · intro hx
      obtain ⟨e, rfl⟩ := Option.ne_none_iff_exists'.mp hx
      exact .inr ⟨e, (hmem _ (by trivial)).mpr (.inl rfl)⟩
  have hcopied (picture : File) : ¬ c.CopiedTo P old picture := by
    rintro ⟨t, h, -⟩
    exact hother (.copy picture t) _ trivial nofun nofun h
  unfold Spoils
  simp [hold, hdelete, hunsaved, hcopied]

theorem clearBackground_atomic_iff (hs : Settled w) {r : Except DartError Unit}
    (h : ClearEnds D w r w') :
    (BackgroundCall.Atomic ⟨w, false, w'⟩ ↔ ¬ BackgroundCall.Spoils P ⟨w, false, w'⟩) ∧
      w'.background._currentBackground = w'.background._currentBackgroundPath := by
  cases hold : w.background._currentBackgroundPath with
  -- there is no background to lose
  | none =>
    have hnone : w'.background._currentBackground = none := by
      cases h with
      | unsaved hl hdel ho h => rw [h.background, hs.image, hold]
      | cleared hl hdel hfs hbackground hsaved ha => rw [hbackground]
    refine ⟨iff_of_true ⟨usable_of_none hnone, nofun⟩ (BackgroundCall.not_spoils_of_none hold), ?_⟩
    cases h with
    | unsaved hl hdel ho h => rw [h.background, hs.image]
    | cleared hl hdel hfs hbackground hsaved ha => rw [hbackground]
  | some old =>
    obtain ⟨⟨k, b, hk, hb⟩, hsaved⟩ := hs.current hold
    -- the file of the background is gone exactly if its deletion has succeeded
    have hdropped {fs : Fs} {del : List (Sigma Outcome)}
        (hdel : Discarded D w.fs w.background._currentBackgroundPath del fs) :
        (del = [] ∨ ∃ o, del = [⟨.delete (.ofPath old), o⟩]) ∧
          (fs.read (.ofPath old) = none ↔ del = [⟨.delete (.ofPath old), .done⟩]) := by
      have hread : w.fs.read (.ofPath old) ≠ none := by rw [Fs.read_of_resolve hk, hb]; exact nofun
      rw [hold] at hdel
      cases hdel with
      | absent _ hnone => exact absurd hnone hread
      | unseen _ e he => exact ⟨.inl rfl, iff_of_false hread nofun⟩
      | some _ o ho =>
        refine ⟨.inr ⟨o, rfl⟩, ?_⟩
        obtain ⟨hdirs, hends⟩ := Fs.onDelete_of_resolve hk hb o
        rw [Fs.read_of_resolve ((Fs.resolve_congr hdirs _).trans hk)]
        rcases hends with ⟨rfl, -, hfiles⟩ | ⟨hfiles, ho⟩
        · simp [hfiles]
        · rw [hfiles, hb]
          refine iff_of_false nofun fun hdone => ?_
          cases hdone
          rcases ho with ⟨e, ho, -⟩ | ⟨ho, -⟩ <;> cases ho
    cases h with
    | unsaved hl hdel ho h =>
      obtain ⟨hdel', hread⟩ := hdropped hdel
      refine ⟨?_, by rw [h.background, hs.image]⟩
      rw [atomic_of_unsaved hs hold h.background h.saved,
        BackgroundCall.spoils_clear_iff (c := ⟨w, _, w'⟩) hold hdel' hl h.answers, h.fs, ne_eq, hread]
      simp
    -- the call succeeds: no background is in use any more
    | cleared hl hdel hfs hbackground hsaved' ha =>
      refine ⟨?_, by rw [hbackground]⟩
      rw [BackgroundCall.spoils_clear_iff (c := ⟨w, _, w'⟩) hold (hdropped hdel).1 hl ha]
      refine iff_of_true ⟨usable_of_none (by rw [hbackground]), nofun⟩ ?_
      exact fun h => h.2 rfl

theorem init_atomic_iff (hs : Settled w) (h : InitEnds D w w') :
    (BackgroundCall.Atomic ⟨w, false, w'⟩ ↔ ¬ BackgroundCall.Spoils P ⟨w, false, w'⟩) ∧
      w'.background._currentBackground = w'.background._currentBackgroundPath := by
  cases h with
  | looked hl h =>
    have hs' := hs.besides (hs.looked h rfl fun _ => id)
    exact ⟨iff_of_true ⟨hs'.usable, nofun⟩ (BackgroundCall.not_spoils_of_idle (c := ⟨w, _, w'⟩)
      h.answers fun a ha hspends => hl a ha hspends.mutates), hs'.image⟩
  -- the saved path is put in force after a look at its file
  | restored hsaved hfound hfs hbackground hsaved' ha =>
    obtain ⟨l, hl, ha⟩ := ha
    refine ⟨iff_of_true ⟨fun _ => ?_, nofun⟩ (BackgroundCall.not_spoils_of_idle
      (c := ⟨w, _, w'⟩) ha fun a ha hspends => hl a ha hspends.mutates), by rw [hbackground]⟩
    exact ⟨_, by rw [hbackground], by rwa [hfs], hsaved'.trans hsaved⟩
  | cleared hsaved hfound h hfs hbackground hsaved' ha =>
    -- a background that is in use would have been found
    have hold : w.background._currentBackgroundPath = none := by
      by_contra hne
      obtain ⟨old, hold⟩ := Option.ne_none_iff_exists'.mp hne
      obtain ⟨⟨k, b, hk, hb⟩, hsaved''⟩ := hs.current hold
      obtain rfl := Option.some.inj (hsaved.symm.trans hsaved'')
      rw [Fs.read_of_resolve hk, hb] at hfound
      cases hfound
    obtain ⟨-, himage⟩ := clearBackground_atomic_iff hs h
    have hnone : w'.background._currentBackground = none := by
      rw [hbackground]
      cases h with
      | unsaved hl hdel ho h => rw [h.background, hs.image, hold]
      | cleared hl hdel hfs hbackground hsaved ha => rw [hbackground]
    exact ⟨iff_of_true ⟨usable_of_none hnone, nofun⟩ (BackgroundCall.not_spoils_of_none hold),
      by rw [hbackground, himage]⟩

/-- **An operation is as wanted** exactly when no failure spoils it. -/
theorem BackgroundCall.Happens.atomic {c : BackgroundCall} (hc : c.Happens P)
    (hs : Settled c.before) : (c.Atomic ↔ ¬ c.Spoils P) ∧
      c.after.background._currentBackground = c.after.background._currentBackgroundPath := by
  have hr : ∀ w w', (undisturbed P).rely w w' → TimePasses w w' := fun _ _ => id
  have hg : ∀ w w', (undisturbed P).guarantee w w' := fun _ _ => trivial
  cases hc with
  | init h => exact init_atomic_iff hs (wp_completes (init_wp hr hg _) h)
  | setBackground imageFile h =>
    obtain ⟨b, hb, hends⟩ := wp_completes (setBackground_wp hr hg imageFile _) h
    cases hb
    exact setBackground_atomic_iff hs hends
  | clearBackground h =>
    exact clearBackground_atomic_iff hs
      (wp_completes (clearBackground_wp hr hg (List.forall_mem_nil _) (Looked.refl _)) h)
  | restart w =>
    refine ⟨iff_of_true ⟨usable_of_none rfl, nofun⟩ ?_, rfl⟩
    have ha : (restarted w).record.answers = [] ++ w.record.answers := rfl
    exact BackgroundCall.not_spoils_of_idle (c := ⟨w, _, restarted w⟩) ha (List.forall_mem_nil _)

/-! ## Runs -/

/-- **Changing the background is atomic and leaves a usable image** in a run from the start of the
process exactly when no operation of the run is spoilt. -/
theorem BackgroundRun.atomic_iff {w₀ w : World} {cs : List BackgroundCall}
    (h : BackgroundRun P w₀ cs w) (h₀ : w₀.background = ⟨none, none⟩) :
    (∀ c ∈ cs, c.Atomic) ↔ ∀ c ∈ cs, ¬ c.Spoils P := by
  -- up to the first operation that is spoilt, the world is settled between the operations
  suffices hrun : ((∀ c ∈ cs, c.Atomic) ↔ ∀ c ∈ cs, ¬ c.Spoils P) ∧
      ((∀ c ∈ cs, c.Atomic) → Settled w) from hrun.1
  induction h with
  | start => exact ⟨by simp, fun _ => ⟨by rw [h₀], usable_of_none (by rw [h₀])⟩⟩
  | @call cs w c _ hw hc ih =>
    obtain ⟨hiff, hsettled⟩ := ih
    simp only [List.forall_mem_cons]
    constructor
    · constructor
      · rintro ⟨hatomic, hall⟩
        have hs := (hsettled hall).besides hw
        exact ⟨(hc.atomic hs).1.mp hatomic, hiff.mp hall⟩
      · rintro ⟨hspoils, hall⟩
        have hs := (hsettled (hiff.mpr hall)).besides hw
        exact ⟨(hc.atomic hs).1.mpr hspoils, hiff.mpr hall⟩
    · rintro ⟨hatomic, hall⟩
      exact ⟨(hc.atomic ((hsettled hall).besides hw)).2, hatomic.1⟩

/-! ## A background that is lost -/

/-- The picture `a.jpg` of the user. -/
def File.picture : File := ⟨["home".toList], "a.jpg".toList⟩

/-- A device with a picture. -/
def World.pictured : World :=
  let w := sample [] [1]
  { w with fs := w.fs.put ⟨["home".toList], "a.jpg".toList⟩ [2] fits_picture }

/-- As usual, but the path is not saved. -/
def unsaving : (op : Op) → Outcome op
  | .backgroundWrite _ => some (.platform "Unexpected".toList none)
  | op => usual op

/-- Along an oracle a picture is set as the background. -/
def BackgroundCall.setting (oracle : (op : Op) → Outcome op) (refused : Bool) (w : World) :
    BackgroundCall :=
  ⟨w, refused, ((BackgroundService.setBackground (.sample .marked) .picture).run
    (device (.sample .marked)) (fun _ => oracle) 0 w).2⟩

theorem BackgroundCall.happens_setting (oracle : (op : Op) → Outcome op) (refused : Bool) (w : World)
    (h : ((BackgroundService.setBackground (.sample .marked) .picture).run
      (device (.sample .marked)) (fun _ => oracle) 0 w).1 = .ok (!refused)) :
    (setting oracle refused w).Happens (.sample .marked) := by
  have hrun : (BackgroundService.setBackground (.sample .marked) .picture).Completes
      (undisturbed (.sample .marked)) w (.ok !refused) (setting oracle refused w).after := by
    rw [← h]
    exact completes_run (D := undisturbed (.sample .marked)) (fun w => ⟨w.now, rfl⟩)
      (fun _ _ _ => trivial) (fun _ _ _ => trivial) _ 0 w
  have hset := Happens.setBackground .picture hrun
  rwa [Bool.not_not] at hset

/-- The picture is set as the background. -/
def BackgroundCall.first : BackgroundCall := setting usual false .pictured

/-- The picture is set again a second later, while the first copy of it is in use. -/
def BackgroundCall.renewed : BackgroundCall :=
  setting usual false { first.after with now := ⟨1000000, by decide⟩ }

/-- The picture is to be set again, a second later. -/
def BackgroundCall.second : BackgroundCall :=
  setting unsaving true { first.after with now := ⟨1000000, by decide⟩ }

theorem BackgroundRun.first :
    BackgroundRun (.sample .marked) .pictured [BackgroundCall.first] BackgroundCall.first.after :=
  .call _ .start ⟨rfl, rfl, fun _ _ => rfl⟩ (BackgroundCall.happens_setting _ _ _ (by rfl))

theorem BackgroundRun.renewed :
    BackgroundRun (.sample .marked) .pictured [.renewed, .first] BackgroundCall.renewed.after :=
  .call _ BackgroundRun.first ⟨rfl, rfl, fun _ _ => rfl⟩
    (BackgroundCall.happens_setting _ _ _ (by rfl))

theorem BackgroundRun.atomic_iff_renewed :
    (BackgroundCall.renewed.before.background._currentBackground ≠ none ∧
      BackgroundCall.renewed.after.background._currentBackground ≠
        BackgroundCall.renewed.before.background._currentBackground) ∧
    ((∀ c ∈ [BackgroundCall.renewed, .first], c.Atomic) ↔
      ∀ c ∈ [BackgroundCall.renewed, .first], ¬ c.Spoils (.sample .marked)) :=
  ⟨by decide +kernel, BackgroundRun.atomic_iff BackgroundRun.renewed rfl⟩

/-- The second time the path is not saved: the image is gone, and still in use. -/
theorem BackgroundRun.not_atomic_second : ∃ cs w, BackgroundRun (.sample .marked) .pictured cs w ∧
    World.pictured.background = ⟨none, none⟩ ∧ ¬ ∀ c ∈ cs, c.Atomic := by
  refine ⟨[.second, .first], BackgroundCall.second.after, ?_, rfl, fun h => ?_⟩
  · exact .call _ BackgroundRun.first ⟨rfl, rfl, fun _ _ => rfl⟩
      (BackgroundCall.happens_setting _ _ _ (by rfl))
  · obtain ⟨path, hpath, hread, -⟩ := (h _ List.mem_cons_self).1 rfl
    have hlost : (BackgroundCall.second.after.background._currentBackgroundPath.bind fun path =>
        BackgroundCall.second.after.fs.read (.ofPath path)) = none := by
      decide +kernel
    rw [hpath] at hlost
    exact hread hlost

end CajaSegura
