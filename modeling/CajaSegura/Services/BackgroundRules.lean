import CajaSegura.Platform.FileRules
import CajaSegura.Services.BackgroundService

/-!
# Reasoning about the background

What the operations leave of the files, of the saved path and of the fields, for each way in which
their calls may turn out, while nothing but time passes.

## Main definitions

* `BackgroundService.Looked`: a stretch in which nothing is deleted or saved
* `BackgroundService.SetEnds`, `BackgroundService.ClearEnds`, `BackgroundService.InitEnds`: how an
  operation ends

## Main results

* `BackgroundService.setBackground_wp`, `BackgroundService.clearBackground_wp`,
  `BackgroundService.init_wp`: every operation ends so
-/

namespace CajaSegura

open Codec Async
open Program hiding bind

/-- The calls that delete a file or change the saved path. -/
def Op.Spends : Op → Prop
  | .delete _ | .backgroundWrite _ | .backgroundDelete => True
  | _ => False

theorem Op.Spends.mutates {op : Op} (h : op.Spends) : op.Mutates := by
  cases op <;> trivial

namespace BackgroundService

variable (P : Platform)

/-- The files once the directory for backgrounds is there. -/
def prepared (fs : Fs) : Fs :=
  if fs.dirs (backgroundsDir P) then fs else fs.create (backgroundsDir P)

variable {P}

theorem files_prepared (fs : Fs) : (prepared P fs).files = fs.files := by
  unfold prepared
  split <;> rfl

theorem dirs_prepared {fs : Fs} {p : Path} (h : fs.dirs p = true) :
    (prepared P fs).dirs p = true := by
  unfold prepared
  split
  · exact h
  · simp [Fs.create, h]

theorem read_prepared {fs : Fs} {f : File} {b : Bytes} (h : fs.read f = some b) :
    (prepared P fs).read f = some b := by
  obtain ⟨k, hk, hb⟩ := Option.bind_eq_some_iff.mp h
  rw [Fs.read_of_resolve (Fs.resolve_mono (fun _ => dirs_prepared) hk), files_prepared, hb]

/-- The calls `l` have been answered; the files are `fs`, and the rest is as before. -/
structure Looked (w : World) (fs : Fs) (l : List (Sigma Outcome)) (w' : World) : Prop where
  fs : w'.fs = fs
  background : w'.background = w.background
  saved : w'.backgroundStorage = w.backgroundStorage
  answers : w'.record.answers = l ++ w.record.answers

variable {D : Discipline (device P)} {w w' w'' : World} {fs fs' : Fs} {l l' : List (Sigma Outcome)}

theorem Looked.refl (w : World) : Looked w w.fs [] w := ⟨rfl, rfl, rfl, rfl⟩

/-- A call that leaves the saved path alone. -/
theorem Looked.next (h : Looked w fs l w') {op : Op} {o : Outcome op}
    (ht : TimePasses (w'.exec P op o).2 w'') (hfs : (w'.exec P op o).2.fs = fs')
    (hs : (w'.exec P op o).2.backgroundStorage = w'.backgroundStorage) :
    Looked w fs' (⟨op, o⟩ :: l) w'' := by
  have hb := (World.outside_exec P w' op o).background
  have ha := World.answers_exec (P := P) w' op o
  rw [h.answers] at ha
  obtain ⟨t, rfl⟩ := ht
  exact ⟨hfs, hb.trans h.background, hs.trans h.saved, ha⟩

/-- The deletion of the image at `path`, if there is one. -/
inductive Dropped (D : Discipline (device P)) (fs : Fs) :
    Option Text → List (Sigma Outcome) → Fs → Prop
  | none : Dropped D fs none [] fs
  | some (path : Text) (o : DeleteOutcome) (ho : ∃ w, D.allow w (.delete (.ofPath path)) o) :
    Dropped D fs (some path) [⟨.delete (.ofPath path), o⟩] (fs.onDelete (.ofPath path) o).2

/-- The picture, which holds `b`, has been copied to `path`, which leads to the file `k`. -/
structure Copied (D : Discipline (device P)) (imageFile : File) (w : World) (path : Text)
    (b : Bytes) (k : Key) (fs : Fs) : Prop where
  source : w.fs.read imageFile = some b
  named : ∃ w₁ w₂, D.rely w₁ w₂ ∧ path = newPath P w₂.now imageFile.path
  resolve : (prepared P w.fs).resolve (.ofPath path) = some k
  dirs : fs.dirs = (prepared P w.fs).dirs
  files : fs.files = Function.update w.fs.files k (some b)

/-- The picture has been copied and the image before it deleted. -/
inductive Swapped (D : Discipline (device P)) (imageFile : File) (w : World) (path : Text)
    (l : List (Sigma Outcome)) (w' : World) : Prop
  | intro {b : Bytes} {k : Key} {fs fs' : Fs} {l₀ del : List (Sigma Outcome)}
    (hl₀ : ∀ a ∈ l₀, ¬ a.1.Mutates) (hcopy : Copied D imageFile w path b k fs)
    (hdel : Dropped D fs w.background._currentBackgroundPath del fs')
    (hl : l = del ++ ⟨.copy imageFile (.ofPath path), none⟩ :: l₀) (h : Looked w fs' l w')

/-- How `setBackground` ends: it has not come to change anything, or the path of the copy could not
be saved, or it has. -/
inductive SetEnds (D : Discipline (device P)) (imageFile : File) (w : World) : Bool → World → Prop
  | refused {l : List (Sigma Outcome)} {fs : Fs} {w' : World} (hl : ∀ a ∈ l, ¬ a.1.Spends)
    (hfiles : fs.files = w.fs.files) (hdirs : ∀ p, w.fs.dirs p = true → fs.dirs p = true)
    (h : Looked w fs l w') : SetEnds D imageFile w false w'
  | unsaved {path : Text} {l : List (Sigma Outcome)} {w₁ w' : World} {e : DartError}
    (h : Swapped D imageFile w path l w₁) (ho : ∃ w, D.allow w (.backgroundWrite path) (some e))
    (h' : Looked w w₁.fs (⟨.backgroundWrite path, some e⟩ :: l) w') :
    SetEnds D imageFile w false w'
  | saved {path : Text} {l : List (Sigma Outcome)} {w₁ w' : World}
    (h : Swapped D imageFile w path l w₁) (fs : w'.fs = w₁.fs)
    (background : w'.background = ⟨some path, some path⟩)
    (saved : w'.backgroundStorage = some path)
    (answers : w'.record.answers = ⟨.backgroundWrite path, none⟩ :: l ++ w.record.answers) :
    SetEnds D imageFile w true w'

/-- The image at `path` is deleted if it is found. -/
inductive Discarded (D : Discipline (device P)) (fs : Fs) :
    Option Text → List (Sigma Outcome) → Fs → Prop
  | none : Discarded D fs none [] fs
  | absent (path : Text) (h : fs.read (.ofPath path) = none) : Discarded D fs (some path) [] fs
  | unseen (path : Text) (e : DartError)
    (he : ∃ w, D.allow w (.fileExists (.ofPath path)) (some e)) :
    Discarded D fs (some path) [] fs
  | some (path : Text) (o : DeleteOutcome) (ho : ∃ w, D.allow w (.delete (.ofPath path)) o) :
    Discarded D fs (some path) [⟨.delete (.ofPath path), o⟩] (fs.onDelete (.ofPath path) o).2

/-- How `clearBackground` ends, after the calls `l`: the saved path is removed, or could not be. -/
inductive ClearEnds (D : Discipline (device P)) (w : World) : Except DartError Unit → World → Prop
  | unsaved {l del : List (Sigma Outcome)} {fs : Fs} {w' : World} {e : DartError}
    (hl : ∀ a ∈ l, ¬ a.1.Mutates)
    (hdel : Discarded D w.fs w.background._currentBackgroundPath del fs)
    (ho : ∃ w, D.allow w .backgroundDelete (some e))
    (h : Looked w fs (⟨.backgroundDelete, some e⟩ :: (del ++ l)) w') : ClearEnds D w (.error e) w'
  | cleared {l del : List (Sigma Outcome)} {fs : Fs} {w' : World} (hl : ∀ a ∈ l, ¬ a.1.Mutates)
    (hdel : Discarded D w.fs w.background._currentBackgroundPath del fs) (fs : w'.fs = fs)
    (background : w'.background = ⟨none, none⟩) (saved : w'.backgroundStorage = none)
    (answers : w'.record.answers = ⟨.backgroundDelete, none⟩ :: (del ++ l) ++ w.record.answers) :
    ClearEnds D w (.ok ()) w'

/-- How `init` ends: nothing is saved, or what is saved is found, or it is not and is cleared. -/
inductive InitEnds (D : Discipline (device P)) (w : World) : World → Prop
  | looked {l : List (Sigma Outcome)} {w' : World} (hl : ∀ a ∈ l, ¬ a.1.Mutates)
    (h : Looked w w.fs l w') : InitEnds D w w'
  | restored {path : Text} {w' : World} (hsaved : w.backgroundStorage = some path)
    (hfound : w.fs.read (.ofPath path) ≠ none) (fs : w'.fs = w.fs)
    (background : w'.background = ⟨some path, some path⟩)
    (saved : w'.backgroundStorage = w.backgroundStorage)
    (answers : ∃ l, (∀ a ∈ l, ¬ a.1.Mutates) ∧ w'.record.answers = l ++ w.record.answers) :
    InitEnds D w w'
  | cleared {path : Text} {r : Except DartError Unit} {w₁ w' : World}
    (hsaved : w.backgroundStorage = some path) (hfound : w.fs.read (.ofPath path) = none)
    (h : ClearEnds D w r w₁) (fs : w'.fs = w₁.fs) (background : w'.background = w₁.background)
    (saved : w'.backgroundStorage = w₁.backgroundStorage)
    (answers : w'.record.answers = ⟨.hop, ()⟩ :: w₁.record.answers) : InitEnds D w w'

section Undisturbed

variable (hr : ∀ w w', D.rely w w' → TimePasses w w') (hg : ∀ w w', D.guarantee w w')

include hr hg

/-- A call that leaves the files and the saved path alone. -/
theorem Looked.look (h : Looked w fs l w') {op : Op} (hfs : ∀ o, (w'.exec P op o).2.fs = w'.fs)
    (hs : ∀ o, (w'.exec P op o).2.backgroundStorage = w'.backgroundStorage)
    {Q : Except DartError (Reply op) → World → Prop}
    (hQ : ∀ o w'', Looked w fs (⟨op, o⟩ :: l) w'' → (∃ w₁, D.rely w₁ w'') →
      Q (w'.exec P op o).1 w'') : (call op).wp D Q w' := by
  apply wp_call_passing hr hg
  intro o _ w'' ht hrely
  exact hQ o w'' (h.next ht ((hfs o).trans h.fs) (hs o)) hrely

/-- The image before is deleted, and an error is ignored. -/
theorem deleteCurrent_wp (h : Looked w fs l w') :
    deleteCurrent.wp D (fun r w'' => r = .ok () ∧ ∃ del fs',
      Dropped D fs w.background._currentBackgroundPath del fs' ∧ Looked w fs' (del ++ l) w'') w' := by
  unfold deleteCurrent
  rw [wp_bind, wp_get, h.background]
  cases w.background._currentBackgroundPath with
  | none => exact ⟨rfl, _, _, .none, h⟩
  | some path =>
    dsimp only
    rw [wp_tryCatch]
    apply wp_call_passing hr hg
    intro o ho w₁ ht _
    have h₁ : Looked w (fs.onDelete (.ofPath path) o).2 (⟨.delete (.ofPath path), o⟩ :: l) w₁ := by
      refine h.next ht ?_ rfl
      rw [← h.fs]
      rfl
    have hdropped : Dropped D fs (some path) [⟨.delete (.ofPath path), o⟩]
        (fs.onDelete (.ofPath path) o).2 := .some path o ho
    have hend := And.intro hdropped h₁
    cases (w'.exec P (.delete (.ofPath path)) o).1 with
    | ok u => exact ⟨rfl, _, _, hend⟩
    | error e => exact ⟨rfl, _, _, hend⟩

/-- The copy, the deletion and the saving, in this order. -/
theorem replaceBackground_wp (imageFile : File) (hthere : w.fs.read imageFile ≠ none)
    (hl : ∀ a ∈ l, ¬ a.1.Mutates) (h : Looked w (prepared P w.fs) l w')
    (hrely : ∃ w₁, D.rely w₁ w') :
    (replaceBackground P imageFile).wp D (fun r w'' => match r with
      | .ok b => SetEnds D imageFile w b w''
      | .error _ => SetEnds D imageFile w false w'') w' := by
  unfold replaceBackground
  rw [wp_bind, wp_get]
  dsimp only
  generalize hpath : newPath P w'.now imageFile.path = path
  rw [wp_bind]
  apply wp_call_passing hr hg
  intro o _ w₁ ht₁ _
  have hfs : (w'.exec P (.copy imageFile (.ofPath path)) o).2.fs =
      ((prepared P w.fs).onCopy imageFile (.ofPath path) o).2 := by
    rw [← h.fs]
    rfl
  have hx : (w'.exec P (.copy imageFile (.ofPath path)) o).1 =
      ((prepared P w.fs).onCopy imageFile (.ofPath path) o).1 := by
    rw [← h.fs]
    rfl
  have h₁ := h.next ht₁ hfs rfl
  rw [hx]
  -- the copy fails and nothing has changed, or the copy is there
  rcases Fs.onCopy_ends (prepared P w.fs) imageFile (.ofPath path) o with
    ⟨e, he⟩ | ⟨rfl, b, k, fs, hb, hk, hdirs, hfiles, he⟩
  · rw [he] at h₁ ⊢
    refine .refused (List.forall_mem_cons.mpr ⟨id, fun a ha hs => hl a ha hs.mutates⟩) ?_ ?_ h₁
    · exact files_prepared w.fs
    · exact fun p => dirs_prepared
  · rw [he] at h₁ ⊢
    dsimp only at h₁ ⊢
    rw [wp_bind]
    refine wp_mono _ ?_ (deleteCurrent_wp hr hg h₁)
    rintro r w₂ ⟨rfl, del, fs', hdel, h₂⟩
    have hcopied : Copied D imageFile w path b k fs := by
      obtain ⟨w₃, hw₃⟩ := hrely
      have hsource : w.fs.read imageFile = some b := by
        obtain ⟨b', hb'⟩ := Option.ne_none_iff_exists'.mp hthere
        rw [← hb, hb', read_prepared hb']
      exact ⟨hsource, ⟨w₃, w', hw₃, hpath.symm⟩, hk, hdirs, hfiles.trans (by rw [files_prepared])⟩
    have hswapped : Swapped D imageFile w path _ w₂ := ⟨hl, hcopied, hdel, rfl, h₂⟩
    dsimp only
    rw [wp_bind]
    apply wp_call_passing hr hg
    intro o₃ ho₃ w₃ ht₃ _
    have hanswers := World.answers_exec (P := P) w₂ (.backgroundWrite path) o₃
    rw [h₂.answers] at hanswers
    obtain ⟨t, rfl⟩ := ht₃
    -- the old file may be gone by now, also where the new path is not saved
    cases o₃ with
    | some e =>
      refine .unsaved hswapped ho₃ ⟨rfl, h₂.background, h₂.saved, hanswers⟩
    | none => exact ⟨hg _ _, .saved hswapped rfl rfl rfl hanswers⟩

theorem setBackground_wp (imageFile : File) (w : World) :
    (setBackground P imageFile).wp D (fun r w' => ∃ b, r = .ok b ∧ SetEnds D imageFile w b w') w := by
  unfold setBackground
  rw [wp_tryCatch]
  refine wp_mono _ ?_ (?_ : (setBackgroundBody P imageFile).wp D (fun r w' => match r with
    | .ok b => SetEnds D imageFile w b w'
    | .error _ => SetEnds D imageFile w false w') w)
  · rintro (e | b) w' h
    · exact ⟨false, rfl, h⟩
    · exact ⟨b, rfl, h⟩
  have hrefused {l : List (Sigma Outcome)} {w' : World} (hl : ∀ a ∈ l, ¬ a.1.Mutates)
      (h : Looked w w.fs l w') : SetEnds D imageFile w false w' :=
    .refused (fun a ha hs => hl a ha hs.mutates) rfl (fun _ => id) h
  have hcons (a : Sigma Outcome) {l : List (Sigma Outcome)} (ha : ¬ a.1.Mutates)
      (hl : ∀ b ∈ l, ¬ b.1.Mutates) : ∀ b ∈ a :: l, ¬ b.1.Mutates :=
    List.forall_mem_cons.mpr ⟨ha, hl⟩
  unfold setBackgroundBody
  rw [wp_bind]
  apply (Looked.refl w).look hr hg (fun o => by cases o <;> rfl) fun o => by cases o <;> rfl
  intro o₁ w₁ h₁ _
  have hl₁ := hcons ⟨.fileExists imageFile, o₁⟩ id (List.forall_mem_nil _)
  cases o₁ with
  | some e => exact hrefused hl₁ h₁
  | none =>
    change (if !(w.fs.read imageFile).isSome then _ else _ : App Bool).wp D _ w₁
    -- every way out up to here leaves files and preference as they were
    by_cases hthere : w.fs.read imageFile = none
    · rw [hthere]
      exact hrefused hl₁ h₁
    rw [if_neg (by simpa using hthere), wp_bind]
    apply h₁.look hr hg (fun o => by cases o <;> rfl) fun o => by cases o <;> rfl
    intro o₂ w₂ h₂ _
    have hl₂ := hcons ⟨.supportDirectory, o₂⟩ id hl₁
    cases o₂ with
    | some e => exact hrefused hl₂ h₂
    | none =>
      change (_ : App Bool).wp D _ w₂
      rw [wp_bind]
      apply h₂.look hr hg (fun o => by cases o <;> rfl) fun o => by cases o <;> rfl
      intro o₃ w₃ h₃ hrely₃
      have hl₃ := hcons ⟨.dirExists (backgroundsDir P), o₃⟩ id hl₂
      cases o₃ with
      | some e => exact hrefused hl₃ h₃
      | none =>
        change (_ : App Bool).wp D _ w₃
        rw [wp_bind, wp_when]
        change (((!w₂.fs.dirs (backgroundsDir P)) = true → _) ∧
          ((!w₂.fs.dirs (backgroundsDir P)) = false → _))
        rw [h₂.fs]
        -- the directory is made if it is not there
        constructor
        · intro hmade
          rw [Bool.not_eq_true'] at hmade
          apply wp_call_passing hr hg
          intro o₄ _ w₄ ht₄ hrely₄
          have hl₄ := hcons ⟨.dirCreate (backgroundsDir P), o₄⟩ id hl₃
          cases o₄ with
          | some e =>
            have hfs : (w₃.exec P (.dirCreate (backgroundsDir P)) (some e)).2.fs = w.fs := h₃.fs
            exact hrefused hl₄ (h₃.next ht₄ hfs rfl)
          | none =>
            have hfs : (w₃.exec P (.dirCreate (backgroundsDir P)) none).2.fs = prepared P w.fs := by
              rw [prepared, if_neg (by simp [hmade]), ← h₃.fs]
              rfl
            exact replaceBackground_wp hr hg imageFile hthere hl₄ (h₃.next ht₄ hfs rfl) hrely₄
        · intro hmade
          rw [Bool.not_eq_false'] at hmade
          have hfs : w.fs = prepared P w.fs := (if_pos hmade).symm
          exact replaceBackground_wp hr hg imageFile hthere hl₃ (hfs ▸ h₃) hrely₃

/-- The image is deleted if it is found, and an error is ignored. -/
theorem clearBackground_wp (hl : ∀ a ∈ l, ¬ a.1.Mutates) (h : Looked w w.fs l w') :
    clearBackground.wp D (ClearEnds D w) w' := by
  -- after the file, deleted or not, the preference goes
  have hend {l del : List (Sigma Outcome)} {fs : Fs} {w' : World} (hl : ∀ a ∈ l, ¬ a.1.Mutates)
      (hdel : Discarded D w.fs w.background._currentBackgroundPath del fs)
      (h : Looked w fs (del ++ l) w') : Program.wp D (do
        call .backgroundDelete
        Program.modify cleared) (ClearEnds D w) w' := by
    rw [wp_bind]
    apply wp_call_passing hr hg
    intro o ho w₁ ht _
    have hanswers := World.answers_exec (P := P) w' .backgroundDelete o
    rw [h.answers] at hanswers
    obtain ⟨t, rfl⟩ := ht
    cases o with
    | some e => exact .unsaved hl hdel ho ⟨h.fs, h.background, h.saved, hanswers⟩
    | none => exact ⟨hg _ _, .cleared hl hdel h.fs rfl rfl hanswers⟩
  unfold clearBackground
  rw [wp_bind, wp_tryCatch, wp_bind, wp_get, h.background]
  cases hcur : w.background._currentBackgroundPath with
  -- no background is in use
  | none => exact hend hl (by rw [hcur]; exact .none) h
  | some path =>
    have hl' (o : Outcome (.fileExists (.ofPath path))) :
        ∀ a ∈ (⟨.fileExists (.ofPath path), o⟩ : Sigma Outcome) :: l, ¬ a.1.Mutates :=
      List.forall_mem_cons.mpr ⟨id, hl⟩
    dsimp only
    rw [wp_bind]
    apply wp_call_passing hr hg
    intro o₁ ho₁ w₁ ht₁ _
    cases o₁ with
    | some e =>
      have h₁ := h.next ht₁ h.fs rfl
      exact hend (hl' (some e)) (by rw [hcur]; exact .unseen path e ho₁) h₁
    | none =>
      have h₁ := h.next ht₁ h.fs rfl
      change (when (w'.fs.read (.ofPath path)).isSome (call (.delete (.ofPath path)))).wp D _ w₁
      rw [wp_when, h.fs]
      constructor
      · intro _
        apply wp_call_passing hr hg
        intro o₂ ho₂ w₂ ht₂ _
        have hfs : (w₁.exec P (.delete (.ofPath path)) o₂).2.fs =
            (w.fs.onDelete (.ofPath path) o₂).2 := by
          rw [← h₁.fs]
          rfl
        have h₂ := h₁.next ht₂ hfs rfl
        have hdel : Discarded D w.fs w.background._currentBackgroundPath
            [⟨.delete (.ofPath path), o₂⟩] (w.fs.onDelete (.ofPath path) o₂).2 := by
          rw [hcur]
          exact .some path o₂ ho₂
        rcases (w₁.exec P (.delete (.ofPath path)) o₂).1 with e | u
        · exact hend (hl' none) hdel h₂
        · exact hend (hl' none) hdel h₂
      · intro hnone
        have habsent : w.fs.read (.ofPath path) = none := by simpa using hnone
        exact hend (hl' none) (by rw [hcur]; exact .absent path habsent) h₁

theorem init_wp (w : World) : (init : App Unit).wp D (fun _ w' => InitEnds D w w') w := by
  unfold init
  rw [wp_bind]
  apply (Looked.refl w).look hr hg (fun o => by cases o <;> rfl) fun o => by cases o <;> rfl
  intro o₁ w₁ h₁ _
  have hl₁ : ∀ a ∈ [(⟨.backgroundRead, o₁⟩ : Sigma Outcome)], ¬ a.1.Mutates := by
    simp [Op.Mutates]
  have hlooked := InitEnds.looked (D := D) hl₁ h₁
  cases o₁ with
  | fails e => exact hlooked
  | absent => exact hlooked
  | empty => exact hlooked
  | stored =>
    have hread : (w.exec P .backgroundRead .stored).1 = .ok w.backgroundStorage := rfl
    rw [hread]
    dsimp only
    cases hsaved : w.backgroundStorage with
    | none => exact hlooked
    | some path =>
      dsimp only
      rw [wp_when]
      refine ⟨fun _ => ?_, fun _ => hlooked⟩
      rw [wp_bind]
      apply h₁.look hr hg (fun o => by cases o <;> rfl) fun o => by cases o <;> rfl
      intro o₂ w₂ h₂ _
      have hl₂ : ∀ a ∈
          [⟨.fileExists (.ofPath path), o₂⟩, (⟨.backgroundRead, .stored⟩ : Sigma Outcome)],
          ¬ a.1.Mutates := by
        simp [Op.Mutates]
      cases o₂ with
      | some e => exact .looked hl₂ h₂
      | none =>
        change (if (w₁.fs.read (.ofPath path)).isSome then _ else _ : App Unit).wp D _ w₂
        rw [h₁.fs]
        -- the file of the saved path is put in force, or the preference is cleared
        cases hfound : w.fs.read (.ofPath path) with
        | some b =>
          refine ⟨hg _ _, .restored hsaved (by simp [hfound]) h₂.fs rfl h₂.saved ⟨_, hl₂, h₂.answers⟩⟩
        | none =>
          change (awaited clearBackground).wp D _ w₂
          rw [wp_awaited]
          refine wp_mono _ ?_ (clearBackground_wp hr hg hl₂ h₂)
          intro r w₃ h₃
          apply wp_call_passing hr hg
          rintro o₄ _ w₄ ⟨t, rfl⟩ _
          exact .cleared hsaved hfound h₃ rfl rfl rfl rfl

end Undisturbed

end BackgroundService

end CajaSegura
