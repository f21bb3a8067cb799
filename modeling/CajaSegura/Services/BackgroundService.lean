import CajaSegura.Platform.Rules

/-!
# The background

`BackgroundService`: the image behind the screens is a copy of a picture, in a directory of its own.
Its path is kept in the secure storage, and in memory while the process lives.

## Main definitions

* `BackgroundService.init`, `BackgroundService.clearBackground`
* `BackgroundService.setBackground`, `BackgroundService.selectBackground`
* `BackgroundService.newPath`: where the copy is put

## Main results

* `BackgroundService.within_clearBackground`, `BackgroundService.within_selectBackground`: what the
  calls change
-/

namespace CajaSegura

open Codec Async
open Program hiding bind

namespace BackgroundService

variable (P : Platform)

/-! ## The state -/

def hasCustomBackground (w : World) : Bool := w.background._currentBackground.isSome

/-- `_currentBackgroundPath = path; _currentBackground = FileImage(File(path));` -/
def inForce (path : Text) (w : World) : World :=
  { w with background := ⟨some path, some path⟩ }

/-- `_currentBackgroundPath = null; _currentBackground = null;` -/
def cleared (w : World) : World := { w with background := ⟨none, none⟩ }

/-! ## The path of the copy -/

def toLowerCase (s : Text) : Text := s.flatMap P.lowerCase

def _getFileExtension (path : Text) : Text :=
  let parts := path.splitOn '.'
  if parts ≠ [] then toLowerCase P (parts.getLastD []) else "jpg".toList

def backgroundsDir : Path := P.supportDir ++ ["backgrounds".toList]

/-- `'custom_background_${DateTime.now().millisecondsSinceEpoch}.${_getFileExtension(path)}'`. -/
def fileName (now : Instant) (path : Text) : Text :=
  "custom_background_".toList ++ Json.encodeInt (now.micros.tdiv 1000) ++ '.' ::
    _getFileExtension P path

/-- `'${backgroundsDir.path}/$fileName'`. -/
def newPath (now : Instant) (path : Text) : Text :=
  pathText (backgroundsDir P) ++ '/' :: fileName P now path

/-! ## The operations -/

def clearBackground : App Unit := do
  Program.tryCatch (do
    let current ← get fun w => w.background._currentBackgroundPath
    match current with
    | none => return ()
    | some path =>
      let there : Bool ← call (.fileExists (.ofPath path))
      when there (call (.delete (.ofPath path))))
    fun _ => return ()
  call .backgroundDelete
  Program.modify cleared

def init : App Unit := do
  let savedPath : Option Text ← call .backgroundRead
  match savedPath with
  | none => return ()
  | some path =>
    when (!path.isEmpty) do
      let there : Bool ← call (.fileExists (.ofPath path))
      if there then Program.modify (inForce path) else awaited clearBackground

/-- `if (_currentBackgroundPath != null) { try { .. delete(); } catch (_) {} }`. -/
def deleteCurrent : App Unit := do
  let current ← get fun w => w.background._currentBackgroundPath
  match current with
  | none => return ()
  | some path => Program.tryCatch (call (.delete (.ofPath path))) fun _ => return ()

/-- The picture becomes the background, once there is a directory for it. -/
def replaceBackground (imageFile : File) : App Bool := do
  let newPath ← get fun w => newPath P w.now imageFile.path
  call (.copy imageFile (.ofPath newPath))
  deleteCurrent
  call (.backgroundWrite newPath)
  Program.modify (inForce newPath)
  return true

def setBackgroundBody (imageFile : File) : App Bool := do
  let there : Bool ← call (.fileExists imageFile)
  if !there then return false
  else
    let appDir : Path ← call .supportDirectory
    let backgroundsDir := appDir ++ ["backgrounds".toList]
    let made : Bool ← call (.dirExists backgroundsDir)
    when (!made) (call (.dirCreate backgroundsDir))
    replaceBackground P imageFile

def setBackground (imageFile : File) : App Bool :=
  (setBackgroundBody P imageFile).tryCatch fun _ => return false

def selectBackground : App Bool :=
  Program.tryCatch (do
    let result : Option (List (Option Text)) ← call .pickFiles
    match result with
    | none | some [] => return false
    | some (none :: _) => return false
    | some (some path :: _) => awaited (setBackground P (.ofPath path)))
  fun _ => return false

/-! ## What the calls change -/

variable {P} {A : Op → Prop} {G : World → World → Prop}

/-- The calls of the backgrounds that copy nothing. -/
def OfBackgrounds : Op → Prop
  | .hop | .pickFiles | .fileExists _ | .delete _ => True
  | .supportDirectory | .dirExists _ | .dirCreate _ => True
  | .backgroundRead | .backgroundWrite _ | .backgroundDelete => True
  | _ => False

/-- The calls by which a picture becomes the background: the picture is all that they copy. -/
def OfPicture (imageFile : File) (op : Op) : Prop := OfBackgrounds op ∨ ∃ t, op = .copy imageFile t

theorem OfBackgrounds.of {op : Op} (h : OfBackgrounds op) (hA : ∀ op, (∀ dir, op ≠ .listSync dir) →
    A op) : A op := by
  refine hA op ?_
  rintro dir rfl
  exact h

theorem OfPicture.of {imageFile : File} {op : Op} (h : OfPicture imageFile op)
    (hA : ∀ op, (∀ dir, op ≠ .listSync dir) → A op) : A op := by
  rcases h with h | ⟨t, rfl⟩
  · exact h.of hA
  · exact hA _ nofun

theorem calls_clearBackground (hG : ∀ w, G w (cleared w)) :
    clearBackground.Within OfBackgrounds G := by
  refine Within.bind (Within.tryCatch (Within.bind (Within.get _) fun current => ?_)
    fun _ => trivial) fun _ => ?_
  · cases current with
    | none => trivial
    | some path =>
      refine Within.bind (within_call.mpr trivial) fun there => within_when ?_
      exact within_call.mpr trivial
  · exact Within.bind (within_call.mpr trivial) fun _ => Within.modify.mpr hG

/-- The calls of `setBackground`, and what it changes in memory. -/
theorem calls_setBackground (hG : ∀ w path, G w (inForce path w)) (imageFile : File) :
    (setBackground P imageFile).Within (OfPicture imageFile) G := by
  have hcall {op : Op} (h : OfBackgrounds op) : (call op).Within (OfPicture imageFile) G :=
    within_call.mpr (.inl h)
  have hdelete : (deleteCurrent : App Unit).Within (OfPicture imageFile) G := by
    refine Within.bind (Within.get _) fun current => ?_
    cases current with
    | none => trivial
    | some path => exact Within.tryCatch (hcall trivial) fun _ => trivial
  refine Within.tryCatch (Within.bind (hcall trivial) fun there => ?_) fun _ => trivial
  split
  · trivial
  · refine Within.bind (hcall trivial) fun appDir => Within.bind (hcall trivial) fun made => ?_
    refine Within.bind (within_when (hcall trivial)) fun _ => ?_
    refine Within.bind (Within.get _) fun path => ?_
    refine Within.bind (within_call.mpr (.inr ⟨_, rfl⟩)) fun _ => ?_
    refine Within.bind hdelete fun _ => Within.bind (hcall trivial) fun _ => ?_
    exact Within.bind (Within.modify.mpr fun w => hG w path) fun _ => trivial

theorem within_clearBackground (hA : ∀ op, (∀ dir, op ≠ .listSync dir) → A op)
    (hG : ∀ w, G w (cleared w)) : clearBackground.Within A G :=
  Within.mono (fun _ h => h.of hA) (fun _ _ h => h) (calls_clearBackground hG)

theorem within_setBackground (hA : ∀ op, (∀ dir, op ≠ .listSync dir) → A op)
    (hG : ∀ w path, G w (inForce path w)) (imageFile : File) :
    (setBackground P imageFile).Within A G :=
  Within.mono (fun _ h => h.of hA) (fun _ _ h => h) (calls_setBackground hG imageFile)

theorem within_selectBackground (hA : ∀ op, (∀ dir, op ≠ .listSync dir) → A op)
    (hG : ∀ w path, G w (inForce path w)) : (selectBackground P).Within A G := by
  refine Within.tryCatch (Within.bind (within_call.mpr (hA _ nofun)) fun result => ?_)
    fun _ => trivial
  rcases result with - | (- | ⟨- | path, files⟩)
  · trivial
  · trivial
  · trivial
  · exact within_awaited (within_setBackground hA hG _) (hA _ nofun)

end BackgroundService

end CajaSegura
