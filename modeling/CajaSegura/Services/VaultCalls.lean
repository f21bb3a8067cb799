import CajaSegura.Services.VaultRules

/-!
# What the vault calls

The calls that the functions of the vault await, whatever the replies are.

## Main definitions

* `Removing`: kinds of calls that contain those by which files are looked at and removed
* `Discarding`: kinds that need not contain an encryption
* `Draws`: random bytes or identifiers are drawn

## Main results

* `VaultRepository.within_importFile`, `VaultRepository.within_deleteById`,
  `VaultRepository.within_wipeAll`, `VaultRepository.within_moveSource`
-/

namespace CajaSegura

open Codec Async
open Program hiding bind

variable {P : Platform}

/-- A kind of calls that contains those by which files are looked at and removed. -/
structure Removing (A : Op → Prop) : Prop where
  looks : ∀ op, op.Looks → A op
  hop : A .hop
  delayed : ∀ millis, A (.delayed millis)
  delete : ∀ f, A (.delete f)
  rename : ∀ f now, A (.rename f (VaultRepository.tempFileOf f now))
  empty : ∀ f, A (.writeAsBytes f [])

/-- A kind of calls that contains those by which the file `f` is removed. -/
structure RemovingFile (A : Op → Prop) (f : File) : Prop where
  looks : ∀ op, op.Looks → A op
  delayed : ∀ millis, A (.delayed millis)
  delete : A (.delete f)
  rename : ∀ now, A (.rename f (VaultRepository.tempFileOf f now))
  deleteTemp : ∀ now, A (.delete (VaultRepository.tempFileOf f now))
  empty : A (.writeAsBytes f [])

/-- A kind of calls that contains those by which files are looked at and removed, without those of
an encryption. -/
structure Discarding (A : Op → Prop) : Prop extends Seeing A where
  delayed : ∀ millis, A (.delayed millis)
  delete : ∀ f, A (.delete f)
  rename : ∀ f now, A (.rename f (VaultRepository.tempFileOf f now))
  empty : ∀ f, A (.writeAsBytes f [])

/-- The same for one file. -/
structure DiscardingFile (A : Op → Prop) (f : File) : Prop where
  sees : ∀ op, op.Sees → A op
  delayed : ∀ millis, A (.delayed millis)
  delete : A (.delete f)
  rename : ∀ now, A (.rename f (VaultRepository.tempFileOf f now))
  deleteTemp : ∀ now, A (.delete (VaultRepository.tempFileOf f now))
  empty : A (.writeAsBytes f [])

theorem Discarding.file {A : Op → Prop} (hA : Discarding A) (f : File) : DiscardingFile A f where
  sees := hA.sees
  delayed := hA.delayed
  delete := hA.delete f
  rename := hA.rename f
  deleteTemp _ := hA.delete _
  empty := hA.empty f

theorem Removing.discarding {A : Op → Prop} (hA : Removing A) : Discarding A where
  sees op h := hA.looks op h.looks
  hop := hA.hop
  delayed := hA.delayed
  delete := hA.delete
  rename := hA.rename
  empty := hA.empty

theorem RemovingFile.discarding {A : Op → Prop} {f : File} (hA : RemovingFile A f) :
    DiscardingFile A f where
  sees op h := hA.looks op h.looks
  delayed := hA.delayed
  delete := hA.delete
  rename := hA.rename
  deleteTemp := hA.deleteTemp
  empty := hA.empty

/-- All calls but listings. -/
theorem removing_unlisted : Removing fun op => ∀ dir, op ≠ .listSync dir where
  looks op h dir := by
    rintro rfl
    exact h
  hop _ := nofun
  delayed _ _ := nofun
  delete _ _ := nofun
  rename _ _ _ := nofun
  empty _ _ := nofun

/-- Random bytes or identifiers are drawn. -/
def Draws (w w' : World) : Prop := ∃ n u, w' = { w with drawn := n, uuids := u }

namespace VaultRepository

variable {A : Op → Prop} {G : World → World → Prop}

theorem within_vaultDir (hA : Removing A) : (awaited ensureVaultDir).Within A G :=
  Seeing.ensureVaultDir hA.discarding.toSeeing

theorem DiscardingFile.deleteSource {source : File} (hA : DiscardingFile A source) :
    (deleteSource source).Within A G := by
  have hlook (f : File) : (call (.fileExists f)).Within A G :=
    within_call.mpr (hA.sees _ trivial)
  have hverify (attempts : List ℕ) : ∀ still, (verifyDeleted source still attempts).Within
      A G := by
    induction attempts with
    | nil => exact fun _ => trivial
    | cons a as ih =>
      intro still
      refine Within.bind (within_call.mpr (hA.delayed _)) fun _ => ?_
      refine Within.bind (hlook source) fun there => ?_
      cases there with
      | true => exact ih true
      | false => trivial
  have hcheck : (checkReadable source).Within A G :=
    Within.tryCatch (Within.bind (within_call.mpr (hA.sees _ trivial)) fun _ => trivial)
      fun _ => trivial
  have hrename : (renameAndDelete source).Within A G := by
    unfold renameAndDelete
    intro w
    refine Within.bind (within_call.mpr (hA.rename w.now)) fun _ => ?_
    refine Within.bind (within_call.mpr (hA.deleteTemp w.now)) fun _ => ?_
    exact Within.bind (hlook _) fun _ => within_when trivial
  have hoverwrite : (overwriteAndDelete source).Within A G := by
    refine Within.bind (within_call.mpr hA.empty) fun _ => ?_
    refine Within.bind (within_call.mpr hA.delete) fun _ => ?_
    exact Within.bind (hlook _) fun _ => within_when trivial
  refine Within.bind (hlook source) fun _ => within_when ?_
  refine Within.bind (within_call.mpr (hA.sees _ trivial)) fun _ => ?_
  refine Within.bind hcheck fun _ => Within.bind (within_call.mpr hA.delete) fun _ => ?_
  refine Within.bind (hverify _ _) fun _ => within_when ?_
  exact Within.tryCatch hrename fun _ => Within.tryCatch hoverwrite fun _ => trivial

theorem within_deleteSource {source : File} (hA : RemovingFile A source) :
    (deleteSource source).Within A G := DiscardingFile.deleteSource hA.discarding

theorem Discarding.moveSource (hA : Discarding A) (source dataFile metaFile : File) :
    (moveSource source dataFile metaFile).Within A G := by
  have hlook (f : File) : (call (.fileExists f)).Within A G :=
    within_call.mpr (hA.sees _ trivial)
  have hdelete (f : File) : (call (.delete f)).Within A G := within_call.mpr (hA.delete f)
  have hclean : (cleanUp dataFile metaFile).Within A G := by
    refine Within.tryCatch ?_ fun _ => trivial
    refine Within.bind (hlook _) fun _ => Within.bind (within_when (hdelete _)) fun _ => ?_
    exact Within.bind (hlook _) fun _ => within_when (hdelete _)
  exact Within.tryCatch (DiscardingFile.deleteSource (hA.file source)) fun _ =>
    Within.bind hclean fun _ => trivial

theorem within_moveSource (hA : Removing A) (source dataFile metaFile : File) :
    (moveSource source dataFile metaFile).Within A G :=
  Discarding.moveSource hA.discarding source dataFile metaFile

theorem within_deleteEach (hA : Removing A) (vault : Path) (names : List Text) :
    (deleteEach vault names).Within A G := by
  induction names with
  | nil => trivial
  | cons n names ih =>
    exact Within.bind (Within.tryCatch (within_call.mpr (hA.delete _)) fun _ => trivial)
      fun _ => ih

theorem within_wipeAll (hA : Removing A) (hlist : ∀ dir, A (.listSync dir)) :
    wipeAll.Within A G := by
  refine Within.bind (within_vaultDir hA) fun vault => ?_
  refine Within.bind (within_call.mpr (hA.looks _ trivial)) fun there => within_when ?_
  exact Within.bind (within_call.mpr (hlist _)) fun names => within_deleteEach hA vault names

theorem Discarding.deleteById (hA : Discarding A) (id : Text) : (deleteById id).Within A G := by
  have hlook (f : File) : (call (.fileExists f)).Within A G :=
    within_call.mpr (hA.sees _ trivial)
  have hdelete (f : File) : (call (.delete f)).Within A G := within_call.mpr (hA.delete f)
  refine Within.bind (within_when trivial) fun _ => ?_
  refine Within.bind (Seeing.ensureVaultDir hA.toSeeing) fun vault => ?_
  refine Within.bind (within_awaited trivial hA.hop) fun metaFile => ?_
  refine Within.bind (within_awaited trivial hA.hop) fun dataFile => ?_
  refine Within.bind (hlook metaFile) fun metaExists => ?_
  refine Within.bind (hlook dataFile) fun dataExists => ?_
  split
  · trivial
  · exact Within.bind (within_when (hdelete _)) fun _ => within_when (hdelete _)

theorem within_deleteById (hA : Removing A) (id : Text) : (deleteById id).Within A G :=
  Discarding.deleteById hA.discarding id

/-- An import removes files, writes the files of the entry and draws random bytes. -/
theorem within_importFile (hA : Removing A) (hwrite : ∀ f b, A (.writeAsBytes f b))
    (hG : ∀ w w', Draws w w' → G w w') (source : File) (mimeType : Text) (kek : Ref)
    (moveFile : Bool) : (importFile P source mimeType kek moveFile).Within A G := by
  have hencrypt (bytes : Bytes) :
      (CryptoService.encryptWithWrappedKey P bytes kek).Within A G := by
    refine Within.mono ?_ ?_ (CryptoService.within_encryptWithWrappedKey bytes kek)
    · rintro op (rfl | ⟨clear, key, nonce, rfl⟩)
      · exact hA.hop
      · exact hA.looks _ trivial
    · rintro w w' ⟨n, rfl⟩
      exact hG _ _ ⟨n, w.uuids, rfl⟩
  refine Within.bind (within_call.mpr (hA.looks _ trivial)) fun there => ?_
  refine Within.bind (within_when trivial) fun _ => ?_
  refine Within.bind (Within.get _) fun length => ?_
  refine Within.bind (within_when trivial) fun _ => ?_
  refine Within.bind (within_vaultDir hA) fun vault => ?_
  refine Within.bind (Within.getModify fun w => hG _ _ ⟨w.drawn, w.uuids + 1, rfl⟩) fun id => ?_
  refine Within.bind (within_call.mpr (hA.looks _ trivial)) fun bytes => ?_
  refine Within.bind (within_when trivial) fun _ => ?_
  refine Within.bind (within_awaited (hencrypt bytes) hA.hop) fun bundle => ?_
  refine Within.bind (fun w => Within.done _) fun fileMeta => ?_
  refine Within.bind (within_awaited trivial hA.hop) fun dataFile => ?_
  refine Within.bind (within_awaited trivial hA.hop) fun metaFile => ?_
  refine Within.bind ?_ fun _ => ?_
  · refine Within.bind (within_call.mpr (hwrite _ _)) fun _ => ?_
    exact Within.bind (Within.get _) fun text => within_call.mpr (hwrite _ _)
  · exact Within.bind (within_when (within_moveSource hA _ _ _)) fun _ => trivial

end VaultRepository

end CajaSegura
