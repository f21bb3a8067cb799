import CajaSegura.Services.CryptoService

/-!
# The vault

`VaultRepository`: every entry is a pair of files of the vault directory, the encrypted contents
`<id>.enc` and the metadata `<id>.json`.

## Main definitions

* `VaultRepository.listAll`, `VaultRepository.importFile`, `VaultRepository.exportClear`,
  `VaultRepository.deleteById`, `VaultRepository.wipeAll`
* `VaultRepository.deleteSource`, `VaultRepository.cleanUp`: the removal of an imported file, and
  what follows when it fails
-/

namespace CajaSegura

open Codec Async
open Program hiding bind

/-- The file of the vault in which an entry's contents are. -/
def dataFileOf (vault : Path) (id : Text) : File := ⟨vault, id ++ ".enc".toList⟩

/-- The file of the vault in which an entry's metadata are. -/
def metaFileOf (vault : Path) (id : Text) : File := ⟨vault, id ++ ".json".toList⟩

/-- `jsonDecode(txt) as Map<String, dynamic>`. -/
def jsonMap (txt : Text) : Except DartError (List (Text × Json)) :=
  match Json.decode txt with
  | some j => asMap j
  | none => .error (.format "Unexpected character".toList)

namespace VaultRepository

variable (P : Platform)

def ensureVaultDir : App Path := do
  let dir : Path ← call .supportDirectory
  let vault := dir ++ ["vault".toList]
  let there : Bool ← call (.dirExists vault)
  when (!there) (call (.dirCreate vault))
  return vault

def metaFile (vault : Path) (id : Text) : App File := return metaFileOf vault id

def dataFile (vault : Path) (id : Text) : App File := return dataFileOf vault id

def fromJson (j : List (Text × Json)) : App VaultFileMeta :=
  Program.read fun w => Program.done (VaultFileMeta.fromJson P.asserts w.zone w.now.local j)

/-! ## Listing -/

def readMeta (f : File) : App VaultFileMeta := do
  let txt ← readAsString f
  let j ← Program.done (jsonMap txt)
  fromJson P j

/-- The loop over the metadata files; one that cannot be read is left out. -/
def readAll : List File → List VaultFileMeta → App (List VaultFileMeta)
  | [], out => return out
  | f :: files, out => do
    let out ← (do return out ++ [← readMeta P f] : App _).tryCatch fun _ => return out
    readAll files out

/-- The latest first. -/
def sortMetas (out : List VaultFileMeta) : List VaultFileMeta :=
  out.mergeSort fun a b => decide (b.createdAt.micros ≤ a.createdAt.micros)

def listAll : App (List VaultFileMeta) :=
  Program.tryCatch (do
    let vault ← awaited ensureVaultDir
    let names : List Text ← call (.listSync vault)
    let files := (names.map fun n => (⟨vault, n⟩ : File)).filter fun f =>
      ".json".toList.isSuffixOf f.path
    let out ← readAll P files []
    return sortMetas out)
  fun _ => return []

/-! ## Importing -/

/-- `source.uri.pathSegments.last`. -/
def originalName (source : File) : Text :=
  source.pathSegments.getLast?.getD "archivo_sin_nombre".toList

/-- The loop that looks whether a deleted file is gone. -/
def verifyDeleted (source : File) (stillExists : Bool) : List ℕ → App Bool
  | [] => return stillExists
  | attempt :: attempts => do
    call (.delayed (50 * attempt))
    let stillExists : Bool ← call (.fileExists source)
    if stillExists then verifyDeleted source stillExists attempts else return stillExists

/-- `'${source.path}.temp_delete_${DateTime.now().millisecondsSinceEpoch}'`. -/
def tempFileOf (source : File) (now : Instant) : File :=
  { source with
    rel := source.rel ++ ".temp_delete_".toList ++ Json.encodeInt (now.micros.tdiv 1000) }

/-- Method 1: rename the file and delete it under its new name. -/
def renameAndDelete (source : File) : App Unit := do
  let tempFile ← get fun w => tempFileOf source w.now
  call (.rename source tempFile)
  call (.delete tempFile)
  let there : Bool ← call (.fileExists tempFile)
  when there (throw (.exception "Archivo temporal aún existe después de eliminación".toList))

/-- Method 2: overwrite the file with nothing and delete it. -/
def overwriteAndDelete (source : File) : App Unit := do
  call (.writeAsBytes source [])
  call (.delete source)
  let there : Bool ← call (.fileExists source)
  when there (throw (.exception "Archivo aún existe después de sobrescribir".toList))

/-- A file that is to be deleted can be read. -/
def checkReadable (source : File) : App Unit :=
  Program.tryCatch (do let _ ← call (.readAsBytes source)) fun readError =>
    throw (.exception ("No se puede acceder al archivo para eliminarlo: ".toList ++
      readError.toText))

/-- What follows a deletion that left the file where it was. -/
def deleteOtherwise (source : File) : App Unit :=
  (renameAndDelete source).tryCatch fun _ =>
    (overwriteAndDelete source).tryCatch fun _ =>
      throw (.exception
        "No se pudo eliminar el archivo original con ningún método disponible".toList)

def deleteSource (source : File) : App Unit := do
  let there : Bool ← call (.fileExists source)
  when there do
    call (.stat source)
    checkReadable source
    call (.delete source)
    let stillExists ← verifyDeleted source false [1, 2, 3]
    when stillExists (deleteOtherwise source)

/-- The files of an entry are removed when the source could not be. -/
def cleanUp (dataFile metaFile : File) : App Unit :=
  Program.tryCatch (do
    let dataThere : Bool ← call (.fileExists dataFile)
    when dataThere (call (.delete dataFile))
    let metaThere : Bool ← call (.fileExists metaFile)
    when metaThere (call (.delete metaFile)))
  fun _ => return ()

/-- The source is removed, or else the entry. -/
def moveSource (source dataFile metaFile : File) : App Unit :=
  (deleteSource source).tryCatch fun e => do
    cleanUp dataFile metaFile
    throw (.exception ("No se pudo mover el archivo: ".toList ++ e.toText))

/-- `bytes.length`, an `int` of 64 bits. -/
def dartLength (bytes : Bytes) : ℤ := ((bytes.length : ℤ) + 2 ^ 63) % 2 ^ 64 - 2 ^ 63

/-- The constructor call of an import. -/
def makeMeta (source : File) (mimeType id : Text) (bytes : Bytes) (bundle : Bundle) :
    App VaultFileMeta :=
  Program.read fun w => Program.done <| VaultFileMeta.make P.asserts {
    id := id
    originalName := originalName source
    mimeType := mimeType
    originalSize := dartLength bytes
    createdAt := w.now.local
    dekWrappedB64 := Base64.encode bundle.dekWrapped
    dekWrapIvB64 := Base64.encode bundle.dekWrapIv
    fileIvB64 := Base64.encode bundle.fileIv }

/-- `_uuid.v4()`. -/
def v4 : App Text := getModify fun w => (P.uuid w.uuids, { w with uuids := w.uuids + 1 })

/-- The two files of a new entry, the contents first. -/
def writeEntry (fileMeta : VaultFileMeta) (cipher : Bytes) (dataFile metaFile : File) :
    App Unit := do
  call (.writeAsBytes dataFile cipher)
  let text ← get fun w => Json.encodeObject (fileMeta.toJson w.zone)
  writeAsString metaFile text

def importFile (source : File) (mimeType : Text) (kek : Ref) (moveFile : Bool) :
    App VaultFileMeta := do
  let there : Bool ← call (.fileExists source)
  when (!there) (throw (.argument ("El archivo fuente no existe: ".toList ++ source.path)))
  let length ← get fun w => (w.heap kek).length
  when (length != 32) (throw (.argument "KEK debe tener exactamente 32 bytes".toList))
  let vault ← awaited ensureVaultDir
  let id ← v4 P
  let bytes : Bytes ← call (.readAsBytes source)
  when bytes.isEmpty (throw (.argument "El archivo está vacío".toList))
  let bundle ← awaited (CryptoService.encryptWithWrappedKey P bytes kek)
  let fileMeta ← makeMeta P source mimeType id bytes bundle
  let dataFile ← awaited (dataFile vault id)
  let metaFile ← awaited (metaFile vault id)
  writeEntry fileMeta bundle.cipher dataFile metaFile
  when moveFile (moveSource source dataFile metaFile)
  return fileMeta

/-! ## Exporting and deleting -/

def exportClear (id : Text) (kek : Ref) : App Bytes := do
  when id.isEmpty (throw (.argument "ID no puede estar vacío".toList))
  let length ← get fun w => (w.heap kek).length
  when (length != 32) (throw (.argument "KEK debe tener exactamente 32 bytes".toList))
  let vault ← awaited ensureVaultDir
  let metaFile ← awaited (metaFile vault id)
  let metaThere : Bool ← call (.fileExists metaFile)
  when (!metaThere)
    (throw (.fileSystem "Archivo de metadatos no encontrado".toList metaFile.path))
  let dataFile ← awaited (dataFile vault id)
  let dataThere : Bool ← call (.fileExists dataFile)
  when (!dataThere) (throw (.fileSystem "Archivo de datos no encontrado".toList dataFile.path))
  let fileMeta ← readMeta P metaFile
  let cipher : Bytes ← call (.readAsBytes dataFile)
  when cipher.isEmpty (throw (.state "El archivo de datos está vacío".toList))
  let fileIv ← Program.done (CryptoService.b64d fileMeta.fileIvB64)
  let dekWrapped ← Program.done (CryptoService.b64d fileMeta.dekWrappedB64)
  let dekWrapIv ← Program.done (CryptoService.b64d fileMeta.dekWrapIvB64)
  awaited (CryptoService.decryptWithWrappedKey cipher fileIv dekWrapped dekWrapIv kek)

def deleteById (id : Text) : App Unit := do
  when id.isEmpty (throw (.argument "ID no puede estar vacío".toList))
  let vault ← awaited ensureVaultDir
  let metaFile ← awaited (metaFile vault id)
  let dataFile ← awaited (dataFile vault id)
  let metaExists : Bool ← call (.fileExists metaFile)
  let dataExists : Bool ← call (.fileExists dataFile)
  if !metaExists && !dataExists then return ()
  else
    when metaExists (call (.delete metaFile))
    when dataExists (call (.delete dataFile))

/-- The loop over the entries of the directory; a deletion that throws is passed over. -/
def deleteEach (vault : Path) : List Text → App Unit
  | [] => return ()
  | n :: names => do
    (call (.delete ⟨vault, n⟩)).tryCatch fun _ => return ()
    deleteEach vault names

def wipeAll : App Unit := do
  let vault ← awaited ensureVaultDir
  let there : Bool ← call (.dirExists vault)
  when there do
    let names : List Text ← call (.listSync vault)
    deleteEach vault names

end VaultRepository

end CajaSegura
