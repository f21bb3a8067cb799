import CajaSegura.Screens.State
import CajaSegura.Services.AuthService
import CajaSegura.Services.BackgroundService
import CajaSegura.Services.VaultRepository

/-!
# The home screen

`_HomeScreenState`: the list of the entries, and the handlers of the taps on it. A handler looks at
`_busy` when it starts, sets it when it comes to its work, and clears it in a `finally`.

## Main definitions

* `HomeScreen._load`, `HomeScreen._import`, `HomeScreen._export`, `HomeScreen._delete`
* `HomeScreen.onSelectBackground`, `HomeScreen.onClearBackground`: the sheet of backgrounds
* `HomeScreen.initState`, `HomeScreen.didChangeAppLifecycleState`

A handler is given the thread that runs it, for the marks.
-/

namespace CajaSegura

open Codec Async
open Program hiding bind

namespace HomeScreen

variable (P : Platform)

/-! ## The state -/

/-- A change of the state, without more. -/
def shown (f : HomeScreenState → HomeScreenState) (w : World) : World :=
  { w with homeScreen := f w.homeScreen }

/-- `_busy = true; _error = null;` and what `_busy` was is recorded. -/
def taken (w : World) : World :=
  { shown (fun s => { s with _busy := true, _error := none }) w with
    record := { w.record with found := w.homeScreen._busy :: w.record.found } }

/-- `_busy = false;` -/
def given : World → World := shown fun s => { s with _busy := false }

/-- `_error = '$what: ${e.toString()}';` -/
def failed (what : Text) (e : DartError) : World → World :=
  shown fun s => { s with _error := some (what ++ e.toText) }

/-- `if (mounted) setState(f)` -/
def whenMounted (f : World → World) : App Unit :=
  Program.modify fun w => if w.homeScreen.mounted then f w else w

def setState (f : World → World) : App Unit := do
  use .home
  Program.modify f

/-- A call has ended. -/
def replied (c : HomeCall) (r : Except DartError Bool) (w : World) : World :=
  { w with record := { w.record with
    replies := ⟨c, r, (LockManager.kek w).isSome⟩ :: w.record.replies } }

/-- The end of a call is recorded, with the verdict on what it returns. -/
def observed {α : Type} (c : HomeCall) (verdict : α → Bool) (p : App α) : App α :=
  Program.handle p fun r => do
    Program.modify (replied c (r.map verdict))
    Program.done r

/-! ## Loading -/

def _load (self : ℕ) (force : Bool) : App Unit := do
  let busy ← get fun w => w.homeScreen._busy
  if busy && !force then return ()
  else
    whenMounted (World.entered (self, .load) ∘ taken)
    Program.tryFinally
      (Program.tryCatch (do
        let all ← observed .listAll (fun _ => true) (awaited (VaultRepository.listAll P))
        whenMounted (shown fun s => { s with _items := VaultRepository.sortMetas all }))
      fun e => whenMounted (failed "Error cargando archivos: ".toList e))
      -- the widget may have gone meanwhile, and the mark goes all the same
      (Program.modify fun w =>
        World.left (self, .load) (if w.homeScreen.mounted then given w else w))

/-! ## The handlers -/

/-- `setState(() { _busy = true; _error = null; }); try { body } catch (e) { .. } finally { .. }` -/
def guarded (self : ℕ) (what : Text) (body : App Unit) : App Unit := do
  setState (World.entered (self, .handler) ∘ taken)
  -- from here on the handler looks at `mounted`
  Program.modify (World.left (self, .exposed .home))
  Program.tryFinally (body.tryCatch fun e => whenMounted (failed what e))
    (Program.modify fun w =>
      World.left (self, .handler) (if w.homeScreen.mounted then given w else w))

/-- `if (!isUnlocked) { .. unlock() }`: whether the handler may go on. -/
def gate : App Bool := do
  let unlocked ← get LockManager.isUnlocked
  if !unlocked then observed .unlock id (awaited (LockManager.unlock P)) else return true

/-- A call on the vault is about to start. -/
def called (name : String) (w : World) : World :=
  { w with record := { w.record with
    calls := ⟨name.toList, LockManager.isUnlocked w⟩ :: w.record.calls } }

def calling (name : String) : App Unit := Program.modify (called name)

/-- `path.split('.').last.toLowerCase()`; none of the extensions has a letter beyond ASCII. -/
def _getMimeType (path : Text) : Text :=
  let extension := String.ofList (((path.splitOn '.').getLastD []).map Char.toLower)
  (match extension with
  | "jpg" | "jpeg" => "image/jpeg"
  | "png" => "image/png"
  | "gif" => "image/gif"
  | "pdf" => "application/pdf"
  | "txt" => "text/plain"
  | "doc" | "docx" => "application/msword"
  | "mp4" => "video/mp4"
  | "mp3" => "audio/mpeg"
  | _ => "application/octet-stream").toList

/-- The key of the session, which is opened again if it has ended. -/
def finalKek : App Ref := do
  let kek ← get LockManager.kek
  when kek.isNone do
    let reauth ← observed .unlockAgain id (awaited (LockManager.unlock P))
    if reauth then
      let kekRetry ← get LockManager.kek
      when kekRetry.isNone (throw (.exception ("No se pudo obtener la clave de cifrado después de " ++
        "reautenticación. Intenta reiniciar la aplicación.").toList))
    else throw (.exception
      "No se pudo obtener la clave de cifrado. Intenta autenticarte nuevamente.".toList)
  let finalKek ← get LockManager.kek
  match finalKek with
  | some kek => return kek
  | none => throw (.exception ("No se pudo obtener la clave de cifrado después de todos los " ++
      "intentos. Intenta reiniciar la aplicación.").toList)

/-- One file of the batch; one without a path or that is not there is passed over. -/
def importOne (kek : Ref) : Option Text → App Unit
  | none => return ()
  | some path => do
    let file := File.ofPath path
    let there : Bool ← observed .fileExists (fun _ => true) (call (.fileExists file))
    when there do
      calling "importFile"
      let _ ← observed .importFile (fun _ => true)
        (awaited (VaultRepository.importFile P file (_getMimeType path) kek true))

/-- The loop over the picked files. -/
def importEach (kek : Ref) : List (Option Text) → App Unit
  | [] => return ()
  | f :: files => do
    importOne P kek f
    importEach kek files

/-- The files are imported one after another, all under one key, and the list is loaded twice. -/
def importAll (self : ℕ) (files : List (Option Text)) : App Unit := do
  let kek ← finalKek P
  Program.modify (World.entered (self, .batch))
  Program.tryFinally (importEach P kek files) (Program.modify (World.left (self, .batch)))
  awaited (_load P self true)
  call (.delayed 200)
  awaited (_load P self true)

/-- `result != null && result.files.isNotEmpty` -/
def picked (result : Option (List (Option Text))) : Bool := !(result.getD []).isEmpty

def _import (self : ℕ) : App Unit := do
  let busy ← get fun w => w.homeScreen._busy
  if busy then return ()
  else
    let ok ← gate P
    if !ok then return ()
    else
      let result : Option (List (Option Text)) ← observed .pickFiles picked (call .pickFiles)
      match result with
      | none | some [] => return ()
      | some files => guarded self "Error importando archivos: ".toList (importAll P self files)

/-- The contents of the entry are shared. -/
def exportOne (entry : VaultFileMeta) : App Unit := do
  let kek ← get LockManager.kek
  match kek with
  | none => throw .nullCheck
  | some kek =>
    calling "exportClear"
    let bytes ← observed .exportClear (fun bytes => !bytes.isEmpty)
      (awaited (VaultRepository.exportClear P entry.id kek))
    when bytes.isEmpty (throw (.state "El archivo está vacío".toList))
    observed .shareXFiles (fun _ => true)
      (call (.shareXFiles bytes entry.originalName entry.mimeType))

def _export (self : ℕ) (entry : VaultFileMeta) : App Unit := do
  let busy ← get fun w => w.homeScreen._busy
  if busy then return ()
  else
    let ok ← gate P
    if !ok then return ()
    else
      guarded self ("Error exportando \"".toList ++ entry.originalName ++ "\": ".toList)
        (exportOne P entry)

/-- The entry is deleted; the load that follows finds its caller busy. -/
def deleteOne (self : ℕ) (entry : VaultFileMeta) : App Unit := do
  calling "deleteById"
  observed .deleteById (fun _ => true) (awaited (VaultRepository.deleteById entry.id))
  awaited (_load P self false)

def _delete (self : ℕ) (entry : VaultFileMeta) : App Unit := do
  let busy ← get fun w => w.homeScreen._busy
  if busy then return ()
  else
    let ok : Option Bool ← observed .showDialog (· = some true)
      (call (.showDialog (['"'] ++ entry.originalName ++ ['"'])))
    if ok = some true then
      guarded self ("Error eliminando \"".toList ++ entry.originalName ++ "\": ".toList)
        (deleteOne P self entry)
    else return ()

/-! ## The sheet of backgrounds -/

/-- `await BackgroundService.instance.selectBackground(); setState(() {});` -/
def onSelectBackground : App Unit := do
  let _ ← awaited (BackgroundService.selectBackground P)
  setState id

/-- `await BackgroundService.instance.clearBackground(); setState(() {});` -/
def onClearBackground : App Unit := do
  awaited BackgroundService.clearBackground
  setState id

/-! ## The life of the screen -/

/-- The screen appears, and loads the list. -/
def initState (self : ℕ) : App Unit := do
  Program.modify fun w => { w with homeScreen := ⟨true, [], false, none⟩ }
  _load P self false

/-- The screen is the observer of the application's state as long as it is mounted. -/
def didChangeAppLifecycleState (paused : Bool) : App Unit := when paused LockManager.lock

end HomeScreen

end CajaSegura
