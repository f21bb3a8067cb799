import CajaSegura.Async.Program
import CajaSegura.Codec.Utf8
import CajaSegura.Models.VaultFile
import CajaSegura.Platform.AesGcm
import CajaSegura.Platform.FileSystem

/-!
# The device

The state that the services and screens share, and the calls they await: files, the cipher, the
secure storage, the preferences, the biometric prompt, the picker and the dialogs.

## Main definitions

* `Platform`: what the device gives the application once and for all
* `World`: the state of the process and of what it can change outside
* `Op`, `Outcome`, `World.exec`: the awaited calls, how each may turn out, and its effect
* `App`: the programs of the application
-/

namespace CajaSegura

open Codec Async

/-! ## The state -/

/-- A byte buffer of the process, by reference. -/
abbrev Ref := ℕ

/-- A key handed to the cipher: bytes of its own, or a buffer that others can change. -/
inductive SecretKey
  | bytes (b : Bytes)
  | buffer (r : Ref)
  deriving DecidableEq

/-- A value of the preferences. -/
inductive Preference
  | bool (b : Bool)
  | int (n : ℤ)
  deriving DecidableEq

abbrev Preferences := Text → Option Preference

/-- What the device gives the application: the cipher, the build mode, whether the preferences show a
change before it is stored, its directory, the letter case mapping of the runtime, and the
identifiers and random bytes it will draw. -/
structure Platform where
  aes : AesGcm
  asserts : Bool
  eager : Bool
  supportDir : Path
  lowerCase : Char → Text
  lowerCase_ascii : ∀ c, c.toNat < 128 → lowerCase c = [c.toLower]
  lowerCase_other : ∀ c, 128 ≤ c.toNat → ∀ d ∈ lowerCase c, d ≠ '/' ∧ d ≠ '.'
  uuid : ℕ → Text
  random : ℕ → UInt8
  uuid_injective : Function.Injective uuid
  uuid_plain : ∀ n, '/' ∉ uuid n ∧ uuid n ≠ []

/-- The fields of `AuthService`. -/
structure AuthState where
  _kek : Option Ref
  _lastUnlock : Option DateTime
  sessionTimeout : ℤ

/-- The fields of `BackgroundService`; an image is the file at a path. -/
structure BackgroundState where
  _currentBackgroundPath : Option Text
  _currentBackground : Option Text

/-- The state of `LockScreen`. -/
structure LockScreenState where
  mounted : Bool
  _busy : Bool
  _error : Option Text

/-- The state of `HomeScreen`. -/
structure HomeScreenState where
  mounted : Bool
  _items : List VaultFileMeta
  _busy : Bool
  _error : Option Text

/-- The state of `SettingsScreen`. -/
structure SettingsScreenState where
  mounted : Bool
  _screenProtectionEnabled : Bool
  _biometricAuthEnabled : Bool
  _autoLockTime : ℤ
  _isLoading : Bool

/-! ## Calls -/

/-- The calls that are awaited. `hop` is the return of an asynchronous function of the application
itself. The listing of a directory is synchronous in the application; it stands here because its
order is the system's choice. -/
inductive Op
  | hop
  | delayed (millis : ℕ)
  | supportDirectory
  | dirExists (dir : Path)
  | dirCreate (dir : Path)
  | listSync (dir : Path)
  | fileExists (f : File)
  | stat (f : File)
  | readAsBytes (f : File)
  | writeAsBytes (f : File) (bytes : Bytes)
  | delete (f : File)
  | rename (f t : File)
  | copy (f t : File)
  | encrypt (clear : Bytes) (key : SecretKey) (nonce : Bytes)
  | decrypt (box : SecretBox) (key : SecretKey)
  | storageRead
  | storageWrite (value : Text)
  | storageDelete
  | backgroundRead
  | backgroundWrite (value : Text)
  | backgroundDelete
  | isDeviceSupported
  | canCheckBiometrics
  | getAvailableBiometrics
  | localAuthenticate (localizedReason : Text)
  | pickFiles
  | showDialog (text : Text)
  | shareXFiles (bytes : Bytes) (name mimeType : Text)
  | getPreferences
  | setPreference (key : Text) (value : Preference)
  | removePreference (key : Text)
  | systemChrome
  deriving DecidableEq

/-- What a call returns when it does not throw. -/
@[reducible] def Reply : Op → Type
  | .supportDirectory => Path
  | .dirExists _ | .fileExists _ | .isDeviceSupported | .canCheckBiometrics => Bool
  | .getAvailableBiometrics => List Text
  | .localAuthenticate _ | .setPreference .. | .removePreference _ => Bool
  | .listSync _ => List Text
  | .readAsBytes _ | .decrypt .. => Bytes
  | .encrypt .. => SecretBox
  | .storageRead | .backgroundRead => Option Text
  | .pickFiles => Option (List (Option Text))
  | .showDialog _ => Option Bool
  | _ => Unit

/-- A write is done, throws without effect, or is cut after some bytes. -/
inductive WriteOutcome
  | done
  | fails (e : DartError)
  | cut (n : ℕ) (e : DartError)

/-- A deletion is done, throws without effect, or returns although the file is still there. -/
inductive DeleteOutcome
  | done
  | fails (e : DartError)
  | keeps

/-- A read of the secure storage returns what is stored, something else, or throws. -/
inductive StorageOutcome
  | stored
  | absent
  | empty
  | fails (e : DartError)

/-- How a call may turn out. -/
@[reducible] def Outcome : Op → Type
  | .hop | .delayed _ => Unit
  | .listSync _ => Except DartError (List Text)
  | .writeAsBytes .. => WriteOutcome
  | .delete _ => DeleteOutcome
  | .storageRead | .backgroundRead => StorageOutcome
  | .isDeviceSupported | .canCheckBiometrics | .localAuthenticate _ => Except DartError Bool
  | .getAvailableBiometrics => Except DartError (List Text)
  | .pickFiles => Except DartError (Option (List (Option Text)))
  | .showDialog _ => Except DartError (Option Bool)
  | .setPreference .. | .removePreference _ => Except DartError Bool
  | _ => Option DartError

/-- A call that the home screen starts on `VaultRepository`, and whether `LockManager.isUnlocked`
holds at that instant. -/
structure RepositoryCall where
  name : Text
  isUnlocked : Bool

/-- What a handler of the home screen awaits. An import whose key is gone when the files have been
picked calls `unlock` again. -/
inductive HomeCall
  | unlock
  | unlockAgain
  | pickFiles
  | showDialog
  | fileExists
  | importFile
  | listAll
  | exportClear
  | shareXFiles
  | deleteById
  deriving DecidableEq

/-- How a call of `HomeCall` has ended: an error, or whether there is something to go on with, which
a refusal, a choice that is cancelled and an empty file are not. `keyed` says whether the key of the
session is there at that instant. -/
structure HomeReply where
  call : HomeCall
  outcome : Except DartError Bool
  keyed : Bool

inductive Screen
  | lock
  | home
  | settings
  deriving DecidableEq

/-- A stretch of a program: the section of a handler of the home screen from `_busy = true` to its
`finally`, that of a load, the loop over the files of a batch, an initialisation of the key, or the
part of a handler that is followed by a use of its screen without a look at `mounted`. -/
inductive Stretch
  | handler
  | load
  | batch
  | opening
  | exposed (s : Screen)
  deriving DecidableEq

/-- What is recorded beside the state, for statements about runs only: the calls answered and how,
the encryptions, the keys that `authenticate` has installed, when sessions were opened or extended,
the calls of the home screen, the stretches that threads are in, what `_busy` was whenever the home
screen was about to set it, what threads have returned, the imports that have returned, with their
sources, how the calls of the home screen have ended, and the screens that were used after they had
gone. -/
structure Record where
  answers : List (Sigma Outcome)
  encryptions : List Encryption
  installed : List Bytes
  opened : List Instant
  calls : List RepositoryCall
  running : List (ℕ × Stretch)
  found : List Bool
  results : List (ℕ × Except DartError (List VaultFileMeta))
  imports : List (File × VaultFileMeta)
  replies : List HomeReply
  touched : List Screen

/-- The state. `storage` and `backgroundStorage` are the entries of the secure storage under
`_kekKey` and under `_backgroundKey`, `disk` the stored preferences, `preferences` the copy that the
process holds once it has asked for them, and `route` the screen on top of the navigator. -/
structure World where
  fs : Fs
  now : Instant
  zone : Zone
  drawn : ℕ
  uuids : ℕ
  heap : Ref → Bytes
  allocated : ℕ
  storage : Option Text
  backgroundStorage : Option Text
  disk : Preferences
  preferences : Option Preferences
  _prefs : Bool
  auth : AuthState
  background : BackgroundState
  paused : Bool
  route : Screen
  lockScreen : LockScreenState
  homeScreen : HomeScreenState
  settingsScreen : SettingsScreenState
  record : Record

/-! ## Effects -/

/-- The cipher takes keys of 32 bytes, and throws on a box that does not belong to the key. -/
def AesGcm.open (aes : AesGcm) (key : Bytes) (box : SecretBox) : Except DartError Bytes :=
  if key.length = 32 then
    match aes.decrypt key box with
    | some clear => .ok clear
    | none => .error .authentication
  else .error (.argument "Expected 32 bytes".toList)

namespace Fs

/-- An update of the files that may be impossible. -/
def commit (fs : Fs) (f : File) (fs' : Option Fs) : Except DartError Unit × Fs :=
  match fs' with
  | some fs' => (.ok (), fs')
  | none => (.error (.fileSystem "Cannot open file".toList f.path), fs)

def onWrite (fs : Fs) (f : File) (bytes : Bytes) : WriteOutcome → Except DartError Unit × Fs
  | .done => fs.commit f (fs.write f bytes)
  | .fails e => (.error e, fs)
  | .cut n e => (.error e, (fs.commit f (fs.write f (bytes.take n))).2)

def onDelete (fs : Fs) (f : File) : DeleteOutcome → Except DartError Unit × Fs
  | .done => fs.commit f (fs.remove f)
  | .fails e => (.error e, fs)
  | .keeps => (.ok (), fs)

def onRename (fs : Fs) (f t : File) : Option DartError → Except DartError Unit × Fs
  | none => fs.commit f (fs.rename f t)
  | some e => (.error e, fs)

def onCopy (fs : Fs) (f t : File) : Option DartError → Except DartError Unit × Fs
  | none => fs.commit f ((fs.read f).bind fun b => fs.write t b)
  | some e => (.error e, fs)

def onCreate (fs : Fs) (dir : Path) : Option DartError → Except DartError Unit × Fs
  | none => (.ok (), fs.create dir)
  | some e => (.error e, fs)

end Fs

namespace World

def keyBytes (w : World) : SecretKey → Bytes
  | .bytes b => b
  | .buffer r => w.heap r

/-- A reply without effect on the world, or the error of the outcome. -/
def answer {α : Type} (w : World) (o : Option DartError) (a : α) : Except DartError α × World :=
  match o with
  | none => (.ok a, w)
  | some e => (.error e, w)

/-- A read of an entry of the secure storage. -/
def readStorage (entry : Option Text) : StorageOutcome → Except DartError (Option Text)
  | .stored => .ok entry
  | .absent => .ok none
  | .empty => .ok (some [])
  | .fails e => .error e

/-- A reply and an effect on the files. -/
def onFiles {α : Type} (w : World) (r : Except DartError α × Fs) : Except DartError α × World :=
  (r.1, { w with fs := r.2 })

def encryptUnder (aes : AesGcm) (w : World) (clear : Bytes) (key : SecretKey) (nonce : Bytes) :
    Except DartError SecretBox × World :=
  if (w.keyBytes key).length = 32 then
    (.ok (aes.encrypt (w.keyBytes key) nonce clear),
      { w with record := { w.record with
                encryptions := ⟨w.keyBytes key, nonce, clear⟩ :: w.record.encryptions } })
  else (.error (.argument "Expected 32 bytes".toList), w)

/-- The bytes of a file, or the error of a file that is not there. -/
def readFile (w : World) (f : File) : Except DartError Bytes :=
  match w.fs.read f with
  | some b => .ok b
  | none => .error (.fileSystem "Cannot open file".toList f.path)

/-- The reply and the effect of a call. -/
def effect (P : Platform) (w : World) : (op : Op) → Outcome op → Except DartError (Reply op) × World
  | .hop, _ => (.ok (), w)
  | .delayed _, _ => (.ok (), w)
  | .supportDirectory, o => w.answer o P.supportDir
  | .dirExists dir, o => w.answer o (w.fs.dirs dir)
  | .dirCreate dir, o => w.onFiles (w.fs.onCreate dir o)
  | .listSync _, o => (o, w)
  | .fileExists f, o => w.answer o (w.fs.read f).isSome
  | .stat _, o => w.answer o ()
  | .readAsBytes f, o =>
    match o with
    | none => (w.readFile f, w)
    | some e => (.error e, w)
  | .writeAsBytes f bytes, o => w.onFiles (w.fs.onWrite f bytes o)
  | .delete f, o => w.onFiles (w.fs.onDelete f o)
  | .rename f t, o => w.onFiles (w.fs.onRename f t o)
  | .copy f t, o => w.onFiles (w.fs.onCopy f t o)
  | .encrypt clear key nonce, o =>
    match o with
    | none => w.encryptUnder P.aes clear key nonce
    | some e => (.error e, w)
  | .decrypt box key, o =>
    match o with
    | none => (P.aes.open (w.keyBytes key) box, w)
    | some e => (.error e, w)
  | .storageRead, o => (readStorage w.storage o, w)
  | .storageWrite value, o =>
    match o with
    | none => (.ok (), { w with storage := some value })
    | some e => (.error e, w)
  | .storageDelete, o =>
    match o with
    | none => (.ok (), { w with storage := none })
    | some e => (.error e, w)
  | .backgroundRead, o => (readStorage w.backgroundStorage o, w)
  | .backgroundWrite value, o =>
    match o with
    | none => (.ok (), { w with backgroundStorage := some value })
    | some e => (.error e, w)
  | .backgroundDelete, o =>
    match o with
    | none => (.ok (), { w with backgroundStorage := none })
    | some e => (.error e, w)
  | .isDeviceSupported, o => (o, w)
  | .canCheckBiometrics, o => (o, w)
  | .getAvailableBiometrics, o => (o, w)
  | .localAuthenticate _, o => (o, w)
  | .pickFiles, o => (o, w)
  | .showDialog _, o => (o, w)
  | .shareXFiles .., o => w.answer o ()
  | .getPreferences, o =>
    match o with
    | none => (.ok (), { w with preferences := some (w.preferences.getD w.disk) })
    | some e => (.error e, w)
  | .setPreference key value, o =>
    match o with
    | .ok true => (.ok true, { w with disk := Function.update w.disk key (some value) })
    | r => (r, w)
  | .removePreference key, o =>
    match o with
    | .ok true => (.ok true, { w with disk := Function.update w.disk key none })
    | r => (r, w)
  | .systemChrome, o => w.answer o ()

/-- A change of files, of the secure storage, of the preferences or of the record alone. -/
structure Outside (w w' : World) : Prop where
  now : w'.now = w.now
  zone : w'.zone = w.zone
  drawn : w'.drawn = w.drawn
  uuids : w'.uuids = w.uuids
  heap : w'.heap = w.heap
  allocated : w'.allocated = w.allocated
  auth : w'.auth = w.auth
  background : w'.background = w.background
  paused : w'.paused = w.paused
  route : w'.route = w.route
  lockScreen : w'.lockScreen = w.lockScreen
  homeScreen : w'.homeScreen = w.homeScreen
  settingsScreen : w'.settingsScreen = w.settingsScreen
  _prefs : w'._prefs = w._prefs
  installed : w'.record.installed = w.record.installed
  opened : w'.record.opened = w.record.opened
  calls : w'.record.calls = w.record.calls
  running : w'.record.running = w.record.running
  found : w'.record.found = w.record.found
  results : w'.record.results = w.record.results
  imports : w'.record.imports = w.record.imports
  replies : w'.record.replies = w.record.replies
  touched : w'.record.touched = w.record.touched

/-- An answered call is recorded. -/
def exec (P : Platform) (w : World) (op : Op) (o : Outcome op) :
    Except DartError (Reply op) × World :=
  let r := w.effect P op o
  (r.1, { r.2 with record := { r.2.record with answers := ⟨op, o⟩ :: r.2.record.answers } })

theorem Outside.rfl {w : World} : w.Outside w := by
  constructor <;> trivial

theorem outside_answer {α : Type} (w : World) (o : Option DartError) (a : α) :
    w.Outside (w.answer o a).2 := by
  cases o <;> exact .rfl

theorem outside_onFiles {α : Type} (w : World) (r : Except DartError α × Fs) :
    w.Outside (w.onFiles r).2 := by
  constructor <;> rfl

/-- Calls change nothing inside the process. -/
theorem outside_effect (P : Platform) (w : World) (op : Op) (o : Outcome op) :
    w.Outside (w.effect P op o).2 := by
  cases op with
  | dirCreate d => exact outside_onFiles ..
  | writeAsBytes f b => exact outside_onFiles ..
  | delete f => exact outside_onFiles ..
  | rename f t => exact outside_onFiles ..
  | copy f t => exact outside_onFiles ..
  | encrypt c k n =>
    cases o with
    | none =>
      unfold effect encryptUnder
      dsimp only
      split <;> constructor <;> rfl
    | some e => exact .rfl
  | supportDirectory => exact outside_answer ..
  | dirExists d => exact outside_answer ..
  | fileExists f => exact outside_answer ..
  | stat f => exact outside_answer ..
  | shareXFiles b n m => exact outside_answer ..
  | systemChrome => exact outside_answer ..
  | setPreference k v =>
    unfold effect
    dsimp only
    split <;> constructor <;> rfl
  | removePreference k =>
    unfold effect
    dsimp only
    split <;> constructor <;> rfl
  | _ => cases o <;> constructor <;> rfl

theorem outside_exec (P : Platform) (w : World) (op : Op) (o : Outcome op) :
    w.Outside (w.exec P op o).2 := by
  have h := outside_effect P w op o
  exact ⟨h.now, h.zone, h.drawn, h.uuids, h.heap, h.allocated, h.auth, h.background, h.paused,
    h.route, h.lockScreen, h.homeScreen, h.settingsScreen, h._prefs, h.installed, h.opened, h.calls,
    h.running, h.found, h.results, h.imports, h.replies, h.touched⟩

end World

/-- The device as the environment of the application. -/
def device (P : Platform) : Environment World DartError Op Reply where
  Outcome := Outcome
  exec := World.exec P

/-- The programs of the application. -/
abbrev App := Program World DartError Op Reply

/-- `await` on a call of the device. -/
def call (op : Op) : App (Reply op) := Program.perform op

def decodeUtf8 (f : File) (b : Bytes) : Except DartError Text :=
  match Utf8.decode b with
  | some t => .ok t
  | none => .error (.fileSystem "Failed to decode data using encoding 'utf-8'".toList f.path)

def readAsString (f : File) : App Text := do
  let bytes : Bytes ← call (.readAsBytes f)
  Program.done (decodeUtf8 f bytes)

def writeAsString (f : File) (contents : Text) : App Unit :=
  call (.writeAsBytes f (Utf8.encode contents))

/-- `if (b) p` -/
def when (b : Bool) (p : App Unit) : App Unit := if b then p else pure ()

/-- `await f()` for an asynchronous function of the application. -/
def awaited {α : Type} (p : App α) : App α :=
  Program.handle p fun r => Program.await .hop fun _ => Program.done r

end CajaSegura
