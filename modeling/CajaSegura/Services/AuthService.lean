import CajaSegura.Services.CryptoService

/-!
# Sessions

`AuthService`: the master key lies in the secure storage, and a copy of it in memory while a session
is open. `LockManager` hands the calls of the screens on.

## Main definitions

* `AuthService.isUnlocked`, `AuthService.isSessionExpired`, `AuthService.kek`
* `AuthService.lock`, `AuthService.extendSession`
* `AuthService.init`, `AuthService.authenticate`, `AuthService.clearAllData`
* `LockManager.init`, `LockManager.unlock`

## Main results

* `AuthService.isUnlocked_iff`: a session is open while its key is in memory and its time stamp is
  not older than the timeout
* `AuthService.kek_eq_some`: the key is handed out exactly while a session is open
-/

namespace CajaSegura

open Codec Async
open Program hiding bind

namespace AuthService

variable (P : Platform)

/-! ## The session -/

/-- The clock shows `now`. -/
def clocked (now : Instant) (w : World) : World := { w with now := now }

/-- `DateTime.now().difference(t)`, in microseconds. -/
def elapsed (w : World) (t : DateTime) : ℤ := w.now.micros - t.micros

def isUnlocked (w : World) : Bool :=
  match w.auth._kek, w.auth._lastUnlock with
  | none, _ => false
  | _, none => false
  | some _, some t => elapsed w t < w.auth.sessionTimeout

def isSessionExpired (w : World) : Bool :=
  match w.auth._lastUnlock with
  | none => true
  | some t => elapsed w t ≥ w.auth.sessionTimeout

/-- The buffer of the key itself, not a copy. -/
def kek (w : World) : Option Ref := if !isUnlocked w then none else w.auth._kek

/-- `_kek?.fillRange(0, _kek!.length, 0)`: the buffer is overwritten where it is. -/
def zeroed (w : World) : Ref → Bytes :=
  match w.auth._kek with
  | none => w.heap
  | some r => Function.update w.heap r (List.replicate (w.heap r).length 0)

def locked (w : World) : World :=
  { w with
    heap := zeroed w
    auth := { w.auth with
      _kek := none
      _lastUnlock := none } }

def lock : App Unit := Program.modify locked

/-- `_lastUnlock = DateTime.now()`. -/
def stamped (w : World) : World :=
  { w with
    auth := { w.auth with _lastUnlock := some w.now.local }
    record := { w.record with opened := w.now :: w.record.opened } }

def extended (w : World) : World := if w.auth._kek.isSome then stamped w else w

def extendSession : App Unit := Program.modify extended

/-! ## The stored key -/

/-- The bytes of a text of digits become a new buffer. -/
def keyed (b : Bytes) (w : World) : World :=
  { w with
    heap := Function.update w.heap w.allocated b
    allocated := w.allocated + 1
    auth := { w.auth with _kek := some w.allocated } }

/-- `_kek = base64Decode(kekString)`. -/
def setKek (kekString : Text) : App Unit := do
  let b ← Program.done (base64Decode kekString)
  Program.modify (keyed b)

/-- The session is open; its key is recorded. -/
def opened (w : World) : World :=
  { stamped w with record := { (stamped w).record with
      installed := (w.auth._kek.map w.heap).getD [] :: w.record.installed } }

/-- `kekString == null || kekString.isEmpty`. -/
def missing : Option Text → Bool
  | none => true
  | some s => s.isEmpty

/-- A new key, if none is stored. -/
def generate : App Unit := do
  let existingKek : Option Text ← call .storageRead
  when (missing existingKek) do
    let kek ← awaited (CryptoService.randomBytes P 32)
    call (.storageWrite (Base64.encode kek))
    let verification : Option Text ← call .storageRead
    when (missing verification)
      (throw (.exception "No se pudo almacenar la clave de cifrado".toList))

def init : App Unit :=
  (generate P).tryCatch fun e =>
    throw (.exception ("Error inicializando AuthService: ".toList ++ e.toText))

/-! ## Authentication -/

def isBiometricAvailable : App Bool :=
  Program.tryCatch (do
    let isAvailable : Bool ← call .isDeviceSupported
    if !isAvailable then return false
    else
      let canCheckBiometrics : Bool ← call .canCheckBiometrics
      if !canCheckBiometrics then return false
      else
        let availableBiometrics : List Text ← call .getAvailableBiometrics
        return !availableBiometrics.isEmpty)
  fun _ => return false

/-- The user has been recognised: the stored key is read, or made when there is none. -/
def readKek : App Unit := do
  let kekString : Option Text ← call .storageRead
  if missing kekString then
    awaited (init P)
    let newKekString : Option Text ← call .storageRead
    when (missing newKekString)
      (throw (.exception "No se pudo generar la clave de cifrado".toList))
    setKek (newKekString.getD [])
  else setKek (kekString.getD [])

/-- `if (_kek == null)`, after the key was set. -/
def readKekAgain : App Unit := do
  let missingKek ← get fun w => w.auth._kek.isNone
  when missingKek do
    awaited (init P)
    let finalKekString : Option Text ← call .storageRead
    match finalKekString with
    | some s => setKek s
    | none => return ()

def authenticateBody (reason : Option Text) : App Bool := do
  let isAvailable ← awaited isBiometricAvailable
  when (!isAvailable)
    (throw (.exception "Autenticación biométrica no disponible en este dispositivo".toList))
  let authenticated : Bool ← call (.localAuthenticate
    (reason.getD "Autentica para acceder a tus archivos seguros".toList))
  if !authenticated then return false
  else
    readKek P
    Program.modify opened
    readKekAgain P
    return true

/-- `on PlatformException catch (e)`. -/
def onPlatform (code : Text) (message : Option Text) : Except DartError Bool :=
  if code = "NotAvailable".toList then
    .error (.exception "Autenticación biométrica no disponible".toList)
  else if code = "NotEnrolled".toList then
    .error (.exception "No hay biometría configurada en el dispositivo".toList)
  else if code = "LockedOut".toList then
    .error (.exception "Autenticación bloqueada temporalmente".toList)
  else if code = "PermanentlyLockedOut".toList then
    .error (.exception "Autenticación bloqueada permanentemente".toList)
  else if code = "UserCancel".toList then .ok false
  else if code = "UserFallback".toList then .ok false
  else if code = "BiometricOnlyNotSupported".toList then
    .error (.exception "Solo biometría no soportada".toList)
  else .error (.exception ("Error de autenticación: ".toList ++ message.getD "null".toList))

/-- What `authenticate` makes of an error. -/
def onError : DartError → Except DartError Bool
  | .platform code message => onPlatform code message
  | e =>
    if e.isException then .error e
    else .error (.exception ("Error inesperado durante la autenticación: ".toList ++ e.toText))

def authenticate (reason : Option Text) : App Bool :=
  (authenticateBody P reason).tryCatch fun e => Program.done (onError e)

def clearAllData : App Unit :=
  Program.tryCatch (do
    lock
    call .storageDelete)
  fun e => throw (.exception ("Error limpiando datos: ".toList ++ e.toText))

end AuthService

namespace LockManager

variable (P : Platform)

def isUnlocked (w : World) : Bool := AuthService.isUnlocked w

def kek (w : World) : Option Ref := AuthService.kek w

def lock : App Unit := AuthService.lock

def extendSession : App Unit := AuthService.extendSession

def init : App Unit := awaited (AuthService.init P)

def unlock : App Bool :=
  awaited (AuthService.authenticate P (some "Autentica para acceder a tus archivos seguros".toList))

end LockManager

/-! ## When a session is open -/

namespace AuthService

variable {P : Platform} {w : World}

theorem isUnlocked_iff : isUnlocked w = true ↔
    ∃ r t, w.auth._kek = some r ∧ w.auth._lastUnlock = some t ∧
      w.now.micros - t.micros < w.auth.sessionTimeout := by
  unfold isUnlocked elapsed
  rcases w.auth._kek with - | r
  · simp
  · rcases w.auth._lastUnlock with - | t <;> simp

theorem kek_eq_some {r : Ref} : kek w = some r ↔ isUnlocked w = true ∧ w.auth._kek = some r := by
  unfold kek
  cases isUnlocked w <;> simp

/-- No key is handed out when no session is open, and one is when a session is. -/
theorem kek_eq_none : kek w = none ↔ isUnlocked w = false := by
  unfold kek
  cases h : isUnlocked w with
  | false => simp
  | true =>
    obtain ⟨r, t, hr, -, -⟩ := isUnlocked_iff.mp h
    simp [hr]

theorem isUnlocked_locked : isUnlocked (locked w) = false := rfl

end AuthService

end CajaSegura
