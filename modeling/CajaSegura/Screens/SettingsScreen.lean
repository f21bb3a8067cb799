import CajaSegura.Screens.State
import CajaSegura.Services.SettingsService

/-!
# The settings screen

`_SettingsScreenState`: the three settings, as they are shown. Its handlers never look at `mounted`.
Two of them store a setting and then show it, one shows it and then stores it, and none looks at
whether it was stored.

## Main definitions

* `SettingsScreen._loadSettings`, `SettingsScreen._resetSettings`
* `SettingsScreen._updateScreenProtection`, `SettingsScreen._updateBiometricAuth`,
  `SettingsScreen._updateAutoLockTime`
-/

namespace CajaSegura

open Codec Async
open Program hiding bind

namespace SettingsScreen

variable (P : Platform)

/-! ## The state -/

/-- A change of the state, without more. -/
def shown (f : SettingsScreenState → SettingsScreenState) (w : World) : World :=
  { w with settingsScreen := f w.settingsScreen }

def setState (f : SettingsScreenState → SettingsScreenState) : App Unit := do
  use .settings
  Program.modify (shown f)

/-- `ScaffoldMessenger.of(context).showSnackBar(..)` -/
def _showSnackBar (_message : String) : App Unit := use .settings

/-- A synchronous getter that may throw. -/
def getter {α : Type} (f : World → Except DartError α) : App α :=
  Program.read fun w => Program.done (f w)

/-! ## Loading -/

def _loadSettings (self : ℕ) : App Unit := exposing self .settings do
  awaited SettingsService.init
  let screenProtection ← getter SettingsService.isScreenProtectionEnabled
  let biometricAuth ← getter SettingsService.isBiometricAuthEnabled
  let autoLock ← getter SettingsService.autoLockTime
  setState fun s =>
    { s with
      _screenProtectionEnabled := screenProtection
      _biometricAuthEnabled := biometricAuth
      _autoLockTime := autoLock
      _isLoading := false }

/-- The screen appears, and loads the settings. -/
def initState (self : ℕ) : App Unit := do
  Program.modify fun w => { w with settingsScreen := ⟨true, true, true, 5, true⟩ }
  _loadSettings self

/-! ## Changes -/

def _updateScreenProtection (self : ℕ) (value : Bool) : App Unit := exposing self .settings <|
  Program.tryCatch (do
    awaited (SettingsService.setScreenProtectionEnabled P value)
    let _ ← getter SettingsService.isScreenProtectionEnabled
    setState fun s => { s with _screenProtectionEnabled := value }
    call .systemChrome
    _showSnackBar (if value then "Protección de pantalla activada"
      else "Protección de pantalla desactivada"))
  fun _ => _showSnackBar "Error al actualizar la configuración"

def _updateBiometricAuth (self : ℕ) (value : Bool) : App Unit := exposing self .settings <|
  Program.tryCatch (do
    awaited (SettingsService.setBiometricAuthEnabled P value)
    let _ ← getter SettingsService.isBiometricAuthEnabled
    setState fun s => { s with _biometricAuthEnabled := value }
    _showSnackBar (if value then "Autenticación biométrica activada"
      else "Autenticación biométrica desactivada"))
  fun _ => _showSnackBar "Error al actualizar la configuración"

def _updateAutoLockTime (self : ℕ) (minutes : ℤ) : App Unit := exposing self .settings do
  setState fun s => { s with _autoLockTime := minutes }
  awaited (SettingsService.setAutoLockTime P minutes)
  _showSnackBar ("Tiempo de auto-bloqueo actualizado: " ++ String.ofList (Json.encodeInt minutes) ++
    " minutos")

/-! ## The reset -/

def resetQuestion : Text :=
  ("¿Estás seguro de que quieres resetear todas las configuraciones a sus valores por defecto?" :
    String).toList

/-- The reload is started and not awaited; it goes on after the message, whatever becomes of it. -/
def _resetSettings (self : ℕ) : App Unit := do
  let confirmed ← exposing self .settings do
    let confirmed : Option Bool ← call (.showDialog resetQuestion)
    when (confirmed = some true) (awaited (SettingsService.resetSettings P))
    return confirmed
  when (confirmed = some true)
    (Program.tryFinally (_showSnackBar "Configuración reseteada") (_loadSettings self))

end SettingsScreen

end CajaSegura
