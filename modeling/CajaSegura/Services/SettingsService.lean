import CajaSegura.Platform.Rules

/-!
# Settings

`SettingsService`: the settings are preferences of the device. Once the process has asked for them
it keeps a copy. A change updates the copy when the device has stored it, or at once where the
preferences are eager.

## Main definitions

* `SettingsService.init`, `SettingsService.resetSettings`
* `SettingsService.autoLockTime`, `SettingsService.setAutoLockTime`
* `SettingsService.storedAutoLockTime`: the auto-lock time that the device has stored

## Main results

* `SettingsService.within_init`, `SettingsService.within_setValue`,
  `SettingsService.within_removeValue`: what the calls change
-/

namespace CajaSegura

open Codec Async
open Program hiding bind

namespace SettingsService

variable (P : Platform)

def _screenProtectionKey : Text := "screen_protection_enabled".toList

def _biometricAuthKey : Text := "biometric_auth_enabled".toList

def _autoLockTimeKey : Text := "auto_lock_time".toList

/-- What `_prefs?` leads to. -/
def prefs (w : World) : Option Preferences := if w._prefs then w.preferences else none

def init : App Unit := do
  let there ← get fun w => w._prefs
  when (!there) do
    call .getPreferences
    Program.modify fun w => { w with _prefs := true }

/-! ## Reading -/

/-- `getBool`: a cast to `bool?`. -/
def getBool (p : Preferences) (key : Text) : Except DartError (Option Bool) :=
  match p key with
  | none => .ok none
  | some (.bool b) => .ok (some b)
  | some (.int _) => .error (.cast "int".toList "bool?".toList)

/-- `getInt`: a cast to `int?`. -/
def getInt (p : Preferences) (key : Text) : Except DartError (Option ℤ) :=
  match p key with
  | none => .ok none
  | some (.int n) => .ok (some n)
  | some (.bool _) => .error (.cast "bool".toList "int?".toList)

def boolSetting (key : Text) (w : World) : Except DartError Bool :=
  match prefs w with
  | none => .ok true
  | some p => (getBool p key).map fun b => b.getD true

def isScreenProtectionEnabled (w : World) : Except DartError Bool :=
  boolSetting _screenProtectionKey w

def isBiometricAuthEnabled (w : World) : Except DartError Bool := boolSetting _biometricAuthKey w

/-- The auto-lock time in these preferences, in minutes. -/
def minutesOf (p : Preferences) : Except DartError ℤ :=
  (getInt p _autoLockTimeKey).map fun n => n.getD 5

def autoLockTime (w : World) : Except DartError ℤ :=
  match prefs w with
  | none => .ok 5
  | some p => minutesOf p

/-- The auto-lock time that a process would read if it started now. -/
def storedAutoLockTime (w : World) : Except DartError ℤ := minutesOf w.disk

/-! ## Writing -/

/-- The copy of the process under one key. -/
def cached (key : Text) (value : Option Preference) (w : World) : World :=
  { w with preferences := w.preferences.map fun p => Function.update p key value }

/-- `await _prefs?.setBool(key, value)`, and likewise `setInt`. -/
def setValue (key : Text) (value : Preference) : App Unit := do
  let there ← get fun w => (prefs w).isSome
  if there then
    when P.eager (Program.modify (cached key (some value)))
    let stored : Bool ← call (.setPreference key value)
    when (stored && !P.eager) (Program.modify (cached key (some value)))
  else call .hop

/-- `await _prefs?.remove(key)`. -/
def removeValue (key : Text) : App Unit := do
  let there ← get fun w => (prefs w).isSome
  if there then
    when P.eager (Program.modify (cached key none))
    let removed : Bool ← call (.removePreference key)
    when (removed && !P.eager) (Program.modify (cached key none))
  else call .hop

def setScreenProtectionEnabled (enabled : Bool) : App Unit :=
  setValue P _screenProtectionKey (.bool enabled)

def setBiometricAuthEnabled (enabled : Bool) : App Unit :=
  setValue P _biometricAuthKey (.bool enabled)

def setAutoLockTime (minutes : ℤ) : App Unit := setValue P _autoLockTimeKey (.int minutes)

def resetSettings : App Unit := do
  removeValue P _screenProtectionKey
  removeValue P _biometricAuthKey
  removeValue P _autoLockTimeKey

/-! ## What the calls change -/

variable {P} {G : World → World → Prop}

/-- The calls and writes of the settings. -/
def OfSettings (op : Op) : Prop :=
  op = .hop ∨ op = .getPreferences ∨ (∃ k v, op = .setPreference k v) ∨ ∃ k, op = .removePreference k

theorem within_init (hG : ∀ w, G w { w with _prefs := true }) :
    init.Within OfSettings G := by
  refine Within.bind (Within.get _) fun there => within_when ?_
  exact Within.bind (within_call.mpr (.inr (.inl rfl))) fun _ => Within.modify.mpr hG

theorem within_setValue {key : Text} {value : Preference}
    (hG : ∀ w, G w (cached key (some value) w)) : (setValue P key value).Within
      (fun op => op = .hop ∨ op = .setPreference key value) G := by
  refine Within.bind (Within.get _) fun there => ?_
  cases there with
  | false => exact within_call.mpr (.inl rfl)
  | true =>
    refine Within.bind (within_when (Within.modify.mpr hG)) fun _ => ?_
    exact Within.bind (within_call.mpr (.inr rfl)) fun _ => within_when (Within.modify.mpr hG)

theorem within_removeValue {key : Text} (hG : ∀ w, G w (cached key none w)) :
    (removeValue P key).Within (fun op => op = .hop ∨ op = .removePreference key) G := by
  refine Within.bind (Within.get _) fun there => ?_
  cases there with
  | false => exact within_call.mpr (.inl rfl)
  | true =>
    refine Within.bind (within_when (Within.modify.mpr hG)) fun _ => ?_
    exact Within.bind (within_call.mpr (.inr rfl)) fun _ => within_when (Within.modify.mpr hG)

end SettingsService

end CajaSegura
