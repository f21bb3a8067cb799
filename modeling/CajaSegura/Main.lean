import CajaSegura.Services.AuthRules
import CajaSegura.Services.SettingsService

/-!
# The start of the application

## Main definitions

* `main`: the services are initialised and the lock screen is shown
* `restarted`: what the death of the process leaves
-/

namespace CajaSegura

open Codec Async
open Program hiding bind

/-- `const Duration(minutes: 5)`, in microseconds. -/
def defaultTimeout : ℤ := 5 * 60 * 1000000

/-- `runApp`: the lock screen is shown. -/
def runApp : App Unit :=
  Program.modify fun w => { w with route := .lock, lockScreen := ⟨true, false, none⟩ }

def main (P : Platform) : App Unit := do
  call .systemChrome
  Program.tryCatch (do
    awaited SettingsService.init
    awaited (LockManager.init P))
    fun _ => return ()
  Program.tryCatch (do
    let enabled ← get SettingsService.isScreenProtectionEnabled
    let enabled ← Program.done enabled
    when enabled (call .systemChrome))
    fun _ => return ()
  runApp

/-- A process that has just started, on a device whose files, stored key and preferences are as they
were. -/
def restarted (w : World) : World :=
  { w with
    heap := fun _ => []
    allocated := 0
    preferences := none
    _prefs := false
    auth := ⟨none, none, defaultTimeout⟩
    background := ⟨none, none⟩
    paused := false
    route := .lock
    lockScreen := ⟨false, false, none⟩
    homeScreen := ⟨false, [], false, none⟩
    settingsScreen := ⟨false, true, true, 5, true⟩
    record := { w.record with running := [] } }

end CajaSegura
