import CajaSegura.Screens.State
import CajaSegura.Services.AuthService
import CajaSegura.Services.BackgroundService

/-!
# The lock screen

`_LockScreenState`: the button that opens the session and leads to the home screen. When a session
is refused the screen is shaken, before it looks at `mounted`.

## Main definitions

* `LockScreen._unlock`
* `LockScreen.errorMessage`: what is shown for an error
-/

namespace CajaSegura

open Codec Async
open Program hiding bind

namespace LockScreen

variable (P : Platform)

/-! ## The state -/

/-- A change of the state, without more. -/
def shown (f : LockScreenState → LockScreenState) (w : World) : World :=
  { w with lockScreen := f w.lockScreen }

def setState (f : LockScreenState → LockScreenState) : App Unit := do
  use .lock
  Program.modify (shown f)

/-- `if (mounted) f` -/
def whenMounted (f : World → World) : App Unit :=
  Program.modify fun w => if w.lockScreen.mounted then f w else w

/-- `_shakeController.forward()`; the callback that resets the controller is not called once the
controller has been disposed. -/
def shake : App Unit := use .lock

/-- `Navigator.of(context).pushReplacementNamed('/home')` -/
def pushHome (w : World) : World := { w with route := .home }

/-! ## The button -/

/-- `s.contains(part)` -/
def contains (s part : Text) : Bool := s.tails.any part.isPrefixOf

def errorMessage (e : DartError) : Text :=
  let errorStr := BackgroundService.toLowerCase P e.toText
  if contains errorStr "no disponible".toList then
    "Autenticación biométrica no disponible.\nConfigura huella dactilar o Face ID.".toList
  else if contains errorStr "no hay biometría".toList then
    "No hay biometría configurada.\nConfigura huella dactilar o Face ID.".toList
  else if contains errorStr "bloqueada".toList then
    "Autenticación bloqueada.\nIntenta más tarde o usa tu PIN.".toList
  else if contains errorStr "no se encontró".toList then
    "Error de configuración.\nReinstala la aplicación.".toList
  else "Error: ".toList ++ e.toText

/-- The session is opened, and after a short delay the home screen takes the place of this one. -/
def unlockBody (self : ℕ) : App Unit := do
  let ok ← exposing self .lock do
    awaited (LockManager.init P)
    awaited (LockManager.unlock P)
  let mounted ← get fun w => w.lockScreen.mounted
  if ok && mounted then
    call (.delayed 300)
    whenMounted pushHome
  else
    shake
    whenMounted (shown fun s =>
      { s with _error := some "Autenticación cancelada.\nIntenta nuevamente.".toList })

def _unlock (self : ℕ) : App Unit := do
  let busy ← get fun w => w.lockScreen._busy
  if busy then return ()
  else
    setState fun s => { s with _busy := true, _error := none }
    Program.tryFinally
      (Program.tryCatch (unlockBody P self) fun e => do
        shake
        whenMounted (shown fun s => { s with _error := some (errorMessage P e) }))
      (whenMounted (shown fun s => { s with _busy := false }))

end LockScreen

end CajaSegura
