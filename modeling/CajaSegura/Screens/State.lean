import CajaSegura.Platform.Rules

/-!
# The State of a screen

A screen has a State from the moment at which it appears until it is disposed. Its handlers may
still be waiting then. What they use of the State afterwards throws, unless they have looked at
`mounted` before.

## Main definitions

* `World.mounted`, `World.disposed`: whether the State of a screen is there, and its end
* `use`: `setState`, `context` and the controllers of a State
* `World.entered`, `World.left`: the marks of the stretches that a thread is in
* `exposing`: the stretch of a handler that is followed by a use of its State
-/

namespace CajaSegura

open Codec Async
open Program hiding bind

/-! ## Marks -/

/-- The thread enters a stretch. -/
def World.entered (m : ℕ × Stretch) (w : World) : World :=
  { w with record := { w.record with running := m :: w.record.running } }

/-- The thread leaves a stretch. -/
def World.left (m : ℕ × Stretch) (w : World) : World :=
  { w with record := { w.record with running := w.record.running.erase m } }

/-! ## The State -/

/-- `mounted` -/
def World.mounted (w : World) : Screen → Bool
  | .lock => w.lockScreen.mounted
  | .home => w.homeScreen.mounted
  | .settings => w.settingsScreen.mounted

/-- `dispose()` -/
def World.disposed (s : Screen) (w : World) : World :=
  match s with
  | .lock => { w with lockScreen := { w.lockScreen with mounted := false } }
  | .home => { w with homeScreen := { w.homeScreen with mounted := false } }
  | .settings => { w with settingsScreen := { w.settingsScreen with mounted := false } }

/-- The State of a screen is used after it has been disposed. -/
def World.touching (s : Screen) (w : World) : World :=
  { w with record := { w.record with touched := s :: w.record.touched } }

/-- What a State offers throws when it has been disposed. -/
def use (s : Screen) : App Unit := do
  let mounted ← get fun w => w.mounted s
  when (!mounted) do
    Program.modify (World.touching s)
    throw .unmounted

/-- The stretch of a handler before it uses the State of its screen. -/
def exposing {α : Type} (self : ℕ) (s : Screen) (p : App α) : App α := do
  Program.modify (World.entered (self, .exposed s))
  Program.tryFinally p (Program.modify (World.left (self, .exposed s)))

/-- A State that is there can be used. -/
theorem wp_use {P : Platform} {D : Discipline (device P)} {s : Screen} {w : World}
    {Q : Except DartError Unit → World → Prop} (h : w.mounted s = true) :
    (use s).wp D Q w ↔ Q (.ok ()) w := by
  unfold use
  rw [wp_bind, wp_get]
  dsimp only
  rw [h]
  rfl

end CajaSegura
