import CajaSegura.Async.Pool
import CajaSegura.Screens.HomeScreen
import CajaSegura.Services.AuthRules
import CajaSegura.Services.ListRules
import CajaSegura.Services.VaultCalls

/-!
# What happens beside the home screen

The home screen is changed by its own handlers only. The services they call leave it alone, and so
do the pauses and the clock.

## Main definitions

* `World.Aside`: a change that leaves the home screen and its marks alone
* `HomeAction`, `HomeAction.program`: what happens to a home screen
* `homeRuns`, `anyRuns`: the runs of a home screen
* `Watches`: what a discipline grants and asks of a handler

## Main results

* `HomeScreen.within_unlock`, `HomeScreen.within_importFile`, `HomeScreen.within_exportClear`,
  `HomeScreen.within_deleteById`, `HomeScreen.within_listAll`: what the services write
* `Watches.keeps_program`: what every handler keeps
-/

namespace CajaSegura

open Codec Async
open Program hiding bind

variable {P : Platform}

/-- The home screen and its marks are as before. -/
structure World.Aside (w w' : World) : Prop where
  homeScreen : w'.homeScreen = w.homeScreen
  running : w'.record.running = w.record.running
  found : w'.record.found = w.record.found

theorem World.aside_exec (w : World) (op : Op) (o : Outcome op) : w.Aside (w.exec P op o).2 := by
  have h := World.outside_exec P w op o
  exact ⟨h.homeScreen, h.running, h.found⟩

namespace HomeScreen

/-! ## The services -/

variable {G : World → World → Prop}

theorem within_unlock (hdraw : ∀ w w', Draws w w' → G w w')
    (hkeyed : ∀ w b, G w (AuthService.keyed b w)) (hopened : ∀ w, G w (AuthService.opened w)) :
    (awaited (LockManager.unlock P)).Within (fun _ => True) G :=
  within_awaited (within_awaited (AuthService.within_authenticate
    (fun w n => hdraw w _ ⟨n, w.uuids, rfl⟩) hkeyed hopened _) trivial) trivial

theorem within_importFile (hdraw : ∀ w w', Draws w w' → G w w') (source : File) (mimeType : Text)
    (kek : Ref) (moveFile : Bool) :
    (awaited (VaultRepository.importFile P source mimeType kek moveFile)).Within
      (fun _ => True) G := by
  have hall : Removing fun _ => True := by constructor <;> intros <;> trivial
  exact within_awaited (VaultRepository.within_importFile hall (fun _ _ => trivial) hdraw _ _ _ _)
    trivial

theorem within_exportClear (id : Text) (kek : Ref) :
    (awaited (VaultRepository.exportClear P id kek)).Within (fun _ => True) G :=
  within_awaited (Within.mono (fun _ _ => trivial) (fun _ _ h => h)
    (VaultRepository.within_exportClear id kek)) trivial

theorem within_deleteById (id : Text) :
    (awaited (VaultRepository.deleteById id)).Within (fun _ => True) G := by
  have hall : Removing fun _ => True := by constructor <;> intros <;> trivial
  exact within_awaited (VaultRepository.within_deleteById hall id) trivial

theorem within_listAll : (awaited (VaultRepository.listAll P)).Within (fun _ => True) G :=
  within_awaited (Within.mono (fun _ _ => trivial) (fun _ _ h => h) VaultRepository.within_listAll)
    trivial

end HomeScreen

namespace HomeScreen

theorem wp_observed {D : Discipline (device P)} {α : Type} {Q : Except DartError α → World → Prop}
    {w : World} (c : HomeCall) (verdict : α → Bool) (p : App α) :
    (observed c verdict p).wp D Q w ↔ p.wp D (fun r w' =>
      D.guarantee w' (replied c (r.map verdict) w') ∧ Q r (replied c (r.map verdict) w')) w := by
  refine (wp_handle p _).trans (iff_of_eq (congrArg (fun R => p.wp D R w) ?_))
  funext r w'
  rw [wp_bind, wp_modify]
  dsimp only
  rw [wp_done]

end HomeScreen

/-! ## The handlers -/

/-- The stretches at whose beginning the flag is set and at whose end it is cleared. -/
def Stretch.holds : Stretch → Bool
  | handler | load => true
  | batch | opening | exposed _ => false

namespace HomeScreen

/-- The screen is there, and the thread is in these stretches. -/
def Held (i : ℕ) (ss : List Stretch) (w : World) : Prop :=
  w.homeScreen.mounted = true ∧ ∀ s ∈ ss, (i, s) ∈ w.record.running

variable {i : ℕ} {ss : List Stretch} {w : World}

theorem Held.tail {s : Stretch} (h : Held i (s :: ss) w) : Held i ss w :=
  ⟨h.1, fun t ht => h.2 t (List.mem_cons_of_mem s ht)⟩

theorem held_entered {s : Stretch} (h : Held i ss w) :
    Held i (s :: ss) (World.entered (i, s) w) := by
  refine ⟨h.1, fun t ht => ?_⟩
  rcases List.mem_cons.mp ht with rfl | ht
  · exact List.mem_cons_self
  · exact List.mem_cons_of_mem _ (h.2 t ht)

theorem mem_left {m m' : ℕ × Stretch} (hne : m' ≠ m) :
    m' ∈ (World.left m w).record.running ↔ m' ∈ w.record.running := List.mem_erase_of_ne hne

/-- Leaving one stretch is no leaving of others. -/
theorem held_left {s : Stretch} (hn : s ∉ ss) (h : Held i ss w) :
    Held i ss (World.left (i, s) w) := by
  refine ⟨h.1, fun t ht => (mem_left fun he => hn ?_).mpr (h.2 t ht)⟩
  obtain rfl : t = s := congrArg Prod.snd he
  exact ht

end HomeScreen

/-- What a discipline grants and asks of a handler that runs in the thread `i`. `J ss` is known in
the stretches `ss`, and a call on the vault may start where `may` holds. -/
structure Watches (P : Platform) (D : Discipline (device P)) (i : ℕ)
    (J : List Stretch → World → Prop) (may : World → Prop) : Prop where
  mounted : ∀ ss w, J ss w → w.homeScreen.mounted = true
  call : ∀ op ss, (call op).Keeps D (J ss)
  unlock : ∀ ss, (awaited (LockManager.unlock P)).Keeps D (J ss)
  importFile : ∀ source mimeType kek ss,
    (awaited (VaultRepository.importFile P source mimeType kek true)).Keeps D (J ss)
  exportClear : ∀ id kek ss, (awaited (VaultRepository.exportClear P id kek)).Keeps D (J ss)
  deleteById : ∀ id ss, (awaited (VaultRepository.deleteById id)).Keeps D (J ss)
  listAll : ∀ ss, (awaited (VaultRepository.listAll P)).Keeps D (J ss)
  confirm : ∀ t w, J [] w → (CajaSegura.call (.showDialog t)).wp D
    (fun r w' => J [] w' ∧ (r = .ok (some true) → may w')) w
  taken : ∀ s ss w, s.holds = true → J ss w →
    D.guarantee w (World.entered (i, s) (HomeScreen.taken w)) ∧
      J (s :: ss) (World.entered (i, s) (HomeScreen.taken w)) ∧
      (may w → may (World.entered (i, s) (HomeScreen.taken w)))
  given : ∀ s ss w, s.holds = true → s ∉ ss → J (s :: ss) w →
    D.guarantee w (World.left (i, s) (HomeScreen.given w)) ∧
      J ss (World.left (i, s) (HomeScreen.given w))
  shown : ∀ f ss w, (∀ s : HomeScreenState, (f s).mounted = s.mounted) →
    (∀ s : HomeScreenState, (f s)._busy = s._busy) → J ss w →
    D.guarantee w (HomeScreen.shown f w) ∧ J ss (HomeScreen.shown f w)
  kek : ∀ w, LockManager.kek w ≠ none → may w
  batch : ∀ ss w, J ss w → LockManager.kek w ≠ none →
    D.guarantee w (World.entered (i, .batch) w) ∧ J (.batch :: ss) (World.entered (i, .batch) w)
  unbatch : ∀ ss w, .batch ∉ ss → J (.batch :: ss) w →
    D.guarantee w (World.left (i, .batch) w) ∧ J ss (World.left (i, .batch) w)
  unexposed : ∀ ss w, .exposed .home ∉ ss → J ss w →
    D.guarantee w (World.left (i, .exposed .home) w) ∧ J ss (World.left (i, .exposed .home) w) ∧
      (may w → may (World.left (i, .exposed .home) w))
  importing : ∀ ss w, J (.batch :: ss) w → may w
  calling : ∀ name ss w, J ss w → may w →
    D.guarantee w (HomeScreen.called name w) ∧ J ss (HomeScreen.called name w)
  replied : ∀ c r ss w, J ss w →
    D.guarantee w (HomeScreen.replied c r w) ∧ J ss (HomeScreen.replied c r w) ∧
      (may w → may (HomeScreen.replied c r w))

namespace Watches

open HomeScreen

variable {D : Discipline (device P)} {i : ℕ} {J : List Stretch → World → Prop}
  {may : World → Prop} {ss : List Stretch}

theorem keeps_get {α : Type} (f : World → α) : (get f : App α).Keeps D (J ss) := fun _ h => h

theorem keeps_when {b : Bool} {p : App Unit} (hp : p.Keeps D (J ss)) :
    (when b p).Keeps D (J ss) := fun w h => wp_when.mpr ⟨fun _ => hp w h, fun _ => h⟩

theorem keeps_awaited (hJ : Watches P D i J may) {α : Type} {p : App α} (hp : p.Keeps D (J ss)) :
    (awaited p).Keeps D (J ss) := by
  intro w h
  rw [wp_awaited]
  exact wp_mono p (fun _ w' h' => wp_mono _ (fun _ _ h => h) (hJ.call .hop ss w' h')) (hp w h)

theorem keeps_observed (hJ : Watches P D i J may) {α : Type} (c : HomeCall) (verdict : α → Bool)
    {p : App α} (hp : p.Keeps D (J ss)) : (observed c verdict p).Keeps D (J ss) := by
  intro w h
  rw [wp_observed]
  refine wp_mono p ?_ (hp w h)
  intro r w' h'
  obtain ⟨hg, h'', -⟩ := hJ.replied c (r.map verdict) ss w' h'
  exact ⟨hg, h''⟩

/-- A change of what is shown. -/
theorem keeps_shown (hJ : Watches P D i J may) {f : HomeScreenState → HomeScreenState}
    (hm : ∀ s, (f s).mounted = s.mounted) (hb : ∀ s, (f s)._busy = s._busy) :
    (whenMounted (HomeScreen.shown f)).Keeps D (J ss) := by
  intro w h
  unfold whenMounted
  rw [wp_modify, if_pos (hJ.mounted ss w h)]
  exact hJ.shown f ss w hm hb h

theorem keeps_failed (hJ : Watches P D i J may) (what : Text) (e : DartError) :
    (whenMounted (failed what e)).Keeps D (J ss) := hJ.keeps_shown (fun _ => rfl) fun _ => rfl

/-- The `finally` of a handler or a load. -/
theorem keeps_finally (hJ : Watches P D i J may) {α : Type} {p : App α} {s : Stretch}
    (hs : s.holds = true) (hn : s ∉ ss) (hp : p.Keeps D (J (s :: ss))) {w : World}
    (h : J (s :: ss) w) : (Program.tryFinally p (Program.modify fun w =>
      World.left (i, s) (if w.homeScreen.mounted then HomeScreen.given w else w))).wp D
        (fun _ w' => J ss w') w := by
  rw [wp_tryFinally]
  refine wp_mono _ ?_ (hp w h)
  intro r w₁ h₁
  rw [wp_modify, if_pos (hJ.mounted _ w₁ h₁)]
  exact hJ.given s ss w₁ hs hn h₁

theorem keeps_load (hJ : Watches P D i J may) (hn : .load ∉ ss) (force : Bool) :
    (_load P i force).Keeps D (J ss) := by
  refine Keeps.bind (keeps_get _) fun busy => ?_
  split
  · exact Keeps.ret ()
  intro w h
  obtain ⟨hg, h', -⟩ := hJ.taken .load ss w rfl h
  rw [wp_bind]
  unfold whenMounted
  rw [wp_modify, if_pos (hJ.mounted ss w h)]
  refine ⟨hg, hJ.keeps_finally rfl hn (Keeps.tryCatch (Keeps.bind
      (hJ.keeps_observed _ _ (hJ.listAll _)) fun all => ?_) ?_) h'⟩
  · exact hJ.keeps_shown (fun _ => rfl) fun _ => rfl
  · exact fun e => hJ.keeps_failed _ e

/-- The section of a handler. What lets it call the vault at once may be known when it begins. -/
theorem keeps_guarded (hJ : Watches P D i J may) (what : Text) {body : App Unit} {w : World}
    (h : J [] w) {R : World → Prop}
    (hR : R w → R (World.left (i, .exposed .home) (World.entered (i, .handler) (HomeScreen.taken w))))
    (hw : R w) (hbody : ∀ w, J [.handler] w → R w → body.wp D (fun _ w' => J [.handler] w') w) :
    (guarded i what body).wp D (fun _ w' => J [] w') w := by
  obtain ⟨hg, h', -⟩ := hJ.taken .handler [] w rfl h
  obtain ⟨hg', h'', -⟩ := hJ.unexposed [.handler] _ (by simp) h'
  unfold guarded setState
  rw [wp_bind, wp_bind, wp_use (show w.mounted .home = true from hJ.mounted _ w h)]
  dsimp only
  rw [wp_modify]
  refine ⟨hg, ?_⟩
  dsimp only [Function.comp]
  rw [wp_bind, wp_modify]
  refine ⟨hg', ?_⟩
  dsimp only
  rw [wp_tryFinally, wp_tryCatch]
  have hfinally (w₁ : World) (h₁ : J [.handler] w₁) := hJ.given .handler [] w₁ rfl nofun h₁
  refine wp_mono _ ?_ (hbody _ h'' (hR hw))
  rintro (e | u) w₁ h₁
  · refine wp_mono _ ?_ (hJ.keeps_failed what e w₁ h₁)
    intro r w₂ h₂
    rw [wp_modify, if_pos (hJ.mounted _ w₂ h₂)]
    exact hfinally w₂ h₂
  · dsimp only
    rw [wp_modify, if_pos (hJ.mounted _ w₁ h₁)]
    exact hfinally w₁ h₁

theorem keeps_gate (hJ : Watches P D i J may) : (gate P).Keeps D (J ss) := by
  refine Keeps.bind (keeps_get _) fun unlocked => ?_
  split
  · exact hJ.keeps_observed _ _ (hJ.unlock ss)
  · exact Keeps.ret true

/-- The key that an import goes on with is the key of an open session. -/
theorem finalKek_wp (hJ : Watches P D i J may) {w : World} (h : J ss w) :
    (finalKek P).wp D (fun r w' => J ss w' ∧ ∀ k, r = .ok k → LockManager.kek w' ≠ none) w := by
  -- another `unlock` where there is no key, which may throw
  have hfirst : (when (LockManager.kek w).isNone (do
      let reauth ← observed .unlockAgain id (awaited (LockManager.unlock P))
      if reauth then
        let kekRetry ← get LockManager.kek
        when kekRetry.isNone (throw (.exception ("No se pudo obtener la clave de cifrado después de "
          ++ "reautenticación. Intenta reiniciar la aplicación.").toList))
      else throw (.exception
        "No se pudo obtener la clave de cifrado. Intenta autenticarte nuevamente.".toList))).Keeps D
          (J ss) := by
    refine keeps_when (Keeps.bind (hJ.keeps_observed _ _ (hJ.unlock ss)) fun reauth => ?_)
    split
    · exact Keeps.bind (keeps_get _) fun kekRetry => keeps_when (Keeps.fail _)
    · exact Keeps.fail _
  unfold finalKek
  rw [wp_bind, wp_get]
  dsimp only
  rw [wp_bind]
  refine wp_mono _ ?_ (hfirst w h)
  rintro (e | u) w₁ h₁
  · exact ⟨h₁, nofun⟩
  dsimp only
  rw [wp_bind, wp_get]
  dsimp only
  cases hk : LockManager.kek w₁ with
  | none => exact ⟨h₁, nofun⟩
  | some kek => exact ⟨h₁, fun _ _ => by rw [hk]; exact nofun⟩

theorem keeps_importEach (hJ : Watches P D i J may) (kek : Ref) (files : List (Option Text)) :
    (importEach P kek files).Keeps D (J (.batch :: ss)) := by
  induction files with
  | nil => exact Keeps.ret ()
  | cons f files ih =>
    refine Keeps.bind ?_ fun _ => ih
    cases f with
    | none => exact Keeps.ret ()
    | some path =>
      refine Keeps.bind (hJ.keeps_observed _ _ (hJ.call _ _)) fun there => keeps_when ?_
      refine Keeps.bind (fun w h => ?_) fun _ => ?_
      · exact hJ.calling _ _ w h (hJ.importing ss w h)
      · refine Keeps.bind (hJ.keeps_observed _ _ (hJ.importFile _ _ _ _)) fun _ => ?_
        exact Keeps.ret ()

theorem keeps_importAll (hJ : Watches P D i J may) (files : List (Option Text)) :
    (importAll P i files).Keeps D (J [.handler]) := by
  have hload : (awaited (_load P i true)).Keeps D (J [.handler]) :=
    hJ.keeps_awaited (hJ.keeps_load (by simp) true)
  have hend : Program.Keeps D (J [.handler]) (do
      awaited (_load P i true)
      CajaSegura.call (.delayed 200)
      awaited (_load P i true)) :=
    Keeps.bind hload fun _ => Keeps.bind (hJ.call _ _) fun _ => hload
  intro w h
  unfold importAll
  rw [wp_bind]
  refine wp_mono _ ?_ (hJ.finalKek_wp h)
  rintro (e | kek) w₁ ⟨h₁, hk⟩
  · exact h₁
  obtain ⟨hg, h₂⟩ := hJ.batch _ w₁ h₁ (hk kek rfl)
  dsimp only
  rw [wp_bind, wp_modify]
  refine ⟨hg, ?_⟩
  dsimp only
  rw [wp_bind, wp_tryFinally]
  refine wp_mono _ ?_ (hJ.keeps_importEach kek files _ h₂)
  rintro (e | u) w₃ h₃
  · exact hJ.unbatch _ w₃ (by simp) h₃
  · obtain ⟨hg, h₄⟩ := hJ.unbatch _ w₃ (by simp) h₃
    exact ⟨hg, hend _ h₄⟩

theorem keeps_import (hJ : Watches P D i J may) : (_import P i).Keeps D (J []) := by
  refine Keeps.bind (keeps_get _) fun busy => ?_
  split
  · exact Keeps.ret ()
  refine Keeps.bind hJ.keeps_gate fun ok => ?_
  split
  · exact Keeps.ret ()
  refine Keeps.bind (hJ.keeps_observed _ _ (hJ.call _ _)) fun result => ?_
  rcases result with - | (- | ⟨f, files⟩)
  · exact Keeps.ret ()
  · exact Keeps.ret ()
  · exact fun w h => hJ.keeps_guarded (R := fun _ => True) _ h id trivial fun w h _ =>
      hJ.keeps_importAll _ w h

theorem keeps_export (hJ : Watches P D i J may) (entry : VaultFileMeta) :
    (_export P i entry).Keeps D (J []) := by
  have hone : (exportOne P entry).Keeps D (J [.handler]) := by
    intro w h
    unfold exportOne
    rw [wp_bind, wp_get]
    dsimp only
    cases hk : LockManager.kek w with
    | none => exact h
    | some kek =>
      have hmay : may w := hJ.kek w (by rw [hk]; exact nofun)
      have hrest : Program.Keeps D (J [.handler]) (do
          let bytes ← observed .exportClear (fun bytes => !bytes.isEmpty)
            (awaited (VaultRepository.exportClear P entry.id kek))
          when bytes.isEmpty (throw (.state "El archivo está vacío".toList))
          observed .shareXFiles (fun _ => true)
            (CajaSegura.call (.shareXFiles bytes entry.originalName entry.mimeType))) := by
        refine Keeps.bind (hJ.keeps_observed _ _ (hJ.exportClear _ _ _)) fun bytes => ?_
        exact Keeps.bind (keeps_when (Keeps.fail _)) fun _ => hJ.keeps_observed _ _ (hJ.call _ _)
      obtain ⟨hg, h'⟩ := hJ.calling "exportClear" _ w h hmay
      exact ⟨hg, hrest _ h'⟩
  refine Keeps.bind (keeps_get _) fun busy => ?_
  split
  · exact Keeps.ret ()
  refine Keeps.bind hJ.keeps_gate fun ok => ?_
  split
  · exact Keeps.ret ()
  · exact fun w h => hJ.keeps_guarded (R := fun _ => True) _ h id trivial fun w h _ => hone w h

theorem keeps_delete (hJ : Watches P D i J may) (entry : VaultFileMeta) :
    (_delete P i entry).Keeps D (J []) := by
  have hone (w : World) (h : J [.handler] w) (hmay : may w) :
      (deleteOne P i entry).wp D (fun _ w' => J [.handler] w') w := by
    have hrest : Program.Keeps D (J [.handler]) (do
        observed .deleteById (fun _ => true) (awaited (VaultRepository.deleteById entry.id))
        awaited (_load P i false)) := by
      refine Keeps.bind (hJ.keeps_observed _ _ (hJ.deleteById _ _)) fun _ => ?_
      exact hJ.keeps_awaited (hJ.keeps_load (by simp) false)
    obtain ⟨hg, h'⟩ := hJ.calling "deleteById" _ w h hmay
    exact ⟨hg, hrest _ h'⟩
  refine Keeps.bind (keeps_get _) fun busy => ?_
  split
  · exact Keeps.ret ()
  intro w h
  rw [wp_bind, wp_observed]
  refine wp_mono _ ?_ (hJ.confirm _ w h)
  -- only the answer of the dialog allows the deletion
  rintro r w₁ ⟨h₁, hmay⟩
  obtain ⟨hg, h₂, hmay₂⟩ := hJ.replied .showDialog (r.map (· = some true)) [] w₁ h₁
  refine ⟨hg, ?_⟩
  rcases r with e | ok
  · exact h₂
  dsimp only
  split
  · rename_i hok
    have hmay₁ := hmay₂ (hmay (congrArg _ hok))
    obtain ⟨-, h₃, hmay₃⟩ := hJ.taken .handler [] _ rfl h₂
    have hmay₄ := (hJ.unexposed [.handler] _ (by simp) h₃).2.2
    exact hJ.keeps_guarded _ h₂ (hmay₄ ∘ hmay₃) hmay₁ hone
  · exact h₂

end Watches

/-! ## Runs -/

/-- What happens to a home screen: taps, pauses of the application, and the clock. -/
inductive HomeAction
  | tapImport
  | tapExport (entry : VaultFileMeta)
  | tapDelete (entry : VaultFileMeta)
  | refresh
  | lifecycle (paused : Bool)
  | tick (now : Instant)

def HomeAction.program (P : Platform) (self : ℕ) : HomeAction → App Unit
  | .tapImport => HomeScreen._import P self
  | .tapExport entry => HomeScreen._export P self entry
  | .tapDelete entry => HomeScreen._delete P self entry
  | .refresh => HomeScreen._load P self false
  | .lifecycle paused => HomeScreen.didChangeAppLifecycleState paused
  | .tick now => Program.modify (AuthService.clocked now)

/-- Every thread keeps its promise, from the moment at which it is started. -/
theorem Watches.keeps_program {D : Discipline (device P)} {i : ℕ} {J : List Stretch → World → Prop}
    {may : World → Prop} (hJ : Watches P D i J may) {a : HomeAction} {w : World}
    (hpause : a = .lifecycle true →
      D.guarantee w (AuthService.locked w) ∧ J [] (AuthService.locked w))
    (htick : ∀ now, a = .tick now →
      D.guarantee w (AuthService.clocked now w) ∧ J [] (AuthService.clocked now w))
    (h : J [] w) : (a.program P i).wp D (fun _ w' => J [] w') w := by
  cases a with
  | tapImport => exact hJ.keeps_import w h
  | tapExport entry => exact hJ.keeps_export entry w h
  | tapDelete entry => exact hJ.keeps_delete entry w h
  | refresh => exact hJ.keeps_load (by simp) false w h
  | lifecycle paused =>
    refine wp_when.mpr ⟨?_, fun _ => h⟩
    rintro rfl
    exact hpause rfl
  | tick now => exact htick now rfl

/-- The runs of a home screen. The environment may be restricted: when a thing happens, which
outcomes a call has, and when a reply is delivered. -/
def homeRuns (P : Platform) (enabled : World → HomeAction → Prop)
    (allow : World → (op : Op) → Outcome op → Prop)
    (deliver : World → (op : Op) → Except DartError (Reply op) → Prop) : System (device P) where
  Action := HomeAction
  program := HomeAction.program P
  enabled := enabled
  allow := allow
  deliver := deliver
  crash _ _ := False

/-- All runs of a home screen. -/
abbrev anyRuns (P : Platform) : System (device P) :=
  homeRuns P (fun _ _ => True) (fun _ _ _ => True) fun _ _ _ => True

end CajaSegura
