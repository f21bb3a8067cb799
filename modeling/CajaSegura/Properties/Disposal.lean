import CajaSegura.Platform.Sample
import CajaSegura.Screens.HomeRules
import CajaSegura.Screens.LockScreen
import CajaSegura.Screens.SettingsScreen

/-!
# Screens that have gone

A State may be disposed while a handler of its screen waits. Some awaits are followed by a look at
`mounted`, and some by a use of the State.

## Main definitions

* `ScreenAction`: what happens to the three screens
* `Unexposed s`: no handler of the screen `s` waits where a use of its State follows
* `screenRuns P may`: the runs in which a State may be disposed where `may` holds
* `Aloof`: a change that no State and no stretch of another thread notices

## Main results

* `screens_untouched`: no State is used after it has been disposed, if each is disposed when unexposed
* `updateBiometricAuth_touches`: a settings screen that is left while a setting is stored
-/

namespace CajaSegura

open Codec Async
open Program hiding bind

variable {P : Platform}

/-! ## The runs of the screens -/

/-- The handlers of the three screens, the pauses and the clock, and the end of a State. -/
inductive ScreenAction
  | unlock
  | load
  | tapImport
  | tapExport (entry : VaultFileMeta)
  | tapDelete (entry : VaultFileMeta)
  | selectBackground
  | clearBackground
  | loadSettings
  | updateScreenProtection (value : Bool)
  | updateBiometricAuth (value : Bool)
  | updateAutoLockTime (minutes : ℤ)
  | resetSettings
  | lifecycle (paused : Bool)
  | tick (now : Instant)
  | dispose (s : Screen)

namespace ScreenAction

/-- The screen on which a handler is started. -/
def screen : ScreenAction → Option Screen
  | unlock => some .lock
  | load | tapImport | tapExport _ | tapDelete _ | selectBackground | clearBackground => some .home
  | loadSettings | updateScreenProtection _ | updateBiometricAuth _ | updateAutoLockTime _
  | resetSettings => some .settings
  | lifecycle _ => some .home
  | tick _ | dispose _ => none

/-- The handlers of the home screen have an await before they look at `mounted`. -/
def program (P : Platform) (self : ℕ) : ScreenAction → App Unit
  | unlock => LockScreen._unlock P self
  | load => HomeScreen._load P self false
  | tapImport => exposing self .home (HomeScreen._import P self)
  | tapExport entry => exposing self .home (HomeScreen._export P self entry)
  | tapDelete entry => exposing self .home (HomeScreen._delete P self entry)
  | selectBackground => exposing self .home (HomeScreen.onSelectBackground P)
  | clearBackground => exposing self .home HomeScreen.onClearBackground
  | loadSettings => SettingsScreen._loadSettings self
  | updateScreenProtection value => SettingsScreen._updateScreenProtection P self value
  | updateBiometricAuth value => SettingsScreen._updateBiometricAuth P self value
  | updateAutoLockTime minutes => SettingsScreen._updateAutoLockTime P self minutes
  | resetSettings => SettingsScreen._resetSettings P self
  | lifecycle paused => HomeScreen.didChangeAppLifecycleState paused
  | tick now => Program.modify (AuthService.clocked now)
  | dispose s => Program.modify (World.disposed s)

end ScreenAction

/-- The handlers of a screen are started while it is there; a State is disposed where `may` holds,
and every call may turn out as it likes. -/
def screenRuns (P : Platform) (may : World → Screen → Prop) : System (device P) where
  Action := ScreenAction
  program := ScreenAction.program P
  enabled w a := (∀ s, a.screen = some s → w.mounted s = true) ∧ ∀ s, a = .dispose s → may w s
  allow _ _ _ := True
  deliver _ _ _ := True
  crash _ _ := False

/-- No handler of the screen waits where a use of its State follows. -/
def Unexposed (w : World) (s : Screen) : Prop := ∀ m ∈ w.record.running, m.2 ≠ .exposed s

/-- No State has been used after it was disposed. -/
def Untouched (w : World) : Prop := w.record.touched = []

/-! ## What a thread relies on and promises -/

/-- A State stays as long as a handler exposes itself, and the marks of a thread are its own. -/
def disposing (P : Platform) (i : ℕ) : Discipline (device P) where
  allow _ _ _ := True
  deliver _ _ _ := True
  rely w w' := (∀ s, (i, .exposed s) ∈ w.record.running → w.mounted s = true → w'.mounted s = true) ∧
    (∀ t, (i, t) ∈ w'.record.running ↔ (i, t) ∈ w.record.running) ∧ (Untouched w → Untouched w')
  guarantee w w' := (∀ j s, j ≠ i → (j, .exposed s) ∈ w.record.running → w.mounted s = true →
      w'.mounted s = true) ∧
    (∀ j t, j ≠ i → ((j, t) ∈ w'.record.running ↔ (j, t) ∈ w.record.running)) ∧
    (Untouched w → Untouched w')

/-- The thread is in a stretch that exposes it, and its screen is there. -/
structure Relying (i : ℕ) (s : Screen) (w : World) : Prop where
  marked : (i, .exposed s) ∈ w.record.running
  mounted : w.mounted s = true
  untouched : Untouched w

/-- No State and no stretch of another thread notices the change. -/
structure Aloof (i : ℕ) (w w' : World) : Prop where
  mounted : ∀ s, w'.mounted s = w.mounted s
  touched : w'.record.touched = w.record.touched
  running : ∀ j t, j ≠ i ∨ (∃ s, t = .exposed s) →
    ((j, t) ∈ w'.record.running ↔ (j, t) ∈ w.record.running)

variable {i : ℕ} {s : Screen} {w w' : World}

theorem mounted_eq (h₁ : w'.lockScreen.mounted = w.lockScreen.mounted)
    (h₂ : w'.homeScreen.mounted = w.homeScreen.mounted)
    (h₃ : w'.settingsScreen.mounted = w.settingsScreen.mounted) (s : Screen) :
    w'.mounted s = w.mounted s := by
  cases s with
  | lock => exact h₁
  | home => exact h₂
  | settings => exact h₃

theorem Aloof.of_running (h₁ : w'.lockScreen.mounted = w.lockScreen.mounted)
    (h₂ : w'.homeScreen.mounted = w.homeScreen.mounted)
    (h₃ : w'.settingsScreen.mounted = w.settingsScreen.mounted)
    (ht : w'.record.touched = w.record.touched) (hr : w'.record.running = w.record.running) :
    Aloof i w w' := by
  refine ⟨mounted_eq h₁ h₂ h₃, ht, fun j t _ => ?_⟩
  rw [hr]

theorem aloof_exec (w : World) (op : Op) (o : Outcome op) : Aloof i w (w.exec P op o).2 := by
  have h := World.outside_exec P w op o
  exact .of_running (congrArg _ h.lockScreen) (congrArg _ h.homeScreen) (congrArg _ h.settingsScreen)
    h.touched h.running

/-- A mark that exposes nothing. -/
theorem aloof_entered {t : Stretch} (ht : ∀ s, t ≠ .exposed s) :
    Aloof i w (World.entered (i, t) w) := by
  refine ⟨mounted_eq rfl rfl rfl, rfl, fun j u hu => List.mem_cons.trans (or_iff_right ?_)⟩
  rintro ⟨⟩
  rcases hu with hj | ⟨s, hs⟩
  · exact hj rfl
  · exact ht s hs

theorem aloof_left {t : Stretch} (ht : ∀ s, t ≠ .exposed s) :
    Aloof i w (World.left (i, t) w) := by
  refine ⟨mounted_eq rfl rfl rfl, rfl, fun j u hu => HomeScreen.mem_left ?_⟩
  rintro ⟨⟩
  rcases hu with hj | ⟨s, hs⟩
  · exact hj rfl
  · exact ht s hs

theorem Aloof.trans {w'' : World} (h : Aloof i w w') (h' : Aloof i w' w'') : Aloof i w w'' :=
  ⟨fun s => (h'.mounted s).trans (h.mounted s), h'.touched.trans h.touched,
    fun j t hj => (h'.running j t hj).trans (h.running j t hj)⟩

theorem Aloof.guarantee (h : Aloof i w w') : (disposing P i).guarantee w w' :=
  ⟨fun _ s _ _ hm => (h.mounted s).trans hm, fun j t hj => h.running j t (.inl hj),
    fun ht => h.touched.trans ht⟩

theorem Relying.aloof (he : Relying i s w) (h : Aloof i w w') : Relying i s w' :=
  ⟨(h.running i _ (.inr ⟨s, rfl⟩)).mpr he.marked, (h.mounted s).trans he.mounted,
    h.touched.trans he.untouched⟩

theorem Relying.rely (he : Relying i s w) (h : (disposing P i).rely w w') : Relying i s w' :=
  ⟨(h.2.1 _).mpr he.marked, h.1 s he.marked he.mounted, h.2.2 he.untouched⟩

/-! ## Stretches that are exposed -/

section Stretches

variable {α : Type}

/-- What a program does that no State notices. -/
theorem keeps_relying {p : App α} (hp : p.Within (fun _ => True) (Aloof i)) :
    p.Keeps (disposing P i) (Relying i s) := by
  refine Within.keeps hp (fun w w' he hr => he.rely hr) ?_ ?_
  · exact fun w w' he h => ⟨h.guarantee, he.aloof h⟩
  · intro op _ w o he _
    have h := aloof_exec (P := P) (i := i) w op o
    exact ⟨h.guarantee, he.aloof h⟩

theorem keeps_untouched {p : App α} (hp : p.Within (fun _ => True) (Aloof i)) :
    p.Keeps (disposing P i) Untouched := by
  refine Within.keeps hp (fun w w' ht hr => hr.2.2 ht) ?_ ?_
  · exact fun w w' ht h => ⟨h.guarantee, h.touched.trans ht⟩
  · intro op _ w o ht _
    have h := aloof_exec (P := P) (i := i) w op o
    exact ⟨h.guarantee, h.touched.trans ht⟩

/-- The State may be used in a stretch that is exposed. -/
theorem keeps_use : (use s).Keeps (disposing P i) (Relying i s) :=
  fun _ he => (wp_use he.mounted).mpr he

theorem keeps_setState {f : World → World} (hf : ∀ w, Aloof i w (f w)) : Program.Keeps
    (disposing P i) (Relying i s) (do
      use s
      Program.modify f) :=
  Keeps.bind keeps_use fun _ => keeps_relying (Within.modify.mpr hf)

theorem left_guarantee {t : Stretch} :
    (disposing P i).guarantee w (World.left (i, t) w) :=
  ⟨fun _ u _ _ hu => (mounted_eq rfl rfl rfl u).trans hu,
    fun _ _ hj => HomeScreen.mem_left fun he => hj (congrArg Prod.fst he), id⟩

/-- From a screen that is there into the stretch and out of it again. -/
theorem exposing_wp {p : App α} {Q : Except DartError α → World → Prop}
    (hm : w.mounted s = true) (ht : Untouched w)
    (hp : ∀ w, Relying i s w →
      p.wp (disposing P i) (fun r w' => Q r (World.left (i, .exposed s) w')) w) :
    (exposing i s p).wp (disposing P i) Q w := by
  unfold exposing
  rw [wp_bind, wp_modify]
  refine ⟨⟨fun j u _ _ hu => (mounted_eq rfl rfl rfl u).trans hu, fun j t hj => ?_, id⟩, ?_⟩
  · exact List.mem_cons.trans (or_iff_right fun he => hj (congrArg Prod.fst he))
  dsimp only
  rw [wp_tryFinally]
  refine wp_mono p ?_ (hp _ ⟨List.mem_cons_self, (mounted_eq rfl rfl rfl s).trans hm, ht⟩)
  intro r w₁ hQ
  exact ⟨left_guarantee, hQ⟩

/-- A stretch that keeps its State in sight to its end. -/
theorem exposing_keeps {p : App α} (hp : p.Keeps (disposing P i) (Relying i s))
    (hm : w.mounted s = true) (ht : Untouched w) :
    (exposing i s p).wp (disposing P i) (fun _ w' => w'.mounted s = true ∧ Untouched w') w := by
  refine exposing_wp hm ht fun w₁ he => wp_mono p ?_ (hp w₁ he)
  exact fun _ w₂ he₂ => ⟨(mounted_eq rfl rfl rfl s).trans he₂.mounted, he₂.untouched⟩

end Stretches

/-! ## The lock screen -/

namespace LockScreen

theorem aloof_shown {f : LockScreenState → LockScreenState} (hf : ∀ s, (f s).mounted = s.mounted) :
    Aloof i w (shown f w) := .of_running (hf _) rfl rfl rfl rfl

theorem whenMounted_wp {f : World → World} (hf : ∀ w, Aloof i w (f w)) (ht : Untouched w)
    {Q : Except DartError Unit → World → Prop} (hQ : ∀ w', Untouched w' → Q (.ok ()) w') :
    (whenMounted f).wp (disposing P i) Q w := by
  unfold whenMounted
  rw [wp_modify]
  split
  · exact ⟨(hf w).guarantee, hQ _ ((hf w).touched.trans ht)⟩
  · exact ⟨Aloof.guarantee (.of_running rfl rfl rfl rfl rfl), hQ w ht⟩

/-- The session is opened while the screen is exposed; the delay is followed by a look. -/
theorem unlockBody_wp (hm : w.mounted .lock = true) (ht : Untouched w) :
    (unlockBody P i).wp (disposing P i)
      (fun r w' => Untouched w' ∧ ∀ e, r = .error e → w'.mounted .lock = true) w := by
  -- up to the answer of `unlock` the screen may not be disposed of
  have hopen : Program.Keeps (disposing P i) (Relying i .lock) (do
      awaited (LockManager.init P)
      awaited (LockManager.unlock P)) := by
    refine Keeps.bind (keeps_relying ?_) fun _ => keeps_relying ?_
    · refine within_awaited (within_awaited (AuthService.within_init trivial trivial
        (fun _ => trivial) fun w n => ?_) trivial) trivial
      exact .of_running rfl rfl rfl rfl rfl
    · refine HomeScreen.within_unlock ?_ ?_ ?_
      · rintro w _ ⟨n, u, rfl⟩
        exact .of_running rfl rfl rfl rfl rfl
      · exact fun w b => .of_running rfl rfl rfl rfl rfl
      · exact fun w => .of_running rfl rfl rfl rfl rfl
  unfold unlockBody
  rw [wp_bind]
  refine wp_mono _ ?_ (exposing_keeps hopen hm ht)
  rintro (e | ok) w₁ ⟨hm₁, ht₁⟩
  · exact ⟨ht₁, fun _ _ => hm₁⟩
  dsimp only
  rw [wp_bind, wp_get]
  dsimp only
  split
  · -- nothing throws once the delay has begun
    rw [wp_bind, wp_call]
    intro w₂ h₂ o _
    have hdelay := aloof_exec (P := P) (i := i) w₂ (.delayed 300) o
    refine ⟨hdelay.guarantee, fun w₃ h₃ _ => ?_⟩
    have ht₃ : Untouched w₃ := h₃.2.2 (hdelay.touched.trans (h₂.2.2 ht₁))
    change (whenMounted pushHome).wp (disposing P i)
      (fun r w' => Untouched w' ∧ ∀ e, r = .error e → w'.mounted .lock = true) w₃
    refine whenMounted_wp (fun w => ?_) ht₃ fun w₄ ht₄ => ⟨ht₄, nofun⟩
    exact .of_running rfl rfl rfl rfl rfl
  · unfold shake
    rw [wp_bind, wp_use hm₁]
    dsimp only
    refine whenMounted_wp (fun w => ?_) ht₁ fun w₂ ht₂ => ⟨ht₂, nofun⟩
    exact aloof_shown fun _ => rfl

theorem unlock_wp (hm : w.mounted .lock = true) (ht : Untouched w) :
    (_unlock P i).wp (disposing P i) (fun _ _ => True) w := by
  unfold _unlock
  rw [wp_bind, wp_get]
  dsimp only
  split
  · trivial
  unfold setState
  rw [wp_bind, wp_bind, wp_use hm]
  dsimp only
  have hbusy : Aloof i w (shown (fun s => { s with _busy := true, _error := none }) w) :=
    aloof_shown fun _ => rfl
  rw [wp_modify]
  refine ⟨hbusy.guarantee, ?_⟩
  -- `finally` looks at `mounted` before it clears `_busy`
  have hend (w : World) (ht : Untouched w) :
      (whenMounted (shown fun s => { s with _busy := false })).wp (disposing P i)
        (fun _ _ => True) w := by
    refine whenMounted_wp (fun w => ?_) ht fun _ _ => trivial
    exact aloof_shown fun _ => rfl
  dsimp only
  rw [wp_tryFinally, wp_tryCatch]
  refine wp_mono _ ?_ (unlockBody_wp ((hbusy.mounted .lock).trans hm) (hbusy.touched.trans ht))
  rintro (e | u) w₁ ⟨ht₁, hm₁⟩
  · -- the screen is shaken before the look at `mounted`
    unfold shake
    dsimp only
    rw [wp_bind, wp_use (hm₁ e rfl)]
    dsimp only
    refine whenMounted_wp (fun w => ?_) ht₁ fun w₂ ht₂ => ?_
    · exact aloof_shown fun _ => rfl
    · exact wp_mono _ (fun r _ _ => by cases r <;> trivial) (hend w₂ ht₂)
  · exact wp_mono _ (fun r _ _ => by cases r <;> trivial) (hend w₁ ht₁)

end LockScreen

/-! ## The settings screen -/

namespace SettingsScreen

theorem keeps_shown {f : SettingsScreenState → SettingsScreenState}
    (hf : ∀ s, (f s).mounted = s.mounted) :
    (setState f).Keeps (disposing P i) (Relying i .settings) :=
  keeps_setState fun _ => .of_running rfl rfl (hf _) rfl rfl

theorem keeps_showSnackBar (message : String) :
    (_showSnackBar message).Keeps (disposing P i) (Relying i .settings) := keeps_use

theorem keeps_getter {α : Type} (f : World → Except DartError α) :
    (getter f).Keeps (disposing P i) (Relying i .settings) := fun w he => by
  unfold getter
  rw [wp_read, wp_done]
  exact he

/-- The settings are preferences, which no State notices. -/
theorem keeps_service {p : App Unit} {A : Op → Prop} {G : World → World → Prop} (hp : p.Within A G)
    (hG : ∀ w w', G w w' → Aloof i w w') :
    (awaited p).Keeps (disposing P i) (Relying i .settings) :=
  keeps_relying (within_awaited (Within.mono (fun _ _ => trivial) hG hp) trivial)

theorem keeps_setValue (key : Text) (value : Preference) :
    (awaited (SettingsService.setValue P key value)).Keeps (disposing P i)
      (Relying i .settings) := by
  refine keeps_service (SettingsService.within_setValue fun w => ?_) fun _ _ => id
  exact .of_running rfl rfl rfl rfl rfl

theorem keeps_resetSettings : (awaited (SettingsService.resetSettings P)).Keeps (disposing P i)
    (Relying i .settings) := by
  have hremove (key : Text) :
      (SettingsService.removeValue P key).Within (fun _ => True) (Aloof i) := by
    refine Within.mono (fun _ _ => trivial) (fun _ _ => id)
      (SettingsService.within_removeValue fun w => ?_)
    exact .of_running rfl rfl rfl rfl rfl
  exact keeps_service (Within.bind (hremove _) fun _ => Within.bind (hremove _) fun _ => hremove _)
    fun _ _ => id

variable (hm : w.mounted .settings = true) (ht : Untouched w)
include hm ht

theorem loadSettings_wp : (_loadSettings i).wp (disposing P i)
    (fun _ w' => w'.mounted .settings = true ∧ Untouched w') w := by
  refine exposing_keeps (Keeps.bind (keeps_service (SettingsService.within_init fun w => ?_)
    fun _ _ => id) fun _ => ?_) hm ht
  · exact .of_running rfl rfl rfl rfl rfl
  · refine Keeps.bind (keeps_getter _) fun screenProtection => ?_
    refine Keeps.bind (keeps_getter _) fun biometricAuth => ?_
    exact Keeps.bind (keeps_getter _) fun autoLock => keeps_shown fun _ => rfl

/-- A setting is stored and then shown, and a message tells the outcome. -/
theorem updateScreenProtection_wp (value : Bool) : (_updateScreenProtection P i value).wp
    (disposing P i) (fun _ w' => w'.mounted .settings = true ∧ Untouched w') w := by
  refine exposing_keeps (Keeps.tryCatch ?_ fun _ => keeps_showSnackBar _) hm ht
  refine Keeps.bind (keeps_setValue _ _) fun _ => Keeps.bind (keeps_getter _) fun _ => ?_
  refine Keeps.bind (keeps_shown fun _ => rfl) fun _ => ?_
  exact Keeps.bind (keeps_relying (within_call.mpr trivial)) fun _ => keeps_showSnackBar _

theorem updateBiometricAuth_wp (value : Bool) : (_updateBiometricAuth P i value).wp
    (disposing P i) (fun _ w' => w'.mounted .settings = true ∧ Untouched w') w := by
  refine exposing_keeps (Keeps.tryCatch ?_ fun _ => keeps_showSnackBar _) hm ht
  refine Keeps.bind (keeps_setValue _ _) fun _ => Keeps.bind (keeps_getter _) fun _ => ?_
  exact Keeps.bind (keeps_shown fun _ => rfl) fun _ => keeps_showSnackBar _

theorem updateAutoLockTime_wp (minutes : ℤ) : (_updateAutoLockTime P i minutes).wp
    (disposing P i) (fun _ w' => w'.mounted .settings = true ∧ Untouched w') w := by
  refine exposing_keeps (Keeps.bind (keeps_shown fun _ => rfl) fun _ => ?_) hm ht
  exact Keeps.bind (keeps_setValue _ _) fun _ => keeps_showSnackBar _

/-- The message and the reload follow the reset at once. -/
theorem resetSettings_wp : (_resetSettings P i).wp (disposing P i) (fun _ _ => True) w := by
  have hreset : Program.Keeps (disposing P i) (Relying i .settings) (do
      let confirmed : Option Bool ← call (.showDialog resetQuestion)
      when (confirmed = some true) (awaited (SettingsService.resetSettings P))
      return confirmed) := by
    refine Keeps.bind (keeps_relying (within_call.mpr trivial)) fun confirmed => ?_
    refine Keeps.bind (fun w he => wp_when.mpr ⟨fun _ => ?_, fun _ => he⟩) fun _ => Keeps.ret _
    exact keeps_resetSettings w he
  unfold _resetSettings
  rw [wp_bind]
  refine wp_mono _ ?_ (exposing_keeps hreset hm ht)
  rintro (e | confirmed) w₁ ⟨hm₁, ht₁⟩
  · trivial
  refine wp_when.mpr ⟨fun _ => ?_, fun _ => trivial⟩
  unfold _showSnackBar
  rw [wp_tryFinally, wp_use hm₁]
  exact wp_mono _ (fun r _ _ => by cases r <;> trivial) (loadSettings_wp hm₁ ht₁)

end SettingsScreen

/-! ## The home screen -/

namespace HomeScreen

variable {α : Type}

theorem within_modify {f : World → World} (hf : ∀ w, Aloof i w (f w)) :
    (Program.modify f : App Unit).Within (fun _ => True) (Aloof i) := Within.modify.mpr hf

theorem within_observed (c : HomeCall) (verdict : α → Bool) {p : App α}
    (hp : p.Within (fun _ => True) (Aloof i)) :
    (observed c verdict p).Within (fun _ => True) (Aloof i) := by
  refine Within.handle hp fun r => Within.bind (within_modify fun w => ?_) fun _ => Within.done r
  exact .of_running rfl rfl rfl rfl rfl

theorem aloof_draws (h : Draws w w') : Aloof i w w' := by
  obtain ⟨n, u, rfl⟩ := h
  exact .of_running rfl rfl rfl rfl rfl

theorem within_unlocking : (awaited (LockManager.unlock P)).Within (fun _ => True) (Aloof i) :=
  within_unlock (fun _ _ => aloof_draws) (fun _ _ => .of_running rfl rfl rfl rfl rfl)
    fun _ => .of_running rfl rfl rfl rfl rfl

theorem aloof_mounted {f : World → World} (hf : Aloof i w (f w)) :
    Aloof i w (if w.homeScreen.mounted then f w else w) := by
  split
  · exact hf
  · exact .of_running rfl rfl rfl rfl rfl

/-- A load looks at `mounted` whenever it changes what is shown. -/
theorem within_load (force : Bool) : (_load P i force).Within (fun _ => True) (Aloof i) := by
  refine Within.bind (Within.get _) fun busy => ?_
  split
  · trivial
  have hshown {f : HomeScreenState → HomeScreenState} (hf : ∀ s, (f s).mounted = s.mounted) :
      (whenMounted (shown f)).Within (fun _ => True) (Aloof i) :=
    within_modify fun w => aloof_mounted (.of_running rfl (hf _) rfl rfl rfl)
  refine Within.bind (within_modify fun w => aloof_mounted ?_) fun _ => ?_
  · have htaken : Aloof i w (taken w) := .of_running rfl rfl rfl rfl rfl
    exact htaken.trans (aloof_entered nofun)
  · refine Within.tryFinally (Within.tryCatch (Within.bind (within_observed _ _ within_listAll)
      fun all => hshown fun _ => rfl) fun e => hshown fun _ => rfl) (within_modify fun w => ?_)
    have hgiven : Aloof i w (given w) := .of_running rfl rfl rfl rfl rfl
    exact (aloof_mounted hgiven).trans (aloof_left nofun)

theorem within_finalKek : (finalKek P).Within (fun _ => True) (Aloof i) := by
  refine Within.bind (Within.get _) fun kek => ?_
  refine Within.bind (within_when (Within.bind (within_observed _ _ within_unlocking)
    fun reauth => ?_)) fun _ => Within.bind (Within.get _) fun finalKek => ?_
  · split
    · exact Within.bind (Within.get _) fun kekRetry => within_when trivial
    · trivial
  · cases finalKek <;> trivial

theorem within_calling (name : String) :
    (calling name).Within (fun _ => True) (Aloof i) :=
  within_modify fun _ => .of_running rfl rfl rfl rfl rfl

theorem within_importEach (kek : Ref) (files : List (Option Text)) :
    (importEach P kek files).Within (fun _ => True) (Aloof i) := by
  induction files with
  | nil => trivial
  | cons f files ih =>
    refine Within.bind ?_ fun _ => ih
    cases f with
    | none => trivial
    | some path =>
      refine Within.bind (within_observed _ _ (within_call.mpr trivial)) fun there => ?_
      refine within_when (Within.bind (within_calling _) fun _ => ?_)
      refine Within.bind (within_observed _ _ (within_importFile ?_ _ _ _ _)) fun _ => trivial
      exact fun _ _ => aloof_draws

theorem within_importAll (files : List (Option Text)) :
    (importAll P i files).Within (fun _ => True) (Aloof i) := by
  have hload : (awaited (_load P i true)).Within (fun _ => True) (Aloof i) :=
    within_awaited (within_load true) trivial
  refine Within.bind within_finalKek fun kek => ?_
  refine Within.bind (within_modify fun _ => aloof_entered nofun) fun _ => ?_
  refine Within.bind (Within.tryFinally (within_importEach _ _)
    (within_modify fun _ => aloof_left nofun)) fun _ => ?_
  exact Within.bind hload fun _ => Within.bind (within_call.mpr trivial) fun _ => hload

theorem within_exportOne (entry : VaultFileMeta) :
    (exportOne P entry).Within (fun _ => True) (Aloof i) := by
  refine Within.bind (Within.get _) fun kek => ?_
  cases kek with
  | none => trivial
  | some kek =>
    refine Within.bind (within_calling _) fun _ => ?_
    refine Within.bind (within_observed _ _ (within_exportClear _ _)) fun bytes => ?_
    refine Within.bind (within_when trivial) fun _ => ?_
    exact within_observed _ _ (within_call.mpr trivial)

theorem within_deleteOne (entry : VaultFileMeta) :
    (deleteOne P i entry).Within (fun _ => True) (Aloof i) := by
  refine Within.bind (within_calling _) fun _ => ?_
  refine Within.bind (within_observed _ _ (within_deleteById _)) fun _ => ?_
  exact within_awaited (within_load false) trivial

/-- The State is used when the section begins; from there on a handler looks at `mounted`. -/
theorem guarded_wp (what : Text) {body : App Unit}
    (hbody : body.Within (fun _ => True) (Aloof i)) (he : Relying i .home w) :
    (guarded i what body).wp (disposing P i) (fun _ w' => Untouched w') w := by
  have hentered : Aloof i w (World.entered (i, .handler) (taken w)) := by
    have htaken : Aloof i w (taken w) := .of_running rfl rfl rfl rfl rfl
    exact htaken.trans (aloof_entered nofun)
  have hsection : (Program.tryFinally (body.tryCatch fun e => whenMounted (failed what e))
      (Program.modify fun w => World.left (i, .handler)
        (if w.homeScreen.mounted then given w else w))).Within (fun _ => True) (Aloof i) := by
    refine Within.tryFinally (Within.tryCatch hbody fun e => within_modify fun w =>
      aloof_mounted (.of_running rfl rfl rfl rfl rfl)) (within_modify fun w => ?_)
    have hgiven : Aloof i w (given w) := .of_running rfl rfl rfl rfl rfl
    exact (aloof_mounted hgiven).trans (aloof_left nofun)
  unfold guarded setState
  rw [wp_bind, wp_bind, wp_use he.mounted]
  dsimp only
  rw [wp_modify]
  refine ⟨hentered.guarantee, ?_⟩
  dsimp only [Function.comp]
  rw [wp_bind, wp_modify]
  refine ⟨left_guarantee, ?_⟩
  exact keeps_untouched hsection _ (he.aloof hentered).untouched

theorem keeps_gate : (gate P).Keeps (disposing P i) (Relying i .home) := by
  refine keeps_relying (Within.bind (Within.get _) fun unlocked => ?_)
  split
  · exact within_observed _ _ within_unlocking
  · trivial

/-- A handler that gives up, or comes to its section, before its State goes. -/
theorem import_wp (he : Relying i .home w) :
    (_import P i).wp (disposing P i) (fun _ w' => Untouched w') w := by
  unfold _import
  rw [wp_bind, wp_get]
  dsimp only
  split
  · exact he.untouched
  rw [wp_bind]
  refine wp_mono _ ?_ (keeps_gate w he)
  rintro (e | ok) w₁ he₁
  · exact he₁.untouched
  dsimp only
  split
  · exact he₁.untouched
  rw [wp_bind]
  refine wp_mono _ ?_ (keeps_relying (within_observed _ _ (within_call.mpr trivial)) w₁ he₁)
  rintro (e | - | - | ⟨f, files⟩) w₂ he₂
  · exact he₂.untouched
  · exact he₂.untouched
  · exact he₂.untouched
  · exact guarded_wp _ (within_importAll _) he₂

theorem export_wp (entry : VaultFileMeta) (he : Relying i .home w) :
    (_export P i entry).wp (disposing P i) (fun _ w' => Untouched w') w := by
  unfold _export
  rw [wp_bind, wp_get]
  dsimp only
  split
  · exact he.untouched
  rw [wp_bind]
  refine wp_mono _ ?_ (keeps_gate w he)
  rintro (e | ok) w₁ he₁
  · exact he₁.untouched
  dsimp only
  split
  · exact he₁.untouched
  · exact guarded_wp _ (within_exportOne _) he₁

theorem delete_wp (entry : VaultFileMeta) (he : Relying i .home w) :
    (_delete P i entry).wp (disposing P i) (fun _ w' => Untouched w') w := by
  unfold _delete
  rw [wp_bind, wp_get]
  dsimp only
  split
  · exact he.untouched
  rw [wp_bind]
  refine wp_mono _ ?_ (keeps_relying (within_observed _ _ (within_call.mpr trivial)) w he)
  rintro (e | ok) w₁ he₁
  · exact he₁.untouched
  dsimp only
  split
  · exact guarded_wp _ (within_deleteOne _) he₁
  · exact he₁.untouched

/-- The sheet of backgrounds refreshes the screen without a look at `mounted`. -/
theorem keeps_selectBackground :
    (onSelectBackground P).Keeps (disposing P i) (Relying i .home) := by
  have hselect : (BackgroundService.selectBackground P).Within (fun _ => True) (Aloof i) :=
    BackgroundService.within_selectBackground (fun _ _ => trivial)
      fun _ _ => .of_running rfl rfl rfl rfl rfl
  refine Keeps.bind (keeps_relying (within_awaited hselect trivial)) fun _ => ?_
  exact keeps_setState fun _ => .of_running rfl rfl rfl rfl rfl

theorem keeps_clearBackground : onClearBackground.Keeps (disposing P i) (Relying i .home) := by
  have hclear : BackgroundService.clearBackground.Within (fun _ => True) (Aloof i) :=
    BackgroundService.within_clearBackground (fun _ _ => trivial)
      fun _ => .of_running rfl rfl rfl rfl rfl
  refine Keeps.bind (keeps_relying (within_awaited hclear trivial)) fun _ => ?_
  exact keeps_setState fun _ => .of_running rfl rfl rfl rfl rfl

end HomeScreen

/-! ## Runs -/

/-- A State that is unexposed can be disposed. -/
theorem disposed_guarantee (h : Unexposed w s) :
    (disposing P i).guarantee w (World.disposed s w) := by
  have hrecord : (World.disposed s w).record = w.record := by cases s <;> rfl
  have hother {t : Screen} (ht : t ≠ s) : (World.disposed s w).mounted t = w.mounted t := by
    cases s <;> cases t <;> first | rfl | exact absurd rfl ht
  refine ⟨fun j t _ hm hmounted => ?_, fun j t _ => by rw [hrecord], fun ht => ?_⟩
  · have hne : t ≠ s := by
      rintro rfl
      exact h _ hm rfl
    exact (hother hne).trans hmounted
  · exact (congrArg _ hrecord).trans ht

/-- Every handler meets its promise from a screen that is there. -/
theorem program_wp {a : ScreenAction} (ht : Untouched w)
    (ha : (screenRuns P Unexposed).enabled w a) :
    (a.program P i).wp (disposing P i) (fun _ _ => True) w := by
  obtain ⟨hscreen, hdispose⟩ := ha
  have hhome {p : App Unit} (hm : w.mounted .home = true) (hp : ∀ w, Relying i .home w →
      p.wp (disposing P i) (fun _ w' => Untouched w') w) :
      (exposing i .home p).wp (disposing P i) (fun _ _ => True) w :=
    exposing_wp hm ht fun w₁ he => wp_mono p (fun _ _ _ => trivial) (hp w₁ he)
  have hend {α : Type} {p : App α} {Q : Except DartError α → World → Prop}
      (hp : p.wp (disposing P i) Q w) : p.wp (disposing P i) (fun _ _ => True) w :=
    wp_mono p (fun _ _ _ => trivial) hp
  have hkept {p : App Unit} (hp : p.Keeps (disposing P i) (Relying i .home)) (w : World)
      (he : Relying i .home w) : p.wp (disposing P i) (fun _ w' => Untouched w') w :=
    wp_mono p (fun _ _ he' => he'.untouched) (hp w he)
  cases a with
  | unlock => exact LockScreen.unlock_wp (hscreen _ rfl) ht
  | load => exact hend (keeps_untouched (HomeScreen.within_load false) w ht)
  | tapImport => exact hhome (hscreen _ rfl) fun w₁ => HomeScreen.import_wp
  | tapExport entry => exact hhome (hscreen _ rfl) fun w₁ => HomeScreen.export_wp entry
  | tapDelete entry => exact hhome (hscreen _ rfl) fun w₁ => HomeScreen.delete_wp entry
  | selectBackground =>
    exact hhome (hscreen _ rfl) (hkept HomeScreen.keeps_selectBackground)
  | clearBackground => exact hhome (hscreen _ rfl) (hkept HomeScreen.keeps_clearBackground)
  | loadSettings => exact hend (SettingsScreen.loadSettings_wp (hscreen _ rfl) ht)
  | updateScreenProtection value =>
    exact hend (SettingsScreen.updateScreenProtection_wp (hscreen _ rfl) ht value)
  | updateBiometricAuth value =>
    exact hend (SettingsScreen.updateBiometricAuth_wp (hscreen _ rfl) ht value)
  | updateAutoLockTime minutes =>
    exact hend (SettingsScreen.updateAutoLockTime_wp (hscreen _ rfl) ht minutes)
  | resetSettings => exact SettingsScreen.resetSettings_wp (hscreen _ rfl) ht
  | lifecycle paused =>
    refine wp_when.mpr ⟨fun _ => ⟨Aloof.guarantee ?_, trivial⟩, fun _ => trivial⟩
    exact .of_running rfl rfl rfl rfl rfl
  | tick now => exact ⟨Aloof.guarantee (.of_running rfl rfl rfl rfl rfl), trivial⟩
  | dispose s => exact ⟨disposed_guarantee (hdispose s rfl), trivial⟩

theorem sound_screens :
    (screenRuns P Unexposed).Sound (fun i _ => disposing P i) Untouched where
  allow _ _ _ _ _ _ _ := trivial
  deliver _ _ _ _ _ _ _ := trivial
  rely_refl _ _ _ _ := ⟨fun _ _ => id, fun _ => Iff.rfl, id⟩
  rely_trans _ _ _ _ _ h h' := ⟨fun s hs hm => h'.1 s ((h.2.1 _).mpr hs) (h.1 s hs hm),
    fun t => (h'.2.1 t).trans (h.2.1 t), h'.2.2 ∘ h.2.2⟩
  compat _ _ _ _ _ _ hij _ hg :=
    ⟨fun s hs => hg.1 _ s (Ne.symm hij) hs, fun t => hg.2.1 _ t (Ne.symm hij), hg.2.2⟩
  inv _ _ _ _ h hg := hg.2.2 h
  start _ _ _ h ha := program_wp h ha
  crash _ _ _ h := h.elim

/-- **No State is used after it has been disposed**, as long as none is disposed while a handler of
its screen waits where a use of the State follows. -/
theorem screens_untouched {w₀ : World} (h₀ : w₀.record.touched = [])
    {c : (screenRuns P Unexposed).Config} (hc : System.Reachable _ w₀ c) :
    c.world.record.touched = [] := sound_screens.invariant h₀ hc

/-! ## A settings screen that is left too early -/

/-- The settings have been loaded and are shown. -/
def World.configuring : World :=
  { World.home with
    preferences := some fun _ => none
    _prefs := true
    route := .settings
    settingsScreen := ⟨true, true, true, 5, false⟩ }

/-- A setting is being stored. -/
def storing : (screenRuns (.sample .marked) fun _ _ => True).Config :=
  (System.Config.idle World.configuring).update 0 (ScreenAction.updateBiometricAuth false)
    (settle (SettingsScreen._updateBiometricAuth (.sample .marked) 0 false) .configuring)

theorem reachable_storing : System.Reachable _ World.configuring storing := by
  refine .single (.start (S := screenRuns (.sample .marked) fun _ _ => True) 0
    (ScreenAction.updateBiometricAuth false) rfl ⟨?_, ?_⟩)
  · rintro s ⟨⟩
    rfl
  · rintro s ⟨⟩

/-- The screen is left meanwhile. -/
def leaving : (screenRuns (.sample .marked) fun _ _ => True).Config :=
  storing.update 1 (ScreenAction.dispose .settings)
    (settle (Program.modify (World.disposed .settings)) storing.world)

theorem reachable_leaving : System.Reachable _ World.configuring leaving := by
  refine .tail reachable_storing (.start (S := screenRuns (.sample .marked) fun _ _ => True) 1
    (ScreenAction.dispose .settings) rfl ⟨?_, fun _ _ => trivial⟩)
  rintro s ⟨⟩

/-- The setting has been stored, and the screen that is gone is to show it and to tell it. -/
theorem updateBiometricAuth_touches : ∃ c : (screenRuns (.sample .marked) fun _ _ => True).Config,
    System.Reachable _ World.configuring c ∧ World.configuring.record.touched = [] ∧
      c.world.record.touched = [.settings, .settings] := by
  refine ⟨System.advance _ usual 0 2 leaving, reachable_leaving.trans
    (System.steps_advance (fun _ _ => trivial) (fun _ _ _ => trivial) 0 2 _), rfl, ?_⟩
  decide +kernel

/-! ## A lock screen that is left in time -/

/-- The lock screen has just appeared on a device without a key. -/
def World.locking : World := { World.sample [] [] with lockScreen := ⟨true, false, none⟩ }

/-- The session has been opened, and the handler waits before it leads to the home screen. -/
def delaying : (screenRuns (.sample .marked) Unexposed).Config :=
  System.advance _ usual 0 14 ((System.Config.idle World.locking).update 0 ScreenAction.unlock
    (settle (LockScreen._unlock (.sample .marked) 0) World.locking))

/-- The screen is left meanwhile, and the handler goes on. -/
def departing : (screenRuns (.sample .marked) Unexposed).Config :=
  System.advance _ usual 0 1 (delaying.update 1 (ScreenAction.dispose .lock)
    (settle (Program.modify (World.disposed .lock)) delaying.world))

theorem reachable_delaying : System.Reachable _ World.locking delaying := by
  refine .head (.start (S := screenRuns (.sample .marked) Unexposed) 0 ScreenAction.unlock rfl
    ⟨?_, ?_⟩) (System.steps_advance (fun _ _ => trivial) (fun _ _ _ => trivial) 0 14 _)
  · rintro s ⟨⟩
    rfl
  · rintro s ⟨⟩

theorem reachable_departing : System.Reachable _ World.locking departing := by
  have hunexposed : ∀ m ∈ delaying.world.record.running, m.2 ≠ .exposed .lock := by
    decide +kernel
  refine (reachable_delaying.tail (.start (S := screenRuns (.sample .marked) Unexposed) 1
    (ScreenAction.dispose .lock) rfl ⟨?_, ?_⟩)).trans
    (System.steps_advance (fun _ _ => trivial) (fun _ _ _ => trivial) 0 1 _)
  · rintro s ⟨⟩
  · rintro s ⟨⟩
    exact hunexposed

theorem screens_untouched_departing : delaying.world.lockScreen.mounted = true ∧
    departing.world.lockScreen.mounted = false ∧ departing.world.auth._kek.isSome = true ∧
    departing.world.record.touched = [] :=
  ⟨by decide +kernel, by decide +kernel, by decide +kernel,
    screens_untouched rfl reachable_departing⟩

end CajaSegura
