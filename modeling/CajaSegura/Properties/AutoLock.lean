import CajaSegura.Async.Pool
import CajaSegura.Main
import CajaSegura.Platform.Sample

/-!
# The auto-lock time

The time after which a session ends, and the time that the user has chosen in the settings, along
runs with restarts of the process.

## Main definitions

* `autoLock`: the runs
* `Lasting`: preferences with an auto-lock time of at least five minutes
* `Timed`: the session ends after five minutes, and no shorter time has been chosen

## Main results

* `kek_within_autoLockTime`: a key is handed out only within the chosen time, if no time under five
  minutes is ever chosen
-/

namespace CajaSegura

open Codec Async
open Program hiding bind
open SettingsService AuthService

variable {P : Platform}

/-! ## Runs -/

inductive AutoLockAction
  | main
  | authenticate (reason : Option Text)
  | extendSession
  | lock
  | setAutoLockTime (minutes : ℤ)
  | resetSettings
  | tick (now : Instant)

def AutoLockAction.program (P : Platform) : AutoLockAction → App Unit
  | .main => CajaSegura.main P
  | .authenticate reason => do let _ ← AuthService.authenticate P reason
  | .extendSession => AuthService.extendSession
  | .lock => AuthService.lock
  | .setAutoLockTime minutes => SettingsService.setAutoLockTime P minutes
  | .resetSettings => SettingsService.resetSettings P
  | .tick now => Program.modify fun w => { w with now := now }

/-- The runs in which only times in `may` are chosen. Calls turn out as they may, the clock does not
go back, and the process may die and start again. -/
def autoLock (P : Platform) (may : ℤ → Prop) : System (device P) where
  Action := AutoLockAction
  program _ a := a.program P
  enabled w
    | .setAutoLockTime minutes => may minutes
    | .tick now => w.now.micros ≤ now.micros
    | _ => True
  allow _ _ _ := True
  deliver _ _ _ := True
  crash w w' := w' = restarted w

/-! ## The invariant -/

/-- No auto-lock time is chosen, or one of at least five minutes. -/
def Lasting (p : Preferences) : Prop :=
  p _autoLockTimeKey = none ∨ ∃ n, 5 ≤ n ∧ p _autoLockTimeKey = some (.int n)

/-- The time stamp is the moment at which the session was last opened or extended, and the session
ends after five minutes, which are not more than the chosen time. -/
structure Timed (w : World) : Prop where
  stamp : ∀ t, w.auth._lastUnlock = some t → ∃ i l, w.record.opened = i :: l ∧ t = i.local
  timeout : w.auth.sessionTimeout = defaultTimeout
  cache : ∀ p, w.preferences = some p → Lasting p
  disk : Lasting w.disk

variable {w w' : World}

theorem Lasting.minutesOf {p : Preferences} (h : Lasting p) : ∃ n, 5 ≤ n ∧ minutesOf p = .ok n := by
  unfold SettingsService.minutesOf getInt
  rcases h with h | ⟨n, hn, h⟩
  · exact ⟨5, by decide, by rw [h]; rfl⟩
  · exact ⟨n, hn, by rw [h]; rfl⟩

theorem Lasting.update {p : Preferences} (h : Lasting p) (key : Text) {value : Option Preference}
    (hv : key = _autoLockTimeKey → value = none ∨ ∃ n, 5 ≤ n ∧ value = some (.int n)) :
    Lasting (Function.update p key value) := by
  unfold Lasting
  by_cases hk : _autoLockTimeKey = key
  · rw [hk, Function.update_self]
    exact hv hk.symm
  · rw [Function.update_of_ne hk]
    exact h

/-- Changes that concern neither the session nor the preferences. -/
theorem Timed.congr (h : Timed w) (hauth : w'.auth = w.auth)
    (hopened : w'.record.opened = w.record.opened) (hcache : w'.preferences = w.preferences)
    (hdisk : w'.disk = w.disk) : Timed w' := by
  refine ⟨?_, hauth ▸ h.timeout, ?_, hdisk ▸ h.disk⟩
  · rw [hauth, hopened]
    exact h.stamp
  · rw [hcache]
    exact h.cache

theorem Timed.quiet (h : Timed w) (hq : w.Quiet w') : Timed w' :=
  h.congr hq.auth hq.opened hq.preferences hq.disk

/-- A time stamp is the moment at which it is set. -/
theorem Timed.stamped (h : Timed w) : Timed (stamped w) :=
  ⟨fun _ ht => ⟨w.now, _, rfl, (Option.some.inj ht).symm⟩, h.timeout, h.cache, h.disk⟩

theorem Timed.extended (h : Timed w) : Timed (extended w) := by
  unfold AuthService.extended
  split
  · exact h.stamped
  · exact h

theorem Timed.locked (h : Timed w) : Timed (locked w) :=
  ⟨fun _ ht => (Option.some_ne_none _ ht.symm).elim, h.timeout, h.cache, h.disk⟩

theorem Timed.restarted (h : Timed w) : Timed (restarted w) :=
  ⟨fun _ ht => (Option.some_ne_none _ ht.symm).elim, rfl,
    fun _ hp => (Option.some_ne_none _ hp.symm).elim, h.disk⟩

/-! ## Steps -/

/-- What a step of the runs keeps. -/
def Times (w w' : World) : Prop := Timed w → Timed w'

theorem opens_times {D : Discipline (device P)} (hg : D.guarantee = Times) :
    Opens D (fun _ => True) (fun _ => True) fun _ => True where
  rely _ _ _ _ := ⟨trivial, fun _ => trivial⟩
  quiet w w' _ hq := by
    refine ⟨?_, trivial, fun _ => trivial⟩
    rw [hg]
    exact fun h => h.quiet hq
  missing _ _ _ _ _ _ _ _ _ := trivial
  store w b o _ _ _ _ := by
    rw [hg]
    refine ⟨fun h => ?_, trivial⟩
    cases o with
    | none => exact h.congr rfl rfl rfl rfl
    | some e => exact h.congr rfl rfl rfl rfl
  key w o s w' b _ _ _ _ _ _ _ := by
    rw [hg]
    refine ⟨fun h => ⟨h.stamp, h.timeout, h.cache, h.disk⟩, fun h => ?_, trivial⟩
    exact h.stamped.congr rfl rfl rfl rfl

theorem Timed.setPreference (h : Timed w) {key : Text} {value : Preference}
    (hv : key = _autoLockTimeKey → ∃ n, 5 ≤ n ∧ value = .int n)
    (o : Outcome (.setPreference key value)) : Timed (w.exec P (.setPreference key value) o).2 := by
  have hsame : Timed { w with record := { w.record with
      answers := ⟨.setPreference key value, o⟩ :: w.record.answers } } := h.congr rfl rfl rfl rfl
  rcases o with e | b
  · exact hsame
  · cases b with
    | false => exact hsame
    | true =>
      refine ⟨h.stamp, h.timeout, h.cache, h.disk.update key fun hk => .inr ?_⟩
      obtain ⟨n, hn, rfl⟩ := hv hk
      exact ⟨n, hn, rfl⟩

theorem Timed.removePreference (h : Timed w) {key : Text} (o : Outcome (.removePreference key)) :
    Timed (w.exec P (.removePreference key) o).2 := by
  have hsame : Timed { w with record := { w.record with
      answers := ⟨.removePreference key, o⟩ :: w.record.answers } } := h.congr rfl rfl rfl rfl
  rcases o with e | b
  · exact hsame
  · cases b with
    | false => exact hsame
    | true => exact ⟨h.stamp, h.timeout, h.cache, h.disk.update key fun _ => .inl rfl⟩

/-- The preferences are asked for. -/
theorem Timed.getPreferences (h : Timed w) (o : Outcome .getPreferences) :
    Timed (w.exec P .getPreferences o).2 := by
  cases o with
  | some e => exact h.congr rfl rfl rfl rfl
  | none =>
    refine ⟨h.stamp, h.timeout, fun p hp => ?_, h.disk⟩
    have hp' : w.preferences.getD w.disk = p := Option.some.inj hp
    rcases hpref : w.preferences with - | p'
    · rw [hpref] at hp'
      exact hp' ▸ h.disk
    · rw [hpref] at hp'
      exact hp' ▸ h.cache p' hpref

/-- The copy of the process is updated. -/
theorem Timed.cached (h : Timed w) {key : Text} {value : Option Preference}
    (hv : key = _autoLockTimeKey → value = none ∨ ∃ n, 5 ≤ n ∧ value = some (.int n)) :
    Timed (cached key value w) := by
  refine ⟨h.stamp, h.timeout, fun p hp => ?_, h.disk⟩
  obtain ⟨p', hp', rfl⟩ := Option.map_eq_some_iff.mp hp
  exact (h.cache p' hp').update key hv

theorem Timed.hop (h : Timed w) : Timed (w.exec P .hop ()).2 := h.quiet (World.quiet_hop w)

section

variable {D : Discipline (device P)} (hg : D.guarantee = Times)

include hg

theorem setAutoLockTime_safe {minutes : ℤ} (hm : 5 ≤ minutes) :
    (setAutoLockTime P minutes).Safe D := by
  refine Within.safe (within_setValue (G := Times) fun w h => ?_) (fun _ _ h => hg ▸ h) ?_
  · exact h.cached fun _ => .inr ⟨minutes, hm, rfl⟩
  · rintro op (rfl | rfl) w o -
    · exact hg ▸ fun h => h.hop
    · exact hg ▸ fun h => h.setPreference (fun _ => ⟨minutes, hm, rfl⟩) o

theorem resetSettings_safe : (resetSettings P).Safe D := by
  have hremove (key : Text) : (removeValue P key).Safe D := by
    refine Within.safe (within_removeValue (G := Times) fun w h => ?_) (fun _ _ h => hg ▸ h) ?_
    · exact h.cached fun _ => .inl rfl
    · rintro op (rfl | rfl) w o -
      · exact hg ▸ fun h => h.hop
      · exact hg ▸ fun h => h.removePreference o
  exact Safe.bind (hremove _) fun _ => Safe.bind (hremove _) fun _ => hremove _

theorem main_safe : (CajaSegura.main P).Safe D := by
  have hop : ¬ Op.Mutates .systemChrome := id
  have hchrome : (call .systemChrome).Safe D :=
    safe_call fun w o _ => hg ▸ fun h => h.quiet (World.quiet_exec w hop o)
  have hinit : SettingsService.init.Safe D := by
    have hthere : (Program.modify fun w : World => { w with _prefs := true } : App Unit).Safe D :=
      Safe.modify fun w => hg ▸ fun h => h.congr rfl rfl rfl rfl
    refine Safe.bind (Safe.get _) fun there => safe_when ?_
    exact Safe.bind (safe_call fun w o _ => hg ▸ fun h => h.getPreferences o) fun _ => hthere
  have hlock : (LockManager.init P).Safe D := fun w =>
    wp_mono _ (fun _ _ _ => trivial) (LockManager.init_wp (opens_times hg) trivial)
  have hhop : ∀ w, D.guarantee w (w.exec P .hop ()).2 := fun w => hg ▸ fun h => h.hop
  have hrun : runApp.Safe D := Safe.modify fun w => hg ▸ fun h => h.congr rfl rfl rfl rfl
  refine Safe.bind hchrome fun _ => Safe.bind ?_ fun _ => Safe.bind ?_ fun _ => hrun
  · refine Safe.tryCatch (Safe.bind (safe_awaited hinit hhop) fun _ => ?_) fun _ => Safe.pure _
    exact safe_awaited hlock hhop
  · refine Safe.tryCatch (Safe.bind (Safe.get _) fun enabled => ?_) fun _ => Safe.pure _
    exact Safe.bind (Safe.done _) fun enabled => safe_when hchrome

end

theorem sound_autoLock : (autoLock P fun minutes => 5 ≤ minutes).Sound
    (fun _ _ => (autoLock P fun minutes => 5 ≤ minutes).keeping Times) Timed := by
  refine System.sound_keeping (fun _ _ h hs => hs h) ?_ fun _ _ h hr => hr ▸ h.restarted
  intro i a w _ ha
  have hg : ((autoLock P fun minutes => 5 ≤ minutes).keeping Times).guarantee = Times := rfl
  cases a with
  | main => exact main_safe hg w
  | authenticate reason =>
    have hauth : (AuthService.authenticate P reason).Safe _ := fun w =>
      wp_mono _ (fun _ _ _ => trivial) (authenticate_wp (opens_times hg) reason trivial)
    exact Safe.bind hauth (fun _ => Safe.pure _) w
  | extendSession => exact ⟨fun h => h.extended, trivial⟩
  | lock => exact ⟨fun h => h.locked, trivial⟩
  | setAutoLockTime minutes => exact setAutoLockTime_safe hg ha w
  | resetSettings => exact resetSettings_safe hg w
  | tick now => exact ⟨fun h => ⟨h.stamp, h.timeout, h.cache, h.disk⟩, trivial⟩

/-- **A key is handed out only within the chosen time** since the session was last opened or
extended. -/
theorem kek_within_autoLockTime {w₀ : World} (hauth : w₀.auth = ⟨none, none, defaultTimeout⟩)
    (hprefs : w₀.preferences = none) (hdisk : Lasting w₀.disk)
    {c : (autoLock P fun minutes => 5 ≤ minutes).Config} (hc : System.Reachable _ w₀ c) {r : Ref}
    (hkek : LockManager.kek c.world = some r) :
    ∃ t l m m', c.world.record.opened = t :: l ∧ autoLockTime c.world = .ok m ∧
      storedAutoLockTime c.world = .ok m' ∧
      c.world.now.micros - t.micros < m * 60000000 ∧
      c.world.now.micros - t.micros < m' * 60000000 := by
  have h₀ : Timed w₀ := by
    refine ⟨?_, by rw [hauth], ?_, hdisk⟩
    · rw [hauth]
      exact fun _ ht => nomatch ht
    · rw [hprefs]
      exact fun _ hp => nomatch hp
  have h := sound_autoLock.invariant h₀ hc
  obtain ⟨r', t, -, ht, hlt⟩ := isUnlocked_iff.mp (kek_eq_some.mp hkek).1
  obtain ⟨i, l, hl, rfl⟩ := h.stamp t ht
  rw [h.timeout, defaultTimeout] at hlt
  obtain ⟨m', hm', hstored⟩ := h.disk.minutesOf
  obtain ⟨m, hm, hread⟩ : ∃ m, 5 ≤ m ∧ autoLockTime c.world = .ok m := by
    unfold autoLockTime
    rcases hp : prefs c.world with - | p
    · exact ⟨5, by decide, rfl⟩
    · unfold prefs at hp
      split at hp
      · exact (h.cache p hp).minutesOf
      · cases hp
  refine ⟨i, l, m, m', hl, hread, hstored, ?_, ?_⟩
  · have hi : c.world.now.micros - i.micros < 300000000 := hlt
    omega
  · have hi : c.world.now.micros - i.micros < 300000000 := hlt
    omega

/-! ## A key that is handed out too late -/

/-- The application is started, and the user is recognised and chooses `minutes`. -/
def choice (minutes : ℤ) : List AutoLockAction :=
  [.main, .authenticate none, .setAutoLockTime minutes]

/-- The run of these actions. -/
@[irreducible] def chosen (may : ℤ → Prop) (minutes : ℤ) : (autoLock (.sample .marked) may).Config :=
  (autoLock (.sample .marked) may).play usual (choice minutes) 0 (.idle (.sample [] []))

/-- Then the clock moves on. -/
def chosenAt (may : ℤ → Prop) (minutes : ℤ) (now : Instant) :
    (autoLock (.sample .marked) may).Config :=
  (chosen may minutes).update 3 (AutoLockAction.tick now)
    (.finished, { (chosen may minutes).world with now := now })

theorem reachable_chosenAt {may : ℤ → Prop} {minutes : ℤ} (h : may minutes) {now : Instant}
    (hnow : (chosen may minutes).world.now.micros ≤ now.micros) :
    System.Reachable _ (World.sample [] []) (chosenAt may minutes now) := by
  have hplay : (autoLock (.sample .marked) may).Steps (.idle (.sample [] []))
      (chosen may minutes) := by
    unfold chosen
    apply System.steps_play
    · exact fun _ _ => trivial
    · exact fun _ _ _ => trivial
    · exact fun _ _ => rfl
    · exact ⟨trivial, trivial, h, trivial⟩
  have htick : (autoLock (.sample .marked) may).enabled (chosen may minutes).world
      (AutoLockAction.tick now) := hnow
  have hfree : (chosen may minutes).threads 3 = none := by
    unfold chosen
    rfl
  have hstep := System.Step.start (c := chosen may minutes) 3 (AutoLockAction.tick now) hfree htick
  exact hplay.tail hstep

/-- Two minutes after the user was recognised. -/
def twoMinutes : Instant := ⟨120000000, by decide⟩

/-- With an auto-lock time of one minute a key is handed out after two. -/
theorem kek_after_autoLockTime :
    ∃ c : (autoLock (.sample .marked) fun _ => True).Config,
      System.Reachable _ (World.sample [] []) c ∧ (LockManager.kek c.world).isSome = true ∧
      (autoLockTime c.world).toOption = some 1 ∧
      c.world.record.opened.map (c.world.now.micros - ·.micros) = [120000000] := by
  refine ⟨chosenAt _ 1 twoMinutes, reachable_chosenAt trivial ?_, ?_, ?_, ?_⟩
  · decide +kernel
  · decide +kernel
  · decide +kernel
  · decide +kernel

theorem kek_within_autoLockTime_sample : ∃ t l m m',
    (chosenAt (fun m => 5 ≤ m) 10 twoMinutes).world.record.opened = t :: l ∧
      autoLockTime (chosenAt (fun m => 5 ≤ m) 10 twoMinutes).world = .ok m ∧
      storedAutoLockTime (chosenAt (fun m => 5 ≤ m) 10 twoMinutes).world = .ok m' ∧
      twoMinutes.micros - t.micros < m * 60000000 ∧
      twoMinutes.micros - t.micros < m' * 60000000 := by
  have hle : (chosen (fun m => 5 ≤ m) 10).world.now.micros ≤ twoMinutes.micros := by decide +kernel
  have hkek : LockManager.kek (chosenAt (fun m => 5 ≤ m) 10 twoMinutes).world = some 1 := by
    decide +kernel
  exact kek_within_autoLockTime rfl rfl (.inl rfl) (reachable_chosenAt (by decide) hle) hkek

end CajaSegura
