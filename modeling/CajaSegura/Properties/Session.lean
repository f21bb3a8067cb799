import CajaSegura.Async.Pool
import CajaSegura.Platform.Sample
import CajaSegura.Services.AuthRules

/-!
# Sessions that have ended

`AuthService` on its own: authentications that interleave, and the operations on a session, while
the clock moves on.

## Main definitions

* `sessions`: the runs
* `Revives`: extending the session would open it again
* `Shut n`: no session is open while `n` authentications have succeeded

## Main results

* `AuthService.authenticate_installs`: a key is recorded exactly when an authentication succeeds
* `AuthService.closed_until_authenticated`: a session that has ended stays closed until the next
  authentication, if no ended session is extended
-/

namespace CajaSegura

open Codec Async
open Program hiding bind

namespace AuthService

variable {P : Platform}

/-! ## Runs -/

inductive SessionAction
  | authenticate (reason : Option Text)
  | lock
  | extendSession
  | clearAllData
  | look
  | tick (now : Instant)

def SessionAction.program (P : Platform) : SessionAction → App Unit
  | .authenticate reason => do let _ ← AuthService.authenticate P reason
  | .lock => AuthService.lock
  | .extendSession => AuthService.extendSession
  | .clearAllData => AuthService.clearAllData
  | .look => do let _ ← get fun w => (kek w, isUnlocked w)
  | .tick now => Program.modify (clocked now)

/-- The runs in which the session is extended only where `may` holds. Calls turn out as they may,
and the clock does not go back. -/
def sessions (P : Platform) (may : World → Prop) : System (device P) where
  Action := SessionAction
  program _ a := a.program P
  enabled w
    | .extendSession => may w
    | .tick now => w.now.micros ≤ now.micros
    | _ => True
  allow _ _ _ := True
  deliver _ _ _ := True
  crash _ _ := False

/-- **A key is recorded exactly when an authentication succeeds**, if no other one does meanwhile. -/
theorem authenticate_installs {D : Discipline (device P)} {l : List Bytes} (hrely : ∀ w w',
      D.rely w w' → w.record.installed = l → w'.record.installed = l) (reason : Option Text)
    {w : World} (hw : w.record.installed = l) :
    (authenticate P reason).wp D.free (Ends (fun w => w.record.installed = l)
      fun w => ∃ b, w.record.installed = b :: l) w := by
  have hstored (w : World) (b : Bytes) (o : Outcome (.storageWrite (Base64.encode b))) :
      (w.exec P (.storageWrite (Base64.encode b)) o).2.record.installed = w.record.installed :=
    (World.outside_exec P w _ o).installed
  have hread (w : World) (o : Outcome .storageRead) :
      (w.exec P .storageRead o).2.record.installed = w.record.installed :=
    (World.outside_exec P w _ o).installed
  have hD : Opens D.free (fun w => w.record.installed = l) (fun _ => True)
      fun w => ∃ b, w.record.installed = b :: l := by
    refine ⟨fun w w' h hr => ⟨hrely w w' hr h, fun _ => trivial⟩,
      fun w w' h hq => ⟨trivial, hq.installed.trans h, fun _ => trivial⟩,
      fun _ _ _ _ _ _ _ _ _ => trivial,
      fun w b o h _ _ _ => ⟨trivial, (hstored w b o).trans h⟩, ?_⟩
    intro w o s w' b h _ _ _ hr _ _
    have hw' := hrely _ w' hr ((hread w o).trans h)
    exact ⟨trivial, trivial, _, congrArg (List.cons _) hw'⟩
  exact authenticate_wp hD reason hw

/-! ## Sessions that stay closed -/

/-- A session that has expired, whose key is still in memory. -/
def Revives (w : World) : Prop :=
  w.auth._kek ≠ none ∧ isSessionExpired w = true ∧ 0 < w.auth.sessionTimeout

/-- There is no time stamp without a key. -/
def Sane (w : World) : Prop := w.auth._kek = none → w.auth._lastUnlock = none

/-- No session is open, unless there have been more than `n` successful authentications. -/
structure Shut (n : ℕ) (w : World) : Prop where
  sane : Sane w
  le : n ≤ w.record.installed.length
  shut : w.record.installed.length = n → isUnlocked w = false

variable {n : ℕ} {w w' : World}

theorem isUnlocked_eq_false_iff :
    isUnlocked w = false ↔ isSessionExpired w = true ∨ w.auth._kek = none := by
  unfold isUnlocked isSessionExpired
  rcases w.auth._kek with - | r
  · simp
  · rcases w.auth._lastUnlock with - | t <;> simp

/-- **A closed session is opened by extending it** exactly when it has expired with its key in
memory. -/
theorem isUnlocked_extended_iff (h : isUnlocked w = false) :
    isUnlocked (extended w) = true ↔ Revives w := by
  unfold extended Revives
  rcases hk : w.auth._kek with - | r
  · simp [h]
  · have hexp : isSessionExpired w = true := by
      rcases isUnlocked_eq_false_iff.mp h with he | he
      · exact he
      · rw [hk] at he
        cases he
    rw [Option.isSome_some, if_pos rfl, isUnlocked_iff]
    constructor
    · rintro ⟨r', t, -, ht, hlt⟩
      obtain rfl : w.now.local = t := Option.some.inj ht
      refine ⟨by simp, hexp, ?_⟩
      have hzero : w.now.micros - w.now.micros < w.auth.sessionTimeout := hlt
      omega
    · rintro ⟨-, -, hpos⟩
      refine ⟨r, w.now.local, hk, rfl, ?_⟩
      change w.now.micros - w.now.micros < w.auth.sessionTimeout
      omega

/-- Changes that have nothing to do with the session. -/
theorem Shut.congr (h : Shut n w) (hauth : w'.auth = w.auth) (hnow : w'.now = w.now)
    (hinst : w'.record.installed = w.record.installed) : Shut n w' := by
  have hopen : isUnlocked w' = isUnlocked w := by
    unfold isUnlocked elapsed
    rw [hauth, hnow]
  refine ⟨?_, hinst ▸ h.le, fun hn => ?_⟩
  · unfold Sane
    rw [hauth]
    exact h.sane
  · rw [hopen]
    exact h.shut (hinst ▸ hn)

theorem Shut.exec (h : Shut n w) (op : Op) (o : Outcome op) : Shut n (w.exec P op o).2 := by
  have ho := World.outside_exec P w op o
  exact h.congr ho.auth ho.now ho.installed

/-- An open session expires, a closed one stays closed. -/
theorem Shut.clocked (h : Shut n w) {now : Instant} (hnow : w.now.micros ≤ now.micros) :
    Shut n (clocked now w) := by
  refine ⟨h.sane, h.le, fun hn => ?_⟩
  have hshut := h.shut hn
  rw [Bool.eq_false_iff, Ne, isUnlocked_iff] at hshut ⊢
  rintro ⟨r, t, hr, ht, hlt⟩
  refine hshut ⟨r, t, hr, ht, ?_⟩
  have hlt' : now.micros - t.micros < w.auth.sessionTimeout := hlt
  omega

theorem Shut.locked (h : Shut n w) : Shut n (locked w) :=
  ⟨fun _ => rfl, h.le, fun _ => isUnlocked_locked⟩

theorem Shut.extended (h : Shut n w) (hr : ¬ Revives w) : Shut n (extended w) := by
  have hinst : (AuthService.extended w).record.installed = w.record.installed := by
    unfold AuthService.extended
    split <;> rfl
  refine ⟨?_, hinst ▸ h.le, fun hn => ?_⟩
  · unfold AuthService.extended
    split
    · rename_i hk
      intro hnone
      have hnone' : w.auth._kek = none := hnone
      rw [hnone'] at hk
      cases hk
    · exact h.sane
  · rw [Bool.eq_false_iff]
    exact fun ho => hr ((isUnlocked_extended_iff (h.shut (hinst ▸ hn))).mp ho)

/-- A new key beside an old time stamp opens no session. -/
theorem Shut.keyed (h : Shut n w) (b : Bytes) : Shut n (keyed b w) := by
  refine ⟨nofun, h.le, fun hn => ?_⟩
  have hshut := h.shut hn
  rw [Bool.eq_false_iff, Ne, isUnlocked_iff] at hshut ⊢
  rintro ⟨r, t, -, ht, hlt⟩
  -- the time stamp was set with an earlier key
  have hk : w.auth._kek ≠ none := by
    intro hk
    have hnone := h.sane hk
    have ht' : w.auth._lastUnlock = some t := ht
    rw [hnone] at ht'
    cases ht'
  obtain ⟨r', hr'⟩ := Option.ne_none_iff_exists'.mp hk
  exact hshut ⟨r', t, hr', ht, hlt⟩

theorem Shut.opened (h : Shut n w) (hk : w.auth._kek ≠ none) : Shut n (opened w) := by
  refine ⟨fun hnone => absurd hnone hk, Nat.le_succ_of_le h.le, fun hn => ?_⟩
  have hlen : w.record.installed.length + 1 = n := hn
  have hle := h.le
  omega

/-! ## Runs of closed sessions -/

/-- What a step of the runs keeps. -/
def Shuts (w w' : World) : Prop := ∀ n, Shut n w → Shut n w'

theorem opens_shuts {D : Discipline (device P)} (hg : D.guarantee = Shuts) :
    Opens D (fun _ => True) (fun _ => True) fun _ => True where
  rely _ _ _ _ := ⟨trivial, fun _ => trivial⟩
  quiet w w' _ hq := by
    refine ⟨?_, trivial, fun _ => trivial⟩
    rw [hg]
    exact fun n h => h.congr hq.auth hq.now hq.installed
  missing _ _ _ _ _ _ _ _ _ := trivial
  store w b o _ _ _ _ := by
    rw [hg]
    exact ⟨fun n h => h.exec (.storageWrite (Base64.encode b)) o, trivial⟩
  key w o s w' b _ _ _ _ _ _ _ := by
    rw [hg]
    exact ⟨fun n h => h.keyed b, fun n h => h.opened nofun, trivial⟩

/-- Every action of the runs, extending a session only where that does not open it. -/
theorem sound_sessions :
    (sessions P fun w => ¬ Revives w).Sound 
      (fun _ _ => (sessions P fun w => ¬ Revives w).keeping Shuts) (Shut 0) := by
  refine System.sound_keeping (fun w w' h hs => hs 0 h) ?_ fun _ _ _ h => h.elim
  intro i a w _ ha
  have hD := opens_shuts (D := (sessions P fun w => ¬ Revives w).keeping Shuts) rfl
  cases a with
  | authenticate reason =>
    change (do let _ ← AuthService.authenticate P reason : App Unit).wp _ _ _
    rw [wp_bind]
    refine wp_mono _ ?_ (authenticate_wp hD reason trivial)
    rintro (e | b) w' - <;> trivial
  | lock => exact ⟨fun n h => h.locked, trivial⟩
  | extendSession => exact ⟨fun n h => h.extended ha, trivial⟩
  | clearAllData =>
    change (AuthService.clearAllData : App Unit).wp _ _ _
    unfold AuthService.clearAllData
    have hdelete : (call .storageDelete).Safe ((sessions P fun w => ¬ Revives w).keeping Shuts) :=
      Safe.perform fun w o _ n h => h.exec .storageDelete o
    have hlock : (AuthService.lock : App Unit).Safe
        ((sessions P fun w => ¬ Revives w).keeping Shuts) := Safe.modify fun w n h => h.locked
    exact Safe.tryCatch (Safe.bind hlock fun _ => hdelete) (fun e => Safe.throw _) w
  | look => trivial
  | tick now => exact ⟨fun n h => h.clocked ha, trivial⟩

/-- **A session that has ended stays closed** until the next authentication that succeeds. -/
theorem closed_until_authenticated {w₀ : World} (hkek : w₀.auth._kek = none)
    (hlast : w₀.auth._lastUnlock = none) {c c' : (sessions P fun w => ¬ Revives w).Config}
    (hc : System.Reachable _ w₀ c)
    (hended : isSessionExpired c.world = true ∨ c.world.auth._kek = none)
    (hc' : System.Steps _ c c')
    (hauth : c'.world.record.installed.length = c.world.record.installed.length) :
    kek c'.world = none ∧ isUnlocked c'.world = false := by
  have hclosed : isUnlocked w₀ = false := isUnlocked_eq_false_iff.mpr (.inr hkek)
  have h₀ : Shut 0 w₀ := ⟨fun _ => hlast, Nat.zero_le _, fun _ => hclosed⟩
  obtain ⟨hok, -⟩ := sound_sessions.steps (System.Ok.idle h₀) hc
  have hshut : Shut c.world.record.installed.length c.world :=
    ⟨hok.inv.sane, le_refl _, fun _ => isUnlocked_eq_false_iff.mpr hended⟩
  have hshut' := sound_sessions.keeps hok hc' (fun _ _ _ _ hg h => hg _ h)
    (fun _ _ hcrash => hcrash.elim) hshut
  exact ⟨kek_eq_none.mpr (hshut'.shut hauth), hshut'.shut hauth⟩

/-! ## A session that is opened again -/

/-- One action is taken. -/
theorem step_of_enabled {may : World → Prop} (c : (sessions P may).Config) (i : ℕ)
    (a : SessionAction) (hi : c.threads i = none) (ha : (sessions P may).enabled c.world a) :
    System.Step _ c (c.update i a (settle (a.program P) c.world)) := .start i a hi ha

/-- The world after an authentication. -/
def authenticated : World :=
  ((SessionAction.program (.sample .marked) (.authenticate none)).run (device (.sample .marked))
    (fun _ => usual) 0 (.sample [] [])).2

/-- Ten minutes after the epoch. -/
def later : Instant := ⟨600000000, by decide⟩

/-- A run with an authentication at the epoch, and ten minutes. -/
def expiredConfig (may : World → Prop) : (sessions (.sample .marked) may).Config :=
  ((System.Config.idle (World.sample [] [])).update 0 (SessionAction.authenticate none)
    (.finished, authenticated)).update 1 (SessionAction.tick later)
      (.finished, clocked later authenticated)

theorem reachable_expiredConfig (may : World → Prop) :
    System.Reachable _ (World.sample [] []) (expiredConfig may) := by
  have hrun : (sessions (.sample .marked) may).Steps (.idle (World.sample [] []))
      ((System.Config.idle (World.sample [] [])).update 0 (SessionAction.authenticate none)
        (.finished, authenticated)) :=
    System.steps_run (T := fun _ => True) (fun _ _ _ _ _ => trivial) (fun _ _ _ _ _ => trivial)
      (fun _ _ _ _ _ => trivial) (fun _ _ _ _ => trivial) (Within.all _) rfl trivial trivial
  have hle : authenticated.now.micros ≤ later.micros := by decide +kernel
  exact hrun.tail (step_of_enabled _ 1 (.tick later) rfl hle)

/-- Extending a session opens it ten minutes after the authentication. -/
theorem extendSession_opens : ∃ c c' : (sessions (.sample .marked) fun _ => True).Config,
    System.Reachable _ (World.sample [] []) c ∧ isSessionExpired c.world = true ∧
      System.Steps _ c c' ∧
      c'.world.record.installed.length = c.world.record.installed.length ∧
      isUnlocked c'.world = true := by
  refine ⟨expiredConfig _, _, reachable_expiredConfig _, ?_,
    .single (step_of_enabled _ 2 .extendSession rfl trivial), ?_, ?_⟩
  · decide +kernel
  · decide +kernel
  · decide +kernel

theorem closed_until_authenticated_sample :
    kek (locked (clocked later authenticated)) = none ∧
      isUnlocked (locked (clocked later authenticated)) = false := by
  have hexpired : isSessionExpired (clocked later authenticated) = true := by decide +kernel
  exact closed_until_authenticated rfl rfl (reachable_expiredConfig _) (.inl hexpired)
    (.single (step_of_enabled _ 2 .lock rfl trivial)) rfl

end AuthService

end CajaSegura
