import CajaSegura.Platform.Sample
import CajaSegura.Screens.HomeRules

/-!
# Calls on the vault and the session

The handlers of the home screen ask for an open session before they go on. An import then works
through its files, and a deletion waits for its dialog, whatever becomes of the session meanwhile.

## Main definitions

* `gateRuns`: the runs in which the session does not end during a batch, and a deletion is
  confirmed in an open session only
* `Gated`: every call has started in an open session, and the session is open during a batch

## Main results

* `HomeScreen.calls_unlocked`: in these runs every call starts in an open session
* `HomeScreen.delete_locked`: a deletion after a pause
-/

namespace CajaSegura

open Codec Async
open Program hiding bind

variable {P : Platform}

namespace HomeScreen

/-! ## Runs -/

/-- The session does not end while a batch has files to come, and a dialog that has been confirmed
is left in an open session. -/
def gateRuns (P : Platform) : System (device P) :=
  homeRuns P
    (fun w a =>
      match a with
      | .lifecycle paused => paused = true → ∀ m ∈ w.record.running, m.2 ≠ .batch
      | .tick now => w.now.micros ≤ now.micros ∧ ∀ m ∈ w.record.running, m.2 = .batch →
          LockManager.isUnlocked (AuthService.clocked now w) = true
      | _ => True)
    (fun _ _ _ => True)
    fun w op =>
      match op with
      | .showDialog _ => fun r => r = .ok (some true) → LockManager.isUnlocked w = true
      | _ => fun _ => True

/-- Every call has started in an open session, and the session is open during a batch. -/
structure Gated (w : World) : Prop where
  calls : ∀ k ∈ w.record.calls, k.isUnlocked = true
  batch : ∀ m ∈ w.record.running, m.2 = .batch → LockManager.isUnlocked w = true
  timeout : 0 < w.auth.sessionTimeout

/-- The marks of a thread are its own, and the calls are gated. -/
def gated (P : Platform) (i : ℕ) : Discipline (device P) where
  allow _ _ _ := True
  deliver := (gateRuns P).deliver
  rely w w' := w'.homeScreen.mounted = w.homeScreen.mounted ∧
    (∀ s, (i, s) ∈ w'.record.running ↔ (i, s) ∈ w.record.running) ∧ (Gated w → Gated w')
  guarantee w w' := w'.homeScreen.mounted = w.homeScreen.mounted ∧
    (∀ j s, j ≠ i → ((j, s) ∈ w'.record.running ↔ (j, s) ∈ w.record.running)) ∧
    (Gated w → Gated w')

/-- The thread is in these stretches, and the calls are gated. -/
def InGate (i : ℕ) (ss : List Stretch) (w : World) : Prop := Held i ss w ∧ Gated w

variable {i : ℕ} {ss : List Stretch} {w w' : World}

theorem InGate.rely (h : InGate i ss w) (hr : (gated P i).rely w w') : InGate i ss w' :=
  ⟨⟨hr.1.trans h.1.1, fun s hs => (hr.2.1 s).mpr (h.1.2 s hs)⟩, hr.2.2 h.2⟩

/-! ## Steps -/

/-- A step that makes no call, leaves the marks alone and does not end the session. -/
structure Mild (w w' : World) : Prop where
  mounted : w'.homeScreen.mounted = w.homeScreen.mounted
  calls : w'.record.calls = w.record.calls
  running : w'.record.running = w.record.running
  timeout : w'.auth.sessionTimeout = w.auth.sessionTimeout
  unlocked : 0 < w.auth.sessionTimeout → LockManager.isUnlocked w = true →
    LockManager.isUnlocked w' = true

/-- The session and the clock are as before. -/
theorem isUnlocked_congr (ha : w'.auth = w.auth) (hn : w'.now = w.now) :
    LockManager.isUnlocked w' = LockManager.isUnlocked w := by
  unfold LockManager.isUnlocked AuthService.isUnlocked AuthService.elapsed
  rw [ha, hn]

theorem mild_exec (op : Op) (o : Outcome op) : Mild w (w.exec P op o).2 := by
  have h := World.outside_exec P w op o
  exact ⟨congrArg _ h.homeScreen, h.calls, h.running, congrArg _ h.auth,
    fun _ hu => (isUnlocked_congr h.auth h.now).trans hu⟩

theorem mild_draws (h : Draws w w') : Mild w w' := by
  obtain ⟨n, u, rfl⟩ := h
  exact ⟨rfl, rfl, rfl, rfl, fun _ => id⟩

/-- A new key does not end a session. -/
theorem mild_keyed (b : Bytes) : Mild w (AuthService.keyed b w) := by
  refine ⟨rfl, rfl, rfl, rfl, fun _ hu => ?_⟩
  obtain ⟨r, t, -, ht, hlt⟩ := AuthService.isUnlocked_iff.mp hu
  exact AuthService.isUnlocked_iff.mpr ⟨w.allocated, t, rfl, ht, hlt⟩

theorem mild_opened : Mild w (AuthService.opened w) := by
  refine ⟨rfl, rfl, rfl, rfl, fun htimeout hu => ?_⟩
  obtain ⟨r, t, hr, -, -⟩ := AuthService.isUnlocked_iff.mp hu
  refine AuthService.isUnlocked_iff.mpr ⟨r, _, hr, rfl, ?_⟩
  change w.now.micros - w.now.micros < w.auth.sessionTimeout
  omega

theorem Mild.step (hm : Mild w w') (h : InGate i ss w) :
    (gated P i).guarantee w w' ∧ InGate i ss w' := by
  have hgated (hg : Gated w) : Gated w' := by
    refine ⟨fun k hk => hg.calls k (hm.calls ▸ hk), fun m hmem hs => ?_, hm.timeout ▸ hg.timeout⟩
    exact hm.unlocked hg.timeout (hg.batch m (hm.running ▸ hmem) hs)
  refine ⟨⟨hm.mounted, fun j s _ => by rw [hm.running], hgated⟩,
    ⟨hm.mounted.trans h.1.1, fun s hs => ?_⟩, hgated h.2⟩
  rw [hm.running]
  exact h.1.2 s hs

/-- A mark that is none of a batch, or is one in an open session. -/
theorem entered_gated {s : Stretch} (hs : s = .batch → LockManager.isUnlocked w = true)
    (h : InGate i ss w) : (gated P i).guarantee w (World.entered (i, s) w) ∧
      InGate i (s :: ss) (World.entered (i, s) w) := by
  have hgated (hg : Gated w) : Gated (World.entered (i, s) w) := by
    refine ⟨hg.calls, fun m hm hbatch => ?_, hg.timeout⟩
    rcases List.mem_cons.mp hm with rfl | hm
    · exact hs hbatch
    · exact hg.batch m hm hbatch
  refine ⟨⟨rfl, fun j t hj => ?_, hgated⟩, held_entered h.1, hgated h.2⟩
  exact List.mem_cons.trans (or_iff_right fun he => hj (congrArg Prod.fst he))

theorem left_gated {s : Stretch} (hn : s ∉ ss) (h : InGate i ss w) :
    (gated P i).guarantee w (World.left (i, s) w) ∧ InGate i ss (World.left (i, s) w) := by
  have hgated (hg : Gated w) : Gated (World.left (i, s) w) :=
    ⟨hg.calls, fun m hm => hg.batch m (List.mem_of_mem_erase hm), hg.timeout⟩
  exact ⟨⟨rfl, fun j t hj => mem_left fun he => hj (congrArg Prod.fst he), hgated⟩,
    held_left hn h.1, hgated h.2⟩

/-- A call in an open session. -/
theorem called_gated (hu : LockManager.isUnlocked w = true) (name : String)
    (h : InGate i ss w) : (gated P i).guarantee w (called name w) ∧
      InGate i ss (called name w) := by
  have hgated (hg : Gated w) : Gated (called name w) := by
    refine ⟨fun k hk => ?_, hg.batch, hg.timeout⟩
    rcases List.mem_cons.mp hk with rfl | hk
    · exact hu
    · exact hg.calls k hk
  exact ⟨⟨rfl, fun _ _ _ => Iff.rfl, hgated⟩, h.1, hgated h.2⟩

/-! ## The handlers -/

/-- What a program keeps that neither makes a call on the vault nor ends the session. -/
theorem keeps_mild {α : Type} {p : App α} (hp : p.Within (fun _ => True) Mild) :
    p.Keeps (gated P i) (InGate i ss) := by
  refine Within.keeps hp (fun w w' h hr => h.rely hr) (fun w w' h hm => hm.step h) ?_
  exact fun op _ w o h _ => (mild_exec op o).step h

/-- A dialog that is confirmed is left in an open session. -/
theorem confirm_gated (t : Text) (h : InGate i [] w) : (call (.showDialog t)).wp (gated P i)
    (fun r w' => InGate i [] w' ∧ (r = .ok (some true) → LockManager.isUnlocked w' = true)) w := by
  rw [wp_call]
  intro w₁ h₁ o _
  obtain ⟨hg, h₂⟩ := (mild_exec (P := P) (.showDialog t) o).step (h.rely h₁)
  exact ⟨hg, fun w₂ hr hd => ⟨h₂.rely hr, hd⟩⟩

theorem watches_gated : Watches P (gated P i) i (InGate i) fun w =>
    LockManager.isUnlocked w = true where
  mounted _ _ h := h.1.1
  call op _ := keeps_mild (within_call.mpr trivial)
  unlock _ := keeps_mild (within_unlock (fun _ _ => mild_draws) (fun _ => mild_keyed)
    fun _ => mild_opened)
  importFile _ _ _ _ := keeps_mild (within_importFile (fun _ _ => mild_draws) _ _ _ _)
  exportClear _ _ _ := keeps_mild (within_exportClear _ _)
  deleteById _ _ := keeps_mild (within_deleteById _)
  listAll _ := keeps_mild within_listAll
  confirm t _ h := confirm_gated t h
  taken s ss w hs h := by
    have htaken : Mild w (taken w) := ⟨rfl, rfl, rfl, rfl, fun _ => id⟩
    obtain ⟨hg, h'⟩ := htaken.step (P := P) h
    obtain ⟨hg', h''⟩ := entered_gated (P := P) (s := s) (by rintro rfl; cases hs) h'
    exact ⟨⟨rfl, hg'.2.1, hg'.2.2 ∘ hg.2.2⟩, h'', id⟩
  given s ss w hs hn h := by
    have hgiven : Mild w (given w) := ⟨rfl, rfl, rfl, rfl, fun _ => id⟩
    obtain ⟨hg, h'⟩ := hgiven.step (P := P) h
    obtain ⟨hg', h''⟩ := left_gated (P := P) hn ⟨h'.1.tail, h'.2⟩
    exact ⟨⟨rfl, hg'.2.1, hg'.2.2 ∘ hg.2.2⟩, h''⟩
  shown f ss w hm _ h :=
    Mild.step ⟨hm _, rfl, rfl, rfl, fun _ => id⟩ h
  -- a key can be read only while the session is open
  kek w hk := by
    obtain ⟨r, hr⟩ := Option.ne_none_iff_exists'.mp hk
    exact (AuthService.kek_eq_some.mp hr).1
  batch ss w h hk := by
    obtain ⟨r, hr⟩ := Option.ne_none_iff_exists'.mp hk
    exact entered_gated (fun _ => (AuthService.kek_eq_some.mp hr).1) h
  unbatch ss w hn h := left_gated hn ⟨h.1.tail, h.2⟩
  unexposed ss w hn h := by
    obtain ⟨hg, h'⟩ := left_gated (P := P) hn h
    exact ⟨hg, h', id⟩
  importing ss w h := h.2.batch (i, .batch) (h.1.2 _ List.mem_cons_self) rfl
  calling name ss w h hu := called_gated hu name h
  replied c r ss w h := by
    have hreplied : Mild w (replied c r w) := ⟨rfl, rfl, rfl, rfl, fun _ => id⟩
    obtain ⟨hg, h'⟩ := hreplied.step (P := P) h
    exact ⟨hg, h', id⟩

/-- A pause between batches, and the clock as long as it lets a batch finish. -/
theorem pause_gated (hno : ∀ m ∈ w.record.running, m.2 ≠ .batch) (h : InGate i [] w) :
    (gated P i).guarantee w (AuthService.locked w) ∧ InGate i [] (AuthService.locked w) := by
  have hgated (hg : Gated w) : Gated (AuthService.locked w) :=
    ⟨hg.calls, fun m hm hs => absurd hs (hno m hm), hg.timeout⟩
  exact ⟨⟨rfl, fun _ _ _ => Iff.rfl, hgated⟩, h.1, hgated h.2⟩

theorem tick_gated {now : Instant} (hu : ∀ m ∈ w.record.running, m.2 = .batch →
      LockManager.isUnlocked (AuthService.clocked now w) = true) (h : InGate i [] w) :
    (gated P i).guarantee w (AuthService.clocked now w) ∧
      InGate i [] (AuthService.clocked now w) := by
  have hgated (hg : Gated w) : Gated (AuthService.clocked now w) := ⟨hg.calls, hu, hg.timeout⟩
  exact ⟨⟨rfl, fun _ _ _ => Iff.rfl, hgated⟩, h.1, hgated h.2⟩

theorem sound_gated : (gateRuns P).Sound (fun i _ => gated P i)
    fun w => w.homeScreen.mounted = true ∧ Gated w where
  allow _ _ _ _ _ _ _ := trivial
  deliver _ _ _ _ _ _ h := h
  rely_refl _ _ _ _ := ⟨rfl, fun _ => Iff.rfl, id⟩
  rely_trans _ _ _ _ _ h h' := ⟨h'.1.trans h.1, fun s => (h'.2.1 s).trans (h.2.1 s),
    h'.2.2 ∘ h.2.2⟩
  compat _ j _ _ _ _ hij _ hg := ⟨hg.1, fun s => hg.2.1 j s (Ne.symm hij), hg.2.2⟩
  inv _ _ _ _ h hg := ⟨hg.1.trans h.1, hg.2.2 h.2⟩
  start i a w h ha := by
    have hw : InGate i [] w := ⟨⟨h.1, by simp⟩, h.2⟩
    refine wp_mono _ (fun _ _ _ => trivial) (watches_gated.keeps_program ?_ ?_ hw)
    · rintro rfl
      exact pause_gated (ha rfl) hw
    · rintro now rfl
      exact tick_gated ha.2 hw
  crash _ _ _ h := h.elim

/-- **Every call on the vault starts in an open session**, if none ends during a batch and no
deletion is confirmed without one. -/
theorem calls_unlocked {w₀ : World} (hmounted : w₀.homeScreen.mounted = true)
    (hrunning : w₀.record.running = []) (hcalls : w₀.record.calls = [])
    (htimeout : 0 < w₀.auth.sessionTimeout) {c : (gateRuns P).Config}
    (hc : System.Reachable _ w₀ c) : ∀ k ∈ c.world.record.calls, k.isUnlocked = true := by
  have h₀ : Gated w₀ := by
    refine ⟨fun k hk => ?_, fun m hm => ?_, htimeout⟩
    · rw [hcalls] at hk
      cases hk
    · rw [hrunning] at hm
      cases hm
  exact (sound_gated.invariant ⟨hmounted, h₀⟩ hc).2.calls

/-! ## A deletion after a pause -/

/-- An entry on the screen. -/
def listed : VaultFileMeta where
  id := ['u']
  originalName := ['a']
  mimeType := "text/plain".toList
  originalSize := 1
  createdAt := World.home.now.local
  dekWrappedB64 := ['d']
  dekWrapIvB64 := ['i']
  fileIvB64 := ['f']

/-- The home screen shows the entry. -/
def showing : World := { World.home with homeScreen := ⟨true, [listed], false, none⟩ }

/-- The application is paused, and the entry is tapped for deletion. -/
def tapped : (anyRuns (.sample .marked)).Config :=
  let c := (System.Config.idle showing).update 0 (HomeAction.lifecycle true)
    (settle (didChangeAppLifecycleState true) showing)
  c.update 1 (HomeAction.tapDelete listed)
    (settle (_delete (.sample .marked) 1 listed) c.world)

theorem reachable_tapped : System.Reachable _ showing tapped :=
  .tail (.single (.start (S := anyRuns (.sample .marked)) 0 (HomeAction.lifecycle true) rfl trivial))
    (.start (S := anyRuns (.sample .marked)) 1 (HomeAction.tapDelete listed) rfl trivial)

/-- The dialog is confirmed, and the entry is deleted without an open session. -/
theorem delete_locked : ∃ c : (anyRuns (.sample .marked)).Config,
    System.Reachable _ showing c ∧ ¬ ∀ k ∈ c.world.record.calls, k.isUnlocked = true := by
  refine ⟨System.advance _ usual 1 1 tapped, reachable_tapped.trans
    (System.steps_advance (fun _ _ => trivial) (fun _ _ _ => trivial) 1 1 _), ?_⟩
  decide +kernel

/-! ## An open session -/

/-- The world after a tap. -/
@[irreducible] def afterHome (i : ℕ) (a : HomeAction) (w : World) : World :=
  ((a.program (.sample .marked) i).run (device (.sample .marked))
    (fun _ => picking "/home/a".toList) 0 w).2

/-- The session is open in the course of a tap. -/
def StaysOpen (i : ℕ) (a : HomeAction) (w : World) : Prop :=
  (a.program (.sample .marked) i).Along (device (.sample .marked))
    (fun w op o => LockManager.isUnlocked (w.exec (.sample .marked) op o).2 = true)
    (fun _ => picking "/home/a".toList) 0 w

instance (i : ℕ) (a : HomeAction) (w : World) : Decidable (StaysOpen i a w) :=
  Program.Along.decidable _ _ _ _ _ _

theorem steps_afterHome {c : (gateRuns (.sample .marked)).Config} {i : ℕ} {a : HomeAction}
    (hi : c.threads i = none) (ha : (gateRuns (.sample .marked)).enabled c.world a)
    (h : StaysOpen i a c.world) :
    System.Steps _ c (c.update i a (.finished, afterHome i a c.world)) := by
  unfold afterHome
  refine System.steps_carried (S := gateRuns (.sample .marked)) hi ha ?_
  refine Program.Along.mono (fun _ w op hopen => ⟨trivial, ?_⟩) h
  cases op with
  | showDialog t => exact fun _ => hopen
  | _ => trivial

/-- A file is imported, exported and deleted. -/
def managed : (gateRuns (.sample .marked)).Config :=
  let w₁ := afterHome 0 .tapImport showing
  let w₂ := afterHome 1 (.tapExport listed) w₁
  (((System.Config.idle showing).update 0 HomeAction.tapImport (.finished, w₁)).update 1
    (HomeAction.tapExport listed) (.finished, w₂)).update 2 (HomeAction.tapDelete listed)
      (.finished, afterHome 2 (.tapDelete listed) w₂)

theorem reachable_managed : System.Reachable _ showing managed := by
  have himport : StaysOpen 0 .tapImport showing := by decide +kernel
  have hexport : StaysOpen 1 (.tapExport listed) (afterHome 0 .tapImport showing) := by
    decide +kernel
  have hdelete : StaysOpen 2 (.tapDelete listed)
      (afterHome 1 (.tapExport listed) (afterHome 0 .tapImport showing)) := by
    decide +kernel
  refine (steps_afterHome (i := 0) (a := .tapImport) rfl trivial himport).trans ?_
  refine (steps_afterHome (i := 1) (a := .tapExport listed) rfl trivial hexport).trans ?_
  exact steps_afterHome (i := 2) (a := .tapDelete listed) rfl trivial hdelete

theorem calls_unlocked_managed :
    managed.world.record.calls.map RepositoryCall.name =
        ["deleteById".toList, "exportClear".toList, "importFile".toList] ∧
      ∀ k ∈ managed.world.record.calls, k.isUnlocked = true :=
  ⟨by decide +kernel, calls_unlocked rfl rfl rfl (by decide +kernel) reachable_managed⟩

end HomeScreen

end CajaSegura
