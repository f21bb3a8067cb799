import CajaSegura.Platform.Sample
import CajaSegura.Screens.HomeRules
import Mathlib.Data.List.Count

/-!
# The busy flag

The handlers of the home screen look at `_busy` when they are tapped and set it after their awaits.
As long as nobody sets the flag when it is set, at most one handler is in its section and the flag
is set meanwhile.

## Main definitions

* `Exclusive`: at most one handler is in its section, and `_busy` is set
* `Clear`: `_busy` was never set when it was set already
* `Owned`: the flag is set exactly while one handler or load holds it

## Main results

* `HomeScreen.busy_excludes`: the flag excludes other handlers in runs in which `Clear` holds
* `HomeScreen.importing_not_exclusive`: an import that ends its batch gives the flag away
-/

namespace CajaSegura

open Codec Async
open Program hiding bind

variable {P : Platform}

namespace HomeScreen

/-- At most one handler is in its section, and the flag is set during the whole of it. -/
structure Exclusive (w : World) : Prop where
  one : (w.record.running.countP fun m => m.2 = .handler) ≤ 1
  busy : ∀ m ∈ w.record.running, m.2 = .handler → w.homeScreen._busy = true

/-- Whoever set the flag found it cleared. -/
def Clear (w : World) : Prop := ∀ b ∈ w.record.found, b = false

/-- The handlers and loads in their sections. -/
def holders (w : World) : ℕ := w.record.running.countP fun m => m.2.holds

/-- The flag is set exactly while one handler or load is in its section. -/
def Owned (w : World) : Prop :=
  Clear w → holders w = 0 ∧ w.homeScreen._busy = false ∨ holders w = 1 ∧ w.homeScreen._busy = true

theorem Owned.exclusive {w : World} (h : Owned w) (hc : Clear w) : Exclusive w := by
  have hle : (w.record.running.countP fun m => m.2 = .handler) ≤ holders w := by
    refine List.countP_mono_left fun m _ hm => ?_
    rw [of_decide_eq_true hm]
    rfl
  refine ⟨by rcases h hc with ⟨h₀, -⟩ | ⟨h₁, -⟩ <;> omega, fun m hm hs => ?_⟩
  have hpos : 0 < holders w := List.countP_pos_iff.mpr ⟨m, hm, by rw [hs]; rfl⟩
  rcases h hc with ⟨h₀, -⟩ | ⟨-, hb⟩
  · omega
  · exact hb

/-! ## What a thread relies on and promises -/

/-- The marks of a thread are its own, and the flag is cleared by those who hold it. -/
def exclusive (P : Platform) (i : ℕ) : Discipline (device P) where
  allow _ _ _ := True
  deliver _ _ _ := True
  rely w w' := w'.homeScreen.mounted = w.homeScreen.mounted ∧
    ∀ s, (i, s) ∈ w'.record.running ↔ (i, s) ∈ w.record.running
  guarantee w w' := w'.homeScreen.mounted = w.homeScreen.mounted ∧
    (∀ j s, j ≠ i → ((j, s) ∈ w'.record.running ↔ (j, s) ∈ w.record.running)) ∧
    (Owned w → Owned w')

variable {i : ℕ} {ss : List Stretch} {w w' : World}

theorem Held.rely (h : Held i ss w) (hr : (exclusive P i).rely w w') : Held i ss w' :=
  ⟨hr.1.trans h.1, fun s hs => (hr.2 s).mpr (h.2 s hs)⟩

/-- A step that leaves the marks and the flag alone. -/
theorem plain_step (hm : w'.homeScreen.mounted = w.homeScreen.mounted)
    (hb : w'.homeScreen._busy = w.homeScreen._busy) (hr : w'.record.running = w.record.running)
    (hf : w'.record.found = w.record.found) (h : Held i ss w) :
    (exclusive P i).guarantee w w' ∧ Held i ss w' := by
  refine ⟨⟨hm, fun j s _ => by rw [hr], ?_⟩, hm.trans h.1, fun s hs => hr ▸ h.2 s hs⟩
  unfold Owned Clear holders
  rw [hb, hr, hf]
  exact id

theorem aside_step (ha : w.Aside w') (h : Held i ss w) :
    (exclusive P i).guarantee w w' ∧ Held i ss w' :=
  plain_step (congrArg _ ha.homeScreen) (congrArg _ ha.homeScreen) ha.running ha.found h

/-- The flag is set by a thread that enters its section. -/
theorem taken_step {s : Stretch} (hs : s.holds = true) (h : Held i ss w) :
    (exclusive P i).guarantee w (World.entered (i, s) (taken w)) ∧
      Held i (s :: ss) (World.entered (i, s) (taken w)) := by
  have hw : Held i ss (taken w) := h
  refine ⟨⟨rfl, fun j t hj => ?_, fun ho hc => ?_⟩, held_entered hw⟩
  · exact List.mem_cons.trans (or_iff_right fun he => hj (congrArg Prod.fst he))
  · -- the flag was cleared, so nobody held it
    have hfree : w.homeScreen._busy = false := hc _ List.mem_cons_self
    have hcount : holders (World.entered (i, s) (taken w)) = holders w + 1 :=
      List.countP_cons_of_pos hs
    rcases ho fun b hb => hc b (List.mem_cons_of_mem _ hb) with ⟨h₀, -⟩ | ⟨-, hb⟩
    · exact .inr ⟨by rw [hcount, h₀], rfl⟩
    · exact absurd (hfree.symm.trans hb) nofun

/-- The flag is cleared by the thread that holds it. -/
theorem given_step {s : Stretch} (hs : s.holds = true) (hn : s ∉ ss) (h : Held i (s :: ss) w) :
    (exclusive P i).guarantee w (World.left (i, s) (given w)) ∧
      Held i ss (World.left (i, s) (given w)) := by
  have hmem : (i, s) ∈ w.record.running := h.2 s List.mem_cons_self
  have htail : Held i ss (given w) := h.tail
  refine ⟨⟨rfl, fun j t hj => mem_left fun he => hj (congrArg Prod.fst he), fun ho hc => ?_⟩,
    held_left hn htail⟩
  have hcount : holders (World.left (i, s) (given w)) = holders w - 1 := by
    refine (List.countP_erase _ _ _).trans ?_
    rw [if_pos ⟨hmem, hs⟩]
    rfl
  have hpos : 0 < holders w := List.countP_pos_iff.mpr ⟨_, hmem, hs⟩
  refine .inl ⟨?_, rfl⟩
  rcases ho hc with ⟨h₀, -⟩ | ⟨h₁, -⟩ <;> omega

/-- A mark that says nothing about the flag. -/
theorem entered_step {s : Stretch} (hs : s.holds = false) (h : Held i ss w) :
    (exclusive P i).guarantee w (World.entered (i, s) w) ∧
      Held i (s :: ss) (World.entered (i, s) w) := by
  refine ⟨⟨rfl, fun j t hj => ?_, fun ho hc => ?_⟩, held_entered h⟩
  · exact List.mem_cons.trans (or_iff_right fun he => hj (congrArg Prod.fst he))
  · have hcount : holders (World.entered (i, s) w) = holders w :=
      List.countP_cons_of_neg (by simpa using hs)
    rw [hcount]
    exact ho hc

theorem left_step {s : Stretch} (hs : s.holds = false) (hn : s ∉ ss) (h : Held i ss w) :
    (exclusive P i).guarantee w (World.left (i, s) w) ∧ Held i ss (World.left (i, s) w) := by
  refine ⟨⟨rfl, fun j t hj => mem_left fun he => hj (congrArg Prod.fst he), fun ho hc => ?_⟩,
    held_left hn h⟩
  have hcount : holders (World.left (i, s) w) = holders w := by
    refine (List.countP_erase _ _ _).trans ?_
    rw [if_neg (by simp [hs])]
    rfl
  rw [hcount]
  exact ho hc

/-! ## Runs -/

theorem aside_draws (h : Draws w w') : w.Aside w' := by
  obtain ⟨n, u, rfl⟩ := h
  constructor <;> rfl

theorem aside_keyed {b : Bytes} : w.Aside (AuthService.keyed b w) := by constructor <;> rfl

theorem aside_opened : w.Aside (AuthService.opened w) := by constructor <;> rfl

/-- What a program beside the screen keeps, whatever its result. -/
theorem keeps_beside {α : Type} {p : App α} (hp : p.Within (fun _ => True) World.Aside) :
    p.Keeps (exclusive P i) (Held i ss) := by
  refine Within.keeps hp (fun w w' h hr => h.rely hr) (fun w w' h ha => aside_step ha h) ?_
  exact fun op _ w o h _ => aside_step (w.aside_exec op o) h

theorem watches_exclusive : Watches P (exclusive P i) i (Held i) fun _ => True where
  mounted _ _ h := h.1
  call op _ := keeps_beside (within_call.mpr trivial)
  unlock _ := keeps_beside (within_unlock (fun _ _ => aside_draws) (fun _ _ => aside_keyed)
    fun _ => aside_opened)
  importFile _ _ _ _ := keeps_beside (within_importFile (fun _ _ => aside_draws) _ _ _ _)
  exportClear _ _ _ := keeps_beside (within_exportClear _ _)
  deleteById _ _ := keeps_beside (within_deleteById _)
  listAll _ := keeps_beside within_listAll
  confirm t w h := by
    refine wp_mono _ (fun r w' h' => ⟨h', fun _ => trivial⟩) ?_
    exact keeps_beside (within_call.mpr trivial) w h
  taken s ss w hs h := by
    obtain ⟨hg, h'⟩ := taken_step (P := P) hs h
    exact ⟨hg, h', id⟩
  given s ss w hs hn h := given_step hs hn h
  shown f ss w hm hb h := plain_step (hm _) (hb _) rfl rfl h
  kek _ _ := trivial
  batch ss w h _ := entered_step rfl h
  unbatch ss w hn h := left_step rfl hn h.tail
  unexposed ss w hn h := by
    obtain ⟨hg, h'⟩ := left_step (P := P) rfl hn h
    exact ⟨hg, h', id⟩
  importing _ _ _ := trivial
  calling name ss w h _ := plain_step rfl rfl rfl rfl h
  replied c r ss w h := by
    have hplain : (exclusive P _).guarantee w (replied c r w) ∧ Held _ ss (replied c r w) :=
      plain_step rfl rfl rfl rfl h
    exact ⟨hplain.1, hplain.2, id⟩

theorem sound_exclusive : (anyRuns P).Sound (fun i _ => exclusive P i)
    fun w => w.homeScreen.mounted = true ∧ Owned w where
  allow _ _ _ _ _ _ _ := trivial
  deliver _ _ _ _ _ _ _ := trivial
  rely_refl _ _ _ _ := ⟨rfl, fun _ => Iff.rfl⟩
  rely_trans _ _ _ _ _ h h' := ⟨h'.1.trans h.1, fun s => (h'.2 s).trans (h.2 s)⟩
  compat _ j _ _ _ _ hij _ hg := ⟨hg.1, fun s => hg.2.1 j s (Ne.symm hij)⟩
  inv _ _ _ _ h hg := ⟨hg.1.trans h.1, hg.2.2 h.2⟩
  start i a w h _ := by
    have hw : Held i [] w := ⟨h.1, by simp⟩
    refine wp_mono _ (fun _ _ _ => trivial) (watches_exclusive.keeps_program ?_ ?_ hw)
    · exact fun _ => plain_step rfl rfl rfl rfl hw
    · exact fun now _ => plain_step rfl rfl rfl rfl hw
  crash _ _ _ h := h.elim

/-- **The flag excludes other handlers** as long as nobody sets it when it is set. -/
theorem busy_excludes {w₀ : World} (hscreen : w₀.homeScreen = ⟨true, [], false, none⟩)
    (hrunning : w₀.record.running = []) {c : (anyRuns P).Config}
    (hc : System.Reachable _ w₀ c) (hclear : Clear c.world) : Exclusive c.world := by
  have howned : Owned w₀ := by
    refine fun _ => .inl ⟨?_, congrArg _ hscreen⟩
    unfold holders
    rw [hrunning]
    rfl
  exact (sound_exclusive.invariant ⟨congrArg _ hscreen, howned⟩ hc).2.exclusive hclear

/-! ## An import that gives the flag away -/

/-- An import on a home screen that has just appeared after `n` awaits. -/
def importing (path : Text) (n : ℕ) : (anyRuns (.sample .marked)).Config :=
  System.advance _ (picking path) 0 n ((System.Config.idle World.home).update 0 HomeAction.tapImport
    (settle (_import (.sample .marked) 0) World.home))

theorem reachable_importing (path : Text) (n : ℕ) :
    System.Reachable _ World.home (importing path n) :=
  .head (.start (S := anyRuns (.sample .marked)) 0 HomeAction.tapImport rfl trivial)
    (System.steps_advance (fun _ _ => trivial) (fun _ _ _ => trivial) 0 n _)

/-- The file is gone when its turn comes, so the batch is over at once. The first of the two loads at
its end clears the flag, and the import goes on. -/
theorem importing_not_exclusive : ∃ c : (anyRuns (.sample .marked)).Config,
    System.Reachable _ World.home c ∧ ¬ Exclusive c.world := by
  refine ⟨importing "/home/b".toList 8, reachable_importing _ 8, fun h => ?_⟩
  exact absurd (h.busy (0, .handler) (by decide +kernel) rfl) (by decide +kernel)

/-- While a file is imported the list is refreshed, which the flag forbids. -/
def refreshed : (anyRuns (.sample .marked)).Config :=
  (importing "/home/a".toList 1).update 1 HomeAction.refresh
    (settle (HomeAction.refresh.program (.sample .marked) 1) (importing "/home/a".toList 1).world)

/-- A second import is tapped, which waits for the picker while the first goes on. -/
def crowded : (anyRuns (.sample .marked)).Config :=
  System.advance _ (picking "/home/a".toList) 0 3 (refreshed.update 2 HomeAction.tapImport
    (settle (_import (.sample .marked) 2) refreshed.world))

theorem reachable_refreshed : System.Reachable _ World.home refreshed :=
  (reachable_importing "/home/a".toList 1).tail
    (.start (S := anyRuns (.sample .marked)) 1 HomeAction.refresh rfl trivial)

theorem reachable_crowded : System.Reachable _ World.home crowded :=
  (reachable_refreshed.tail
    (.start (S := anyRuns (.sample .marked)) 2 HomeAction.tapImport rfl trivial)).trans
      (System.steps_advance (fun _ _ => trivial) (fun _ _ _ => trivial) 0 3 _)

theorem busy_excludes_crowded : crowded.world.homeScreen._busy = true ∧
    Exclusive crowded.world := by
  refine ⟨by decide +kernel, busy_excludes rfl rfl reachable_crowded ?_⟩
  unfold Clear
  decide +kernel

end HomeScreen

end CajaSegura
