import CajaSegura.Async.Stretch
import CajaSegura.Properties.Session

/-!
# Copies of the key

Every authentication decodes the stored key into a new buffer. A lock overwrites the buffer that is
in use, and can reach no other.

## Main definitions

* `AuthService.KeyStep`: what a stretch does with the buffers
* `AuthService.Erased n`: the buffers from `n` on hold only zeros
* `AuthService.Owned n`: so do those that are not in use

## Main results

* `AuthService.erased_iff`: a lock would always erase every copy exactly when no key is decoded
  while one is in use
-/

namespace CajaSegura

open Codec Async
open Program hiding bind

namespace AuthService

variable {P : Platform} {n : ℕ} {w₀ w₁ w w' : World}

/-! ## Stretches -/

/-- The buffers and the key in use are as before. -/
structure Kept (w w' : World) : Prop where
  heap : w'.heap = w.heap
  allocated : w'.allocated = w.allocated
  kek : w'.auth._kek = w.auth._kek

theorem Kept.refl (w : World) : Kept w w := ⟨rfl, rfl, rfl⟩

theorem Kept.trans (h : Kept w₀ w) (h' : Kept w w') : Kept w₀ w' :=
  ⟨h'.heap.trans h.heap, h'.allocated.trans h.allocated, h'.kek.trans h.kek⟩

theorem kept_exec (w : World) (op : Op) (o : Outcome op) : Kept w (w.exec P op o).2 := by
  have h := World.outside_exec P w op o
  exact ⟨h.heap, h.allocated, congrArg _ h.auth⟩

/-- What a stretch does with the buffers: nothing, a lock, or a key is decoded into a new one. -/
inductive KeyStep (w w' : World) : Prop
  | kept (h : Kept w w')
  | erased (heap : w'.heap = zeroed w) (allocated : w'.allocated = w.allocated)
      (kek : w'.auth._kek = none)
  | decoded (b : Bytes) (heap : w'.heap = Function.update w.heap w.allocated b)
      (allocated : w'.allocated = w.allocated + 1) (kek : w'.auth._kek = some w.allocated)

theorem KeyStep.locked (w : World) : KeyStep w (locked w) := .erased rfl rfl rfl

theorem KeyStep.opened {b : Bytes} (h : Kept w₀ w) : KeyStep w₀ (opened (keyed b w)) := by
  refine .decoded b ?_ ?_ ?_
  · rw [← h.heap, ← h.allocated]
    rfl
  · rw [← h.allocated]
    rfl
  · rw [← h.allocated]
    rfl

/-- A program that neither draws nor decodes a key for the session. -/
theorem stretch_within {α : Type} {p : App α} {A : Op → Prop} (hp : p.Within A Kept)
    (h : Kept w₀ w) : p.stretch KeyStep (fun _ => Kept) w₀ w :=
  Within.stretch hp (fun _ _ _ h h' => h.trans h') Kept.refl (fun _ _ => .kept) h

theorem stretch_call {op : Op} {Q : Except DartError (Reply op) → World → World → Prop}
    (h : Kept w₀ w) (hQ : ∀ r w, Q r w w) : (call op).stretch KeyStep Q w₀ w :=
  stretch_perform.mpr ⟨.kept h, fun r w' => hQ r w'⟩

theorem stretch_when {b : Bool} {p : App Unit} {Q : Except DartError Unit → World → World → Prop} :
    (when b p).stretch KeyStep Q w₀ w ↔
      (b = true → p.stretch KeyStep Q w₀ w) ∧ (b = false → Q (.ok ()) w₀ w) := by
  cases b
  · exact ⟨fun h => ⟨nofun, fun _ => h⟩, fun h => h.2 rfl⟩
  · exact ⟨fun h => ⟨fun _ => h, nofun⟩, fun h => h.1 rfl⟩

theorem stretch_init (h : Kept w₀ w) :
    (awaited (init P)).stretch KeyStep (fun _ => Kept) w₀ w := by
  refine stretch_within (A := fun _ => True) (within_awaited ?_ trivial) h
  exact within_init trivial trivial (fun _ => trivial) fun w n => ⟨rfl, rfl, rfl⟩

/-- What is known after the key was set. -/
def JustKeyed (r : Except DartError Unit) (w₀ w : World) : Prop :=
  match r with
  | .ok _ => ∃ w₁ b, Kept w₀ w₁ ∧ w = keyed b w₁
  | .error _ => Kept w₀ w

theorem stretch_setKek (s : Text) (h : Kept w₀ w) :
    (setKek s).stretch KeyStep JustKeyed w₀ w := by
  unfold setKek
  rw [stretch_bind, stretch_done]
  cases base64Decode s with
  | error e => exact h
  | ok b => exact ⟨w, b, h, rfl⟩

theorem stretch_readKek (h : Kept w₀ w) : (readKek P).stretch KeyStep JustKeyed w₀ w := by
  unfold readKek
  rw [stretch_bind]
  apply stretch_call h
  rintro (e | kekString) w₁
  · exact .refl w₁
  dsimp only
  split
  · rw [stretch_bind]
    refine stretch_mono _ ?_ (stretch_init (.refl w₁))
    rintro (e | u) w₂ w₃ h₃
    · exact h₃
    dsimp only
    rw [stretch_bind]
    apply stretch_call h₃
    rintro (e | newKekString) w₄
    · exact .refl w₄
    dsimp only
    rw [stretch_bind, stretch_when]
    exact ⟨fun _ => .refl w₄, fun _ => stretch_setKek _ (.refl w₄)⟩
  · exact stretch_setKek _ (.refl w₁)

/-- Whether the user is recognised or not, at most one key is decoded at a time. -/
theorem stretch_authenticate (reason : Option Text) (w : World) :
    (authenticate P reason).stretch KeyStep (fun _ => KeyStep) w w := by
  have havailable : (awaited (isBiometricAvailable : App Bool)).stretch KeyStep (fun _ => Kept) w w :=
    stretch_within (within_awaited within_isBiometricAvailable trivial) (.refl w)
  unfold authenticate
  rw [stretch_tryCatch]
  refine stretch_mono _ ?_ (?_ : (authenticateBody P reason).stretch KeyStep (fun _ => KeyStep) w w)
  · rintro (e | b) w₀ w h
    · exact (stretch_done _).mpr h
    · exact h
  unfold authenticateBody
  rw [stretch_bind]
  refine stretch_mono _ ?_ havailable
  rintro (e | isAvailable) w₀ w₁ h₁
  · exact .kept h₁
  dsimp only
  rw [stretch_bind, stretch_when]
  refine ⟨fun _ => .kept h₁, fun _ => ?_⟩
  dsimp only
  rw [stretch_bind]
  apply stretch_call h₁
  -- after the prompt another stretch begins
  rintro (e | authenticated) w₂
  · exact .kept (.refl w₂)
  dsimp only
  split
  · exact .kept (.refl w₂)
  · rw [stretch_bind]
    refine stretch_mono _ ?_ (stretch_readKek (.refl w₂))
    rintro (e | u) w₃ w₄ h₄
    · exact .kept h₄
    · obtain ⟨w₅, b, h₅, rfl⟩ := h₄
      -- the key is in memory, so that it is not read again
      exact .opened h₅

theorem stretches_sessions (may : World → Prop) : (sessions P may).Stretches KeyStep := by
  intro i a w
  cases a with
  | authenticate reason =>
    change (do let _ ← AuthService.authenticate P reason : App Unit).stretch _ _ _ _
    rw [stretch_bind]
    refine stretch_mono _ ?_ (stretch_authenticate reason w)
    rintro (e | b) w₀ w h <;> exact h
  | lock => exact .locked w
  | extendSession =>
    change KeyStep w (extended w)
    unfold extended
    split
    · exact .kept ⟨rfl, rfl, rfl⟩
    · exact .kept (.refl w)
  | clearAllData =>
    refine ⟨.locked w, fun r w' => ?_⟩
    cases r <;> exact .kept (.refl w')
  | look => exact .kept (.refl w)
  | tick now => exact .kept ⟨rfl, rfl, rfl⟩

/-! ## Runs -/

/-- The buffers into which a key was decoded, from `n` on, hold only zeros. -/
def Erased (n : ℕ) (w : World) : Prop := ∀ r, n ≤ r → r < w.allocated → ∀ x ∈ w.heap r, x = 0

/-- No key is in use, or one of zeros. -/
def Unused (w : World) : Prop := ∀ r, w.auth._kek = some r → ∀ x ∈ w.heap r, x = 0

/-- The key in use was decoded into a buffer from `n` on. -/
def Placed (n : ℕ) (w : World) : Prop := ∀ r, w.auth._kek = some r → n ≤ r ∧ r < w.allocated

/-- The buffers that are not in use hold only zeros. -/
def Owned (n : ℕ) (w : World) : Prop :=
  ∀ r, n ≤ r → r < w.allocated → w.auth._kek ≠ some r → ∀ x ∈ w.heap r, x = 0

theorem zeroed_kek {r : Ref} (h : w.auth._kek = some r) : ∀ x ∈ zeroed w r, x = 0 := by
  unfold zeroed
  rw [h]
  dsimp only
  rw [Function.update_self]
  exact fun x hx => List.eq_of_mem_replicate hx

theorem zeroed_of_ne {r : Ref} (h : w.auth._kek ≠ some r) : zeroed w r = w.heap r := by
  unfold zeroed
  cases hk : w.auth._kek with
  | none => rfl
  | some r' =>
    refine Function.update_of_ne ?_ _ _
    rintro rfl
    exact h hk

/-- A lock leaves the buffers that are not in use. -/
theorem erased_locked_iff : Erased n (locked w) ↔ Owned n w := by
  constructor
  · intro h r hn hr hk x hx
    refine h r hn hr x ?_
    change x ∈ zeroed w r
    rwa [zeroed_of_ne hk]
  · intro h r hn hr x hx
    change x ∈ zeroed w r at hx
    by_cases hk : w.auth._kek = some r
    · exact zeroed_kek hk x hx
    · rw [zeroed_of_ne hk] at hx
      exact h r hn hr hk x hx

theorem KeyStep.placed (h : KeyStep w w') (hle : n ≤ w.allocated) (hp : Placed n w) :
    Placed n w' ∧ n ≤ w'.allocated := by
  cases h with
  | kept h =>
    unfold Placed
    rw [h.kek, h.allocated]
    exact ⟨hp, hle⟩
  | erased heap allocated kek =>
    rw [allocated]
    exact ⟨fun r hr => absurd (kek.symm.trans hr) nofun, hle⟩
  | decoded b heap allocated kek =>
    rw [allocated]
    refine ⟨fun r hr => ?_, Nat.le_succ_of_le hle⟩
    obtain rfl : w.allocated = r := Option.some.inj (kek.symm.trans hr)
    rw [allocated]
    exact ⟨hle, Nat.lt_succ_self _⟩

/-- **The buffers that are not in use stay erased** in a step exactly when no key is decoded while
one is in use. -/
theorem KeyStep.owned_iff (h : KeyStep w w') (hp : Placed n w) (ho : Owned n w) :
    Owned n w' ↔ (w.allocated < w'.allocated → Unused w) := by
  cases h with
  -- nothing about keys has changed
  | kept h =>
    refine iff_of_true ?_ fun hlt => absurd (h.allocated ▸ hlt) (Nat.lt_irrefl _)
    unfold Owned
    rw [h.heap, h.kek, h.allocated]
    exact ho
  -- `lock` overwrites the buffer in use before it is dropped
  | erased heap allocated kek =>
    refine iff_of_true ?_ fun hlt => absurd (allocated ▸ hlt) (Nat.lt_irrefl _)
    intro r hn hr _ x hx
    rw [heap] at hx
    rw [allocated] at hr
    exact erased_locked_iff.mpr ho r hn hr x hx
  -- a new buffer comes into use, and the last one is nobody's
  | decoded b heap allocated kek =>
    have hheap {r : Ref} (hr : r < w.allocated) : w'.heap r = w.heap r := by
      rw [heap, Function.update_of_ne (Nat.ne_of_lt hr)]
    constructor
    · intro ho' _ r hr x hx
      -- the buffer that was in use is no longer
      obtain ⟨hn, hlt⟩ := hp r hr
      refine ho' r hn (allocated ▸ Nat.lt_succ_of_lt hlt) ?_ x (hheap hlt ▸ hx)
      rw [kek]
      intro he
      exact absurd (Option.some.inj he) (Nat.ne_of_gt hlt)
    · intro hu r hn hr hk x hx
      have hne : r ≠ w.allocated := by
        rintro rfl
        exact hk kek
      have hlt : r < w.allocated := by omega
      rw [hheap hlt] at hx
      by_cases hr' : w.auth._kek = some r
      · exact hu (by omega) r hr' x hx
      · exact ho r hn hlt hr' x hx

/-- **A lock erases every copy of the key**, at whatever moment of a run it comes, exactly when
never a key was decoded while another one was in use. -/
theorem erased_iff {may : World → Prop} {ss : List (World × World)} {c : (sessions P may).Config}
    (h₀ : w₀.auth._kek = none) (h : System.Run _ w₀ ss c) :
    (∀ s ∈ ss, Erased w₀.allocated (locked s.2)) ↔
      ∀ s ∈ ss, s.1.allocated < s.2.allocated → Unused s.1 := by
  have hsteps := ((stretches_sessions may).run h).2
  have hstep (s : World × World) (hs : s ∈ ss) : KeyStep s.1 s.2 := by
    rcases hsteps s hs with hk | ⟨op, o, he⟩ | hc
    · exact hk
    · rw [he]
      exact .kept (kept_exec s.1 op o)
    · exact hc.elim
  -- the last world is as wanted if all are, and all if every step is
  suffices hall : Placed w₀.allocated c.world ∧ w₀.allocated ≤ c.world.allocated ∧
      ((∀ s ∈ ss, Owned w₀.allocated s.2) → Owned w₀.allocated c.world) ∧
      ((∀ s ∈ ss, Owned w₀.allocated s.2) ↔
        ∀ s ∈ ss, s.1.allocated < s.2.allocated → Unused s.1) by
    simpa only [erased_locked_iff] using hall.2.2.2
  clear hsteps
  induction h with
  -- no key has been in memory yet
  | idle =>
    have hnone {r : Ref} (hr : w₀.auth._kek = some r) : False := by
      rw [h₀] at hr
      cases hr
    refine ⟨fun r hr => (hnone hr).elim, Nat.le_refl _, fun _ r hn hr => ?_,
      iff_of_true (List.forall_mem_nil _) (List.forall_mem_nil _)⟩
    exact absurd hr (Nat.not_lt.mpr hn)
  | @step ss c c' _ hs ih =>
    obtain ⟨hp, hle, ho, hiff⟩ := ih fun s hs => hstep s (List.mem_cons_of_mem _ hs)
    have hk := hstep _ List.mem_cons_self
    obtain ⟨hp', hle'⟩ := hk.placed hle hp
    refine ⟨hp', hle', fun hall => hall _ List.mem_cons_self, ?_⟩
    rw [List.forall_mem_cons, List.forall_mem_cons, ← hiff]
    constructor
    · rintro ⟨ho', hall⟩
      exact ⟨(hk.owned_iff hp (ho hall)).mp ho', hall⟩
    · rintro ⟨hu, hall⟩
      exact ⟨(hk.owned_iff hp (ho hall)).mpr hu, hall⟩

/-! ## A copy that is not erased -/

/-- The user is recognised again after the session has expired. -/
def twice : List SessionAction := [.authenticate none, .tick later, .authenticate none]

@[irreducible] def twiceConfig : (sessions (.sample .marked) fun _ => True).Config :=
  System.play _ usual twice 0 (.idle (.sample [] []))

theorem reachable_twiceConfig : System.Reachable _ (World.sample [] []) twiceConfig := by
  unfold twiceConfig
  apply System.steps_play
  · exact fun _ _ => trivial
  · exact fun _ _ _ => trivial
  · exact fun _ _ => rfl
  · have hle : authenticated.now.micros ≤ later.micros := by decide +kernel
    exact ⟨trivial, hle, trivial, trivial⟩

theorem erased_iff_twice : ∃ ss, System.Run _ (World.sample [] []) ss twiceConfig ∧
    ((∀ s ∈ ss, Erased 1 (locked s.2)) ↔
      ∀ s ∈ ss, s.1.allocated < s.2.allocated → Unused s.1) := by
  obtain ⟨ss, hss⟩ := System.Run.of_steps reachable_twiceConfig
  exact ⟨ss, hss, erased_iff rfl hss⟩

/-- The buffer of the first authentication still holds the key when the lock returns. -/
theorem lock_leaves_copy : ∃ c c' : (sessions (.sample .marked) fun _ => True).Config,
    System.Reachable _ (World.sample [] []) c ∧ System.Step _ c c' ∧
      c' = c.update 3 SessionAction.lock (.finished, locked c.world) ∧
      (World.sample [] []).auth._kek = none ∧ ¬ Erased 1 c'.world := by
  have hfree : twiceConfig.threads 3 = none := by
    unfold twiceConfig
    rfl
  refine ⟨twiceConfig, _, reachable_twiceConfig, step_of_enabled _ 3 .lock hfree trivial, rfl, rfl,
    fun h => ?_⟩
  have hcopy : (1 : UInt8) ∈ zeroed twiceConfig.world 1 ∧ 1 < twiceConfig.world.allocated := by
    unfold twiceConfig
    decide +kernel
  exact absurd (h 1 (Nat.le_refl 1) hcopy.2 1 hcopy.1) (by decide)

end AuthService

end CajaSegura
