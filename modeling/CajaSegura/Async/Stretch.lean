import CajaSegura.Async.Pool
import CajaSegura.Async.Within

/-!
# What happens between two awaits

A program that has been resumed runs to its next await without being interrupted. Such a stretch is
one step of a run, however many writes it makes.

## Main definitions

* `Program.stretch R p`: the stretches of `p` are in `R`
* `System.Stretches R`: so are those of all programs of a system
* `System.Run`: a run with the worlds before and after each of its steps

## Main results

* `Program.stretch_handle`, `Program.stretch_mono`, `Program.Within.stretch`: closure
* `System.Stretches.step`: a step is a stretch, an operation or a crash
* `System.Run.of_steps`: every run has its steps
-/

namespace Async

variable {W ε Op : Type} {Reply : Op → Type} {E : Environment W ε Op Reply} {α β : Type}

namespace Program

variable {R T G : W → W → Prop} {A : Op → Prop} {Q : Except ε α → W → W → Prop} {w₀ w : W}

/-- `p` was resumed in the world `w₀`, and the world is `w` now: this stretch and those after each
await are in `R`, and `p` ends in `Q`. -/
def stretch (R : W → W → Prop) :
    Program W ε Op Reply α → (Except ε α → W → W → Prop) → W → W → Prop
  | ret a, Q, w₀, w => Q (.ok a) w₀ w
  | fail e, Q, w₀, w => Q (.error e) w₀ w
  | read k, Q, w₀, w => (k w).stretch R Q w₀ w
  | write f k, Q, w₀, w => k.stretch R Q w₀ (f w)
  | await _ k, Q, w₀, w => R w₀ w ∧ ∀ r w', (k r).stretch R Q w' w'

theorem stretch_done (r : Except ε α) :
    (done r : Program W ε Op Reply α).stretch R Q w₀ w ↔ Q r w₀ w := by
  cases r <;> rfl

theorem stretch_handle {Q : Except ε β → W → W → Prop} (p : Program W ε Op Reply α)
    (f : Except ε α → Program W ε Op Reply β) :
    (p.handle f).stretch R Q w₀ w ↔ p.stretch R (fun r w₀ w => (f r).stretch R Q w₀ w) w₀ w := by
  induction p generalizing w₀ w with
  | ret a => rfl
  | fail e => rfl
  | read k ih => exact ih w
  | write g k ih => exact ih
  | await op k ih => exact and_congr_right fun _ => forall₂_congr fun r w' => ih r

theorem stretch_mono {Q' : Except ε α → W → W → Prop} (p : Program W ε Op Reply α)
    (h : ∀ r w₀ w, Q r w₀ w → Q' r w₀ w) : p.stretch R Q w₀ w → p.stretch R Q' w₀ w := by
  induction p generalizing w₀ w with
  | ret a => exact h _ _ _
  | fail e => exact h _ _ _
  | read k ih => exact ih w
  | write g k ih => exact ih
  | await op k ih => exact And.imp_right fun H r w' => ih r (H r w')

theorem stretch_bind {Q : Except ε β → W → W → Prop} {p : Program W ε Op Reply α}
    {f : α → Program W ε Op Reply β} : (p >>= f).stretch R Q w₀ w ↔ p.stretch R (fun
      | .ok a, w₀, w => (f a).stretch R Q w₀ w
      | .error e, w₀, w => Q (.error e) w₀ w) w₀ w := by
  refine (stretch_handle p _).trans (iff_of_eq (congrArg (fun S => p.stretch R S w₀ w) ?_))
  funext r w₀ w
  cases r <;> rfl

theorem stretch_tryCatch {p : Program W ε Op Reply α} {h : ε → Program W ε Op Reply α} :
    (tryCatch p h).stretch R Q w₀ w ↔ p.stretch R (fun
      | .ok a, w₀, w => Q (.ok a) w₀ w
      | .error e, w₀, w => (h e).stretch R Q w₀ w) w₀ w := by
  refine (stretch_handle p _).trans (iff_of_eq (congrArg (fun S => p.stretch R S w₀ w) ?_))
  funext r w₀ w
  cases r <;> rfl

theorem stretch_perform {op : Op} {Q : Except ε (Reply op) → W → W → Prop} :
    (perform op : Program W ε Op Reply (Reply op)).stretch R Q w₀ w ↔
      R w₀ w ∧ ∀ r w', Q r w' w' :=
  and_congr_right fun _ => forall₂_congr fun r _ => stretch_done r

/-- A program whose writes do not leave `T`, which is in `R`. -/
theorem Within.stretch {p : Program W ε Op Reply α} (hp : p.Within A G)
    (hG : ∀ w₀ w w', T w₀ w → G w w' → T w₀ w') (hrefl : ∀ w, T w w) (hR : ∀ w₀ w, T w₀ w → R w₀ w)
    (h : T w₀ w) : p.stretch R (fun _ => T) w₀ w := by
  induction p generalizing w₀ w with
  | ret a => exact h
  | fail e => exact h
  | read k ih => exact ih w (hp w) h
  | write g k ih => exact ih hp.2 (hG _ _ _ h (hp.1 w))
  | await op k ih => exact ⟨hR _ _ h, fun r w' => ih r (hp.2 r) (hrefl w')⟩

end Program

namespace System

variable {S : System E} {R : W → W → Prop} {w₀ : W}

/-- The stretches of all programs are in `R`. -/
def Stretches (S : System E) (R : W → W → Prop) : Prop :=
  ∀ i a w, (S.program i a).stretch R (fun _ => R) w w

/-- The stretches that a suspended program has still to come. -/
def Comes (R : W → W → Prop) : Thread W ε Op Reply → Prop
  | .waiting _ k => ∀ r w, (k r).stretch R (fun _ => R) w w
  | .answered _ _ p => ∀ w, p.stretch R (fun _ => R) w w
  | .finished => True

theorem settle_stretch {p : Program W ε Op Reply Unit} {w : W}
    (h : p.stretch R (fun _ => R) w₀ w) : R w₀ (settle p w).2 ∧ Comes R (settle p w).1 := by
  induction p generalizing w with
  | ret a => exact ⟨h, trivial⟩
  | fail e => exact ⟨h, trivial⟩
  | read k ih => exact ih w h
  | write f k ih => exact ih h
  | await op k ih => exact h

/-- A run, with the worlds before and after each of its steps, the last one first. -/
inductive Run (S : System E) (w₀ : W) : List (W × W) → S.Config → Prop
  | idle : Run S w₀ [] (.idle w₀)
  | step {ss : List (W × W)} {c c' : S.Config} (h : Run S w₀ ss c) (hs : S.Step c c') :
      Run S w₀ ((c.world, c'.world) :: ss) c'

theorem Run.of_steps {c : S.Config} (h : S.Reachable w₀ c) : ∃ ss, S.Run w₀ ss c := by
  induction h with
  | refl => exact ⟨[], .idle⟩
  | tail _ hs ih =>
    obtain ⟨ss, hrun⟩ := ih
    exact ⟨_, hrun.step hs⟩

theorem comes_update {c : S.Config} (hc : ∀ i a t, c.threads i = some (a, t) → Comes R t) {i : ℕ}
    {a : S.Action} {x : Thread W ε Op Reply × W} (hx : Comes R x.1) :
    ∀ j b t, (c.update i a x).threads j = some (b, t) → Comes R t := by
  intro j b t ht
  have ht' : Function.update c.threads i (some (a, x.1)) j = some (b, t) := ht
  by_cases hj : j = i
  · rw [hj, Function.update_self] at ht'
    cases ht'
    exact hx
  · rw [Function.update_of_ne hj] at ht'
    exact hc j b t ht'

/-- A step is a stretch, the effect of an operation, or a crash. -/
theorem Stretches.step (hS : S.Stretches R) {c c' : S.Config}
    (hc : ∀ i a t, c.threads i = some (a, t) → Comes R t) (h : S.Step c c') :
    (∀ i a t, c'.threads i = some (a, t) → Comes R t) ∧
      (R c.world c'.world ∨ (∃ op o, c'.world = (E.exec c.world op o).2) ∨
        S.crash c.world c'.world) := by
  cases h with
  | start i a hi ha =>
    obtain ⟨hr, ht⟩ := settle_stretch (hS i a c.world)
    exact ⟨comes_update hc ht, .inl hr⟩
  | @effect i a op k o hi ho =>
    have hk : Comes R (.waiting op k) := hc i a _ hi
    have ht : Comes R (.answered op (E.exec c.world op o).1 (k (E.exec c.world op o).1)) :=
      fun w => hk _ w
    exact ⟨comes_update hc ht, .inr (.inl ⟨op, o, rfl⟩)⟩
  | deliver hi hd =>
    obtain ⟨hr, ht⟩ := settle_stretch (hc _ _ _ hi c.world)
    exact ⟨comes_update hc ht, .inl hr⟩
  | crash hw => exact ⟨fun _ _ _ ht => (nomatch ht), .inr (.inr hw)⟩

/-- Every step of a run is a stretch, the effect of an operation, or a crash. -/
theorem Stretches.run (hS : S.Stretches R) {ss : List (W × W)} {c : S.Config}
    (h : S.Run w₀ ss c) : (∀ i a t, c.threads i = some (a, t) → Comes R t) ∧
      ∀ s ∈ ss, R s.1 s.2 ∨ (∃ op o, s.2 = (E.exec s.1 op o).2) ∨ S.crash s.1 s.2 := by
  induction h with
  | idle => exact ⟨fun _ _ _ ht => (nomatch ht), List.forall_mem_nil _⟩
  | step _ hs ih =>
    obtain ⟨ht, hstep⟩ := hS.step ih.1 hs
    exact ⟨ht, List.forall_mem_cons.mpr ⟨hstep, ih.2⟩⟩

end System

end Async
