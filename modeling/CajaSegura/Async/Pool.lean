import CajaSegura.Async.Execution
import Mathlib.Logic.Function.Basic

/-!
# Pools of programs

Programs that run in one process interleave at their awaits. A system says which programs may be
started and when, which outcomes their operations may have, when replies are delivered, and what a
death of the process leaves. Every order of starts, effects, deliveries and deaths is a run.

## Main definitions

* `Thread`, `settle`: a suspended program, and the synchronous part before the next await
* `System`, `Config`, `System.Step`, `System.Steps`: interleavings
* `System.Sound`: disciplines under which the programs of a system run together
* `System.keeping`: the discipline of programs that rely on nothing
* `System.during`: the same programs, with operations in certain worlds only
* `System.play`: programs run one after another, which computes
* `System.advance`: one program runs up to some await, which computes

## Main results

* `System.Sound.steps`: along every run the invariant holds, every suspended program keeps its
  precondition, and the world changes only by steps in the guarantees
* `System.Sound.keeps`: what every step keeps is kept along a run
* `System.Sound.invariant`: the invariant holds in every world reached from an idle one
* `System.sound_keeping`: programs that rely on nothing but the invariant at their start
* `System.steps_during`: the operations of a run take effect in its worlds
* `System.steps_carried`: a program that runs along an oracle whose outcomes have been checked
* `System.steps_run`, `System.steps_play`: programs that run one after another along an oracle
* `System.steps_advance_within`, `System.steps_advance`: a program that runs up to some await along
  an oracle
-/

namespace Async

variable {W ε Op : Type} {Reply : Op → Type} {E : Environment W ε Op Reply}

/-- A program as its process holds it between two steps. -/
inductive Thread (W ε Op : Type) (Reply : Op → Type) : Type
  | waiting (op : Op) (k : Except ε (Reply op) → Program W ε Op Reply Unit)
  | answered (op : Op) (r : Except ε (Reply op)) (p : Program W ε Op Reply Unit)
  | finished

def Thread.isFinished : Thread W ε Op Reply → Bool
  | .finished => true
  | _ => false

theorem Thread.eq_finished {t : Thread W ε Op Reply} (h : t.isFinished = true) : t = .finished := by
  cases t with
  | waiting op k => cases h
  | answered op r p => cases h
  | finished => rfl

/-- The synchronous part of a program: what is left of it at its next await, and the world. -/
def settle : Program W ε Op Reply Unit → W → Thread W ε Op Reply × W
  | .ret _, w => (.finished, w)
  | .fail _, w => (.finished, w)
  | .read k, w => settle (k w) w
  | .write f k, w => settle k (f w)
  | .await op k, w => (.waiting op k, w)

/-- The programs of a process. An action names a program and `enabled` the worlds in which it may
be started; the first argument of `program` is the thread that runs it. -/
structure System (E : Environment W ε Op Reply) where
  Action : Type
  program : ℕ → Action → Program W ε Op Reply Unit
  enabled : W → Action → Prop
  allow : W → (op : Op) → E.Outcome op → Prop
  deliver : W → (op : Op) → Except ε (Reply op) → Prop
  crash : W → W → Prop

namespace System

variable {S : System E}

/-- The world and the threads of a process. -/
structure Config (S : System E) where
  world : W
  threads : ℕ → Option (S.Action × Thread W ε Op Reply)

/-- A process without threads. -/
def Config.idle (w : W) : S.Config := ⟨w, fun _ => none⟩

/-- The thread `i` and the world after it ran. -/
def Config.update (c : S.Config) (i : ℕ) (a : S.Action) (x : Thread W ε Op Reply × W) : S.Config :=
  ⟨x.2, Function.update c.threads i (some (a, x.1))⟩

inductive Step (S : System E) : S.Config → S.Config → Prop
  | start {c : S.Config} (i : ℕ) (a : S.Action) (hi : c.threads i = none)
      (ha : S.enabled c.world a) : Step S c (c.update i a (settle (S.program i a) c.world))
  | effect {c : S.Config} {i : ℕ} {a : S.Action} {op : Op}
      {k : Except ε (Reply op) → Program W ε Op Reply Unit} (o : E.Outcome op)
      (hi : c.threads i = some (a, .waiting op k)) (ho : S.allow c.world op o) :
      Step S c (c.update i a
        (.answered op (E.exec c.world op o).1 (k (E.exec c.world op o).1),
          (E.exec c.world op o).2))
  | deliver {c : S.Config} {i : ℕ} {a : S.Action} {op : Op} {r : Except ε (Reply op)}
      {p : Program W ε Op Reply Unit} (hi : c.threads i = some (a, .answered op r p))
      (hd : S.deliver c.world op r) :
      Step S c (c.update i a (settle p c.world))
  | crash {c : S.Config} {w' : W} (hc : S.crash c.world w') : Step S c (.idle w')

def Steps (S : System E) : S.Config → S.Config → Prop := Relation.ReflTransGen S.Step

/-- The worlds of the runs from an idle process. -/
def Reachable (S : System E) (w₀ : W) (c : S.Config) : Prop := S.Steps (.idle w₀) c

/-- Disciplines, one for each thread and action, under which the programs of a system run together
and keep an invariant. -/
structure Sound (S : System E) (D : ℕ → S.Action → Discipline E) (Inv : W → Prop) : Prop where
  allow : ∀ i a w op o, Inv w → S.allow w op o → (D i a).allow w op o
  deliver : ∀ i a w op r, Inv w → S.deliver w op r → (D i a).deliver w op r
  rely_refl : ∀ i a w, Inv w → (D i a).rely w w
  rely_trans : ∀ i a w₁ w₂ w₃, (D i a).rely w₁ w₂ → (D i a).rely w₂ w₃ → (D i a).rely w₁ w₃
  compat : ∀ i j a b w w', i ≠ j → Inv w → (D i a).guarantee w w' → (D j b).rely w w'
  inv : ∀ i a w w', Inv w → (D i a).guarantee w w' → Inv w'
  start : ∀ i a w, Inv w → S.enabled w a → (S.program i a).wp (D i a) (fun _ _ => True) w
  crash : ∀ w w', Inv w → S.crash w w' → Inv w'

/-- The changes of the world that a system can make. -/
def Change (S : System E) (D : ℕ → S.Action → Discipline E) (w w' : W) : Prop :=
  (∃ i a, (D i a).guarantee w w') ∨ S.crash w w'

/-- What a suspended program still has to meet. -/
def Meets (D : Discipline E) (w : W) : Thread W ε Op Reply → Prop
  | .waiting op k => (Program.await op k).wp D (fun _ _ => True) w
  | .answered op r p => ∀ w', D.rely w w' → D.deliver w' op r → p.wp D (fun _ _ => True) w'
  | .finished => True

/-- The invariant, and what every thread still has to meet. -/
structure Ok (D : ℕ → S.Action → Discipline E) (Inv : W → Prop) (c : S.Config) : Prop where
  inv : Inv c.world
  meets : ∀ i a t, c.threads i = some (a, t) → Meets (D i a) c.world t

variable {D : ℕ → S.Action → Discipline E} {Inv : W → Prop}

theorem Ok.idle {w : W} (h : Inv w) : Ok D Inv (Config.idle w : S.Config) :=
  ⟨h, fun _ _ _ ht => nomatch ht⟩

/-- What others change leaves a suspended program what it has to meet. -/
theorem Sound.meets_rely (hS : S.Sound D Inv) {i : ℕ} {a : S.Action} {w w' : W}
    (hr : (D i a).rely w w') {t : Thread W ε Op Reply} (ht : Meets (D i a) w t) :
    Meets (D i a) w' t := by
  cases t with
  | waiting op k =>
    intro w₁ h₁
    apply ht w₁
    exact hS.rely_trans i a _ _ _ hr h₁
  | answered op r p =>
    intro w₁ h₁
    apply ht w₁
    exact hS.rely_trans i a _ _ _ hr h₁
  | finished => trivial

/-- The steps of a thread keep the invariant and lie in what the other threads rely on. -/
theorem Sound.guarantees (hS : S.Sound D Inv) {i : ℕ} {a : S.Action} {w w' : W} (hw : Inv w)
    (h : Relation.ReflTransGen (D i a).guarantee w w') :
    Inv w' ∧ (∀ j b, i ≠ j → (D j b).rely w w') ∧ Relation.ReflTransGen (S.Change D) w w' := by
  induction h with
  | refl => exact ⟨hw, fun j b _ => hS.rely_refl j b w hw, .refl⟩
  | @tail w₁ w₂ _ hg ih =>
    obtain ⟨hi, hr, hc⟩ := ih
    refine ⟨hS.inv i a _ _ hi hg, fun j b hij => ?_, hc.tail (.inl ⟨i, a, hg⟩)⟩
    exact hS.rely_trans j b _ _ _ (hr j b hij) (hS.compat i j a b _ _ hij hi hg)

/-- The synchronous part of a program that meets its discipline. -/
theorem settle_meets {D : Discipline E} {p : Program W ε Op Reply Unit} {w : W}
    (h : p.wp D (fun _ _ => True) w) :
    Relation.ReflTransGen D.guarantee w (settle p w).2 ∧ Meets D (settle p w).2 (settle p w).1 := by
  induction p generalizing w with
  | ret a => exact ⟨.refl, trivial⟩
  | fail e => exact ⟨.refl, trivial⟩
  | read k ih => exact ih w h
  | write f k ih =>
    obtain ⟨hc, hm⟩ := ih h.2
    exact ⟨.head h.1 hc, hm⟩
  | await op k ih => exact ⟨.refl, h⟩

/-- One thread runs and the others are left what they have to meet. -/
theorem Sound.update (hS : S.Sound D Inv) {c : S.Config} (hc : Ok D Inv c) {i : ℕ} {a : S.Action}
    {x : Thread W ε Op Reply × W} (hg : Relation.ReflTransGen (D i a).guarantee c.world x.2)
    (hx : Meets (D i a) x.2 x.1) :
    Ok D Inv (c.update i a x) ∧ Relation.ReflTransGen (S.Change D) c.world x.2 := by
  obtain ⟨hi, hr, hch⟩ := hS.guarantees hc.inv hg
  refine ⟨⟨hi, fun j b t ht => ?_⟩, hch⟩
  by_cases hij : j = i
  · subst hij
    have h : some (a, x.1) = some (b, t) := by
      rw [← ht]
      exact (Function.update_self j (some (a, x.1)) c.threads).symm
    obtain ⟨rfl, rfl⟩ : a = b ∧ x.1 = t := by simpa using h
    exact hx
  · have h : c.threads j = some (b, t) := by
      rw [← ht]
      exact (Function.update_of_ne hij (some (a, x.1)) c.threads).symm
    exact hS.meets_rely (hr j b (Ne.symm hij)) (hc.meets j b t h)

theorem Sound.step (hS : S.Sound D Inv) {c c' : S.Config} (hc : Ok D Inv c) (h : S.Step c c') :
    Ok D Inv c' ∧ Relation.ReflTransGen (S.Change D) c.world c'.world := by
  cases h with
  | start i a hi ha =>
    obtain ⟨hg, hm⟩ := settle_meets (hS.start i a _ hc.inv ha)
    exact hS.update hc hg hm
  | @effect i a op k o hi ho =>
    have hm := hc.meets i a _ hi c.world (hS.rely_refl i a _ hc.inv) o
      (hS.allow i a _ op o hc.inv ho)
    exact hS.update hc (.single hm.1) hm.2
  | @deliver i a op r p hi hd =>
    have hm := hc.meets i a _ hi c.world (hS.rely_refl i a _ hc.inv)
      (hS.deliver i a _ op r hc.inv hd)
    obtain ⟨hg, hm⟩ := settle_meets hm
    exact hS.update hc hg hm
  | crash hw => exact ⟨Ok.idle (hS.crash _ _ hc.inv hw), .single (.inr hw)⟩

/-- Along a run the invariant and the preconditions of the threads are kept, and the world changes
only as the guarantees say. -/
theorem Sound.steps (hS : S.Sound D Inv) {c c' : S.Config} (hc : Ok D Inv c) (h : S.Steps c c') :
    Ok D Inv c' ∧ Relation.ReflTransGen (S.Change D) c.world c'.world := by
  induction h with
  | refl => exact ⟨hc, .refl⟩
  | tail _ hs ih =>
    obtain ⟨hok, hch⟩ := ih
    obtain ⟨hok', hch'⟩ := hS.step hok hs
    exact ⟨hok', hch.trans hch'⟩

/-- What the steps of all threads keep is kept along a run. -/
theorem Sound.keeps (hS : S.Sound D Inv) {c c' : S.Config} (hc : Ok D Inv c) (h : S.Steps c c')
    {Q : W → Prop} (hQ : ∀ i a w w', (D i a).guarantee w w' → Q w → Q w')
    (hcrash : ∀ w w', S.crash w w' → Q w → Q w') (hw : Q c.world) : Q c'.world := by
  have hch := (hS.steps hc h).2
  generalize c'.world = w' at hch
  induction hch with
  | refl => exact hw
  | tail _ hstep ih =>
    rcases hstep with ⟨i, a, hg⟩ | hr
    · exact hQ i a _ _ hg ih
    · exact hcrash _ _ hr ih

/-- The invariant holds in every world reached from an idle process. -/
theorem Sound.invariant (hS : S.Sound D Inv) {w₀ : W} (h₀ : Inv w₀) {c : S.Config}
    (h : S.Reachable w₀ c) : Inv c.world :=
  (hS.steps (Ok.idle h₀) h).1.inv

/-! ## Programs that rely on nothing -/

/-- A program beside which anything may happen, and whose steps are in `G`. -/
def keeping (S : System E) (G : W → W → Prop) : Discipline E where
  allow := S.allow
  deliver := S.deliver
  rely := fun _ _ => True
  guarantee := G

/-- Programs whose steps keep the invariant when it holds at their start. -/
theorem sound_keeping {G : W → W → Prop} (hG : ∀ w w', Inv w → G w w' → Inv w')
    (hstart : ∀ i a w, Inv w → S.enabled w a →
      (S.program i a).wp (S.keeping G) (fun _ _ => True) w)
    (hcrash : ∀ w w', Inv w → S.crash w w' → Inv w') :
    S.Sound (fun _ _ => S.keeping G) Inv where
  allow _ _ _ _ _ _ h := h
  deliver _ _ _ _ _ _ h := h
  rely_refl _ _ _ _ := trivial
  rely_trans _ _ _ _ _ _ _ := trivial
  compat _ _ _ _ _ _ _ _ _ := trivial
  inv _ _ w w' hw h := hG w w' hw h
  start := hstart
  crash := hcrash

/-! ## What a run says of its operations -/

/-- The same programs, whose operations take effect in worlds of `H` only. -/
def during (S : System E) (H : W → Prop) : System E :=
  { S with allow := fun w op o => H w ∧ S.allow w op o }

/-- The same process. -/
def Config.during (c : S.Config) (H : W → Prop) : (S.during H).Config := ⟨c.world, c.threads⟩

theorem Step.during {H : W → Prop} {c c' : S.Config} (h : S.Step c c') (hc : H c.world) :
    (S.during H).Step (c.during H) (c'.during H) := by
  cases h with
  | start i a hi ha => exact .start (S := S.during H) i a hi ha
  | effect o hi ho => exact .effect (S := S.during H) o hi ⟨hc, ho⟩
  | deliver hi hd => exact .deliver (S := S.during H) hi hd
  | crash hw => exact .crash (S := S.during H) hw

/-- The operations of a run take effect in the worlds of the run. -/
theorem steps_during {H : W → Prop} {c c' : S.Config} (h : S.Steps c c')
    (hH : ∀ c₁, S.Steps c c₁ → S.Steps c₁ c' → H c₁.world) :
    (S.during H).Steps (c.during H) (c'.during H) := by
  induction h with
  | refl => exact .refl
  | @tail c₁ c₂ hsteps hstep ih =>
    have hbefore := ih fun c₀ h₀ h₁ => hH c₀ h₀ (h₁.tail hstep)
    exact hbefore.tail (hstep.during (hH c₁ hsteps (.single hstep)))

/-! ## Runs of one program after another -/

variable (S) in
/-- The outcome is allowed, and delivered at once. -/
def Answers (w : W) (op : Op) (o : E.Outcome op) : Prop :=
  S.allow w op o ∧ S.deliver (E.exec w op o).2 op (E.exec w op o).1

/-- The thread `i` runs to its end along an oracle while the others wait. -/
theorem steps_along {oracle : ℕ → (op : Op) → E.Outcome op} {p : Program W ε Op Reply Unit}
    (c : S.Config) (i : ℕ) (a : S.Action) {n : ℕ} {w : W} (h : p.Along E S.Answers oracle n w) :
    S.Steps (c.update i a (settle p w)) (c.update i a (.finished, (p.run E oracle n w).2)) := by
  have hupdate (x y : Thread W ε Op Reply × W) :
      (c.update i a x).update i a y = c.update i a y := by
    unfold Config.update
    simp only [Function.update_idem]
  have hself (x : Thread W ε Op Reply × W) : (c.update i a x).threads i = some (a, x.1) :=
    Function.update_self ..
  induction p generalizing n w with
  | ret x => exact .refl
  | fail e => exact .refl
  | read k ih => exact ih w h
  | write f k ih => exact ih h
  | await op k ih =>
    obtain ⟨⟨hallow, hdeliver⟩, h⟩ := h
    have he := Step.effect (oracle n op) (hself (.waiting op k, w)) hallow
    have hr := Step.deliver (hself (.answered op (E.exec w op (oracle n op)).1
      (k (E.exec w op (oracle n op)).1), (E.exec w op (oracle n op)).2)) hdeliver
    rw [hupdate] at he hr
    exact .head he (.head hr (ih _ h))

/-- An assertion `T` that the program keeps may be used to see that the outcomes are allowed and
delivered. -/
theorem along_of_within {A : Op → Prop} {G : W → W → Prop} {T : W → Prop}
    {oracle : ℕ → (op : Op) → E.Outcome op} (ha : ∀ n w op, T w → A op → S.allow w op (oracle n op))
    (hd : ∀ w op r, T w → A op → S.deliver w op r)
    (hT : ∀ n w op, T w → A op → T (E.exec w op (oracle n op)).2)
    (hG : ∀ w w', G w w' → T w → T w') {p : Program W ε Op Reply Unit} (hp : p.Within A G)
    (n : ℕ) {w : W} (hw : T w) : p.Along E S.Answers oracle n w := by
  induction p generalizing n w with
  | ret x => trivial
  | fail e => trivial
  | read k ih => exact ih w (hp w) n hw
  | write f k ih => exact ih hp.2 n (hG _ _ (hp.1 w) hw)
  | await op k ih =>
    have hw' := hT n w op hw hp.1
    exact ⟨⟨ha n w op hw hp.1, hd _ op _ hw' hp.1⟩, ih _ (hp.2 _) (n + 1) hw'⟩

/-- An action that is carried out along an oracle. -/
theorem steps_carried {oracle : ℕ → (op : Op) → E.Outcome op} {c : S.Config} {i : ℕ} {a : S.Action}
    (hi : c.threads i = none) (he : S.enabled c.world a)
    (h : (S.program i a).Along E S.Answers oracle 0 c.world) :
    S.Steps c (c.update i a (.finished, ((S.program i a).run E oracle 0 c.world).2)) :=
  .head (.start i a hi he) (steps_along c i a h)

theorem steps_run {A : Op → Prop} {G : W → W → Prop} {T : W → Prop}
    {oracle : ℕ → (op : Op) → E.Outcome op} (ha : ∀ n w op, T w → A op → S.allow w op (oracle n op))
    (hd : ∀ w op r, T w → A op → S.deliver w op r)
    (hT : ∀ n w op, T w → A op → T (E.exec w op (oracle n op)).2)
    (hG : ∀ w w', G w w' → T w → T w') {c : S.Config} {i : ℕ} {a : S.Action}
    (hp : (S.program i a).Within A G) (hi : c.threads i = none) (he : S.enabled c.world a)
    (hw : T c.world) :
    S.Steps c (c.update i a (.finished, ((S.program i a).run E oracle 0 c.world).2)) :=
  steps_carried hi he (along_of_within ha hd hT hG hp 0 hw)

variable (S) in
/-- The actions one after another from the thread `i` on, each to its end along the oracle. -/
def play (oracle : (op : Op) → E.Outcome op) : List S.Action → ℕ → S.Config → S.Config
  | [], _, c => c
  | a :: as, i, c => play oracle as (i + 1)
      (c.update i a (.finished, ((S.program i a).run E (fun _ => oracle) 0 c.world).2))

variable (S) in
/-- Each action may be started when those before it have ended. -/
def Playable (oracle : (op : Op) → E.Outcome op) : List S.Action → ℕ → S.Config → Prop
  | [], _, _ => True
  | a :: as, i, c => S.enabled c.world a ∧ Playable oracle as (i + 1)
      (c.update i a (.finished, ((S.program i a).run E (fun _ => oracle) 0 c.world).2))

theorem steps_play {oracle : (op : Op) → E.Outcome op} (ha : ∀ w op, S.allow w op (oracle op))
    (hd : ∀ w op r, S.deliver w op r) {as : List S.Action} {i : ℕ} {c : S.Config}
    (hfree : ∀ j, i ≤ j → c.threads j = none) (hp : S.Playable oracle as i c) :
    S.Steps c (S.play oracle as i c) := by
  induction as generalizing i c with
  | nil => exact .refl
  | cons a as ih =>
    have hrun := steps_run (S := S) (T := fun _ => True) (fun _ w op _ _ => ha w op)
      (fun w op r _ _ => hd w op r) (fun _ _ _ _ _ => trivial) (fun _ _ _ _ => trivial)
      (Program.Within.all (S.program i a)) (hfree i (Nat.le_refl i)) hp.1 trivial
    refine hrun.trans (ih (fun j hj => ?_) hp.2)
    have hne : j ≠ i := by omega
    have hthread := hfree j (by omega)
    rw [← hthread]
    exact Function.update_of_ne hne ..

variable (S) in
/-- The next `n` awaits of the thread `i`, along the oracle and undisturbed. -/
def advance (oracle : (op : Op) → E.Outcome op) (i : ℕ) : ℕ → S.Config → S.Config
  | 0, c => c
  | n + 1, c =>
    match c.threads i with
    | some (a, .waiting op k) => advance oracle i n
        (c.update i a (settle (k (E.exec c.world op (oracle op)).1)
          (E.exec c.world op (oracle op)).2))
    | _ => c

theorem settle_within {A : Op → Prop} {G : W → W → Prop} {p : Program W ε Op Reply Unit}
    (hp : p.Within A G) {w : W} {op : Op} {k : Except ε (Reply op) → Program W ε Op Reply Unit}
    (h : (settle p w).1 = .waiting op k) : (Program.await op k).Within A G := by
  induction p generalizing w with
  | ret x => cases h
  | fail e => cases h
  | read p ih => exact ih w (hp w) h
  | write f p ih => exact ih hp.2 h
  | await op' k' ih =>
    cases h
    exact hp

variable (S) in
theorem threads_advance (oracle : (op : Op) → E.Outcome op) {i j : ℕ} (hij : j ≠ i) (n : ℕ)
    (c : S.Config) : (S.advance oracle i n c).threads j = c.threads j := by
  induction n generalizing c with
  | zero => rfl
  | succ n ih =>
    rw [advance]
    split
    · exact (ih _).trans (Function.update_of_ne hij ..)
    · rfl

/-- Every suspended program is of operations in `A` and writes in `G`. -/
def Config.Within (A : Op → Prop) (G : W → W → Prop) (c : S.Config) : Prop :=
  ∀ i a op k, c.threads i = some (a, .waiting op k) → (Program.await op k).Within A G

section Within

variable {A : Op → Prop} {G : W → W → Prop} {oracle : (op : Op) → E.Outcome op} {c : S.Config}

theorem Config.Within.idle (w : W) : (Config.idle w : S.Config).Within A G :=
  fun _ _ _ _ h => nomatch h

theorem Config.Within.update (hc : c.Within A G) (i : ℕ) (a : S.Action)
    {p : Program W ε Op Reply Unit} (hp : p.Within A G) (w : W) :
    (c.update i a (settle p w)).Within A G := by
  intro j b op k h
  by_cases hij : j = i
  · subst hij
    have hself := (Function.update_self ..).symm.trans h
    exact settle_within hp (Prod.mk.inj (Option.some.inj hself)).2
  · exact hc j b op k ((Function.update_of_ne hij ..).symm.trans h)

theorem Config.Within.advance (hc : c.Within A G) (i n : ℕ) :
    (S.advance oracle i n c).Within A G := by
  induction n generalizing c with
  | zero => exact hc
  | succ n ih =>
    rw [System.advance]
    split
    case h_2 => exact hc
    case h_1 a op k hi => exact ih (hc.update i a ((hc i a op k hi).2 _) _)

theorem steps_advance_within (ha : ∀ w op, A op → S.allow w op (oracle op))
    (hd : ∀ w op r, A op → S.deliver w op r) (i n : ℕ) (hc : c.Within A G) :
    S.Steps c (S.advance oracle i n c) := by
  induction n generalizing c with
  | zero => exact .refl
  | succ n ih =>
    rw [System.advance]
    split
    case h_2 => exact .refl
    case h_1 a op k hi =>
      have hself (x : Thread W ε Op Reply × W) : (c.update i a x).threads i = some (a, x.1) :=
        Function.update_self ..
      have hp := hc i a op k hi
      have heffect := Step.effect (oracle op) hi (ha c.world op hp.1)
      have hdeliver := Step.deliver (hself (.answered op (E.exec c.world op (oracle op)).1
        (k (E.exec c.world op (oracle op)).1), (E.exec c.world op (oracle op)).2)) (hd _ op _ hp.1)
      unfold Config.update at hdeliver
      rw [Function.update_idem] at hdeliver
      exact .head heffect (.head hdeliver (ih (hc.update i a (hp.2 _) _)))

end Within

theorem steps_advance {oracle : (op : Op) → E.Outcome op}
    (ha : ∀ w op, S.allow w op (oracle op)) (hd : ∀ w op r, S.deliver w op r) (i n : ℕ)
    (c : S.Config) : S.Steps c (S.advance oracle i n c) :=
  steps_advance_within (G := fun _ _ => True) (fun w op _ => ha w op) (fun w op r _ => hd w op r) i n
    fun _ _ _ _ _ => Program.Within.all _

end System

end Async
