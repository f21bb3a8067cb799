import CajaSegura.Async.Within

/-!
# Executions of one program

The executions of a program under a discipline: to its end, up to a moment at which it is stopped
for good, and against a fixed choice of outcomes, which computes.

## Main definitions

* `Program.Completes`: an execution to the end, with its result and final world
* `Program.Reaches`: a world met at some moment of an execution
* `Program.Returns`: the program ends, and only with the given result
* `Program.run`: the execution along an oracle for the outcomes, undisturbed
* `Program.Along`: what the operations of that execution meet
* `Program.runBeside`: the same while others change the world at chosen moments
* `Discipline.keeping`: the program is asked to keep an assertion

## Main results

* `Program.wp_free_iff`: the weakest precondition is what every completed execution meets
* `Program.wp_completes`, `Program.wp_reaches`: what a weakest precondition says of executions
* `Program.keeps_reaches`: an assertion that is kept holds at every moment
* `Program.completes_run`: an execution along an oracle is an execution
-/

namespace Async

variable {W ε Op : Type} {Reply : Op → Type} {α β : Type} {E : Environment W ε Op Reply}

/-- The discipline does not block operations in `A`: each has an outcome, which is delivered. -/
structure Discipline.Live (D : Discipline E) (A : Op → Prop) : Prop where
  allow : ∀ w op, A op → ∃ o, D.allow w op o
  deliver : ∀ w op r, A op → D.deliver w op r
  rely : ∀ w, D.rely w w

/-- The program is asked to keep the assertion `S` in every step. -/
def Discipline.keeping (D : Discipline E) (S : W → Prop) : Discipline E :=
  { D with guarantee := fun w w' => S w → S w' }

namespace Program

variable {D : Discipline E}

/-- `p`, started in `w`, ends with the result `r` in `w'`. -/
def Completes (D : Discipline E) : Program W ε Op Reply α → W → Except ε α → W → Prop
  | ret a, w, r, w' => r = .ok a ∧ w' = w
  | fail e, w, r, w' => r = .error e ∧ w' = w
  | read k, w, r, w' => (k w).Completes D w r w'
  | write f k, w, r, w' => k.Completes D (f w) r w'
  | await op k, w, r, w' => ∃ w₁, D.rely w w₁ ∧ ∃ o, D.allow w₁ op o ∧
      ∃ w₂, D.rely (E.exec w₁ op o).2 w₂ ∧ D.deliver w₂ op (E.exec w₁ op o).1 ∧
        (k (E.exec w₁ op o).1).Completes D w₂ r w'

/-- `w'` is the world at some moment of an execution of `p` started in `w`. -/
def Reaches (D : Discipline E) : Program W ε Op Reply α → W → W → Prop
  | ret _, w, w' => w' = w
  | fail _, w, w' => w' = w
  | read k, w, w' => (k w).Reaches D w w'
  | write f k, w, w' => w' = w ∨ k.Reaches D (f w) w'
  | await op k, w, w' => D.rely w w' ∨ ∃ w₁, D.rely w w₁ ∧ ∃ o, D.allow w₁ op o ∧
      (D.rely (E.exec w₁ op o).2 w' ∨ ∃ w₂, D.rely (E.exec w₁ op o).2 w₂ ∧
        D.deliver w₂ op (E.exec w₁ op o).1 ∧ (k (E.exec w₁ op o).1).Reaches D w₂ w')

/-- `p`, started in `w`, ends, and only with the result `a`. -/
def Returns (D : Discipline E) (p : Program W ε Op Reply α) (w : W) (a : α) : Prop :=
  (∃ w', p.Completes D w (.ok a) w') ∧ ∀ r w', p.Completes D w r w' → r = .ok a

/-- `p`, started in `w`, ends, and only with an error. -/
def Throws (D : Discipline E) (p : Program W ε Op Reply α) (w : W) : Prop :=
  (∃ e w', p.Completes D w (.error e) w') ∧ ∀ r w', p.Completes D w r w' → ∃ e, r = .error e

/-- The undisturbed execution of a program along an oracle, which gives the outcome of the `n`-th
await. -/
def run (E : Environment W ε Op Reply) (oracle : ℕ → (op : Op) → E.Outcome op) :
    Program W ε Op Reply α → ℕ → W → Except ε α × W
  | ret a, _, w => (.ok a, w)
  | fail e, _, w => (.error e, w)
  | read k, n, w => (k w).run E oracle n w
  | write f k, n, w => k.run E oracle n (f w)
  | await op k, n, w =>
    (k (E.exec w op (oracle n op)).1).run E oracle (n + 1) (E.exec w op (oracle n op)).2

/-- The world that this execution leaves behind when it is cut before the `k`-th await. -/
def runFor (E : Environment W ε Op Reply) (oracle : ℕ → (op : Op) → E.Outcome op) (k : ℕ) :
    Program W ε Op Reply α → ℕ → W → W
  | ret _, _, w => w
  | fail _, _, w => w
  | read p, n, w => (p w).runFor E oracle k n w
  | write f p, n, w => p.runFor E oracle k n (f w)
  | await op p, n, w =>
    if k ≤ n then w
    else (p (E.exec w op (oracle n op)).1).runFor E oracle k (n + 1) (E.exec w op (oracle n op)).2

/-- Every operation of the execution meets `A` where it takes effect. -/
def Along (E : Environment W ε Op Reply) (A : W → (op : Op) → E.Outcome op → Prop)
    (oracle : ℕ → (op : Op) → E.Outcome op) : Program W ε Op Reply α → ℕ → W → Prop
  | ret _, _, _ => True
  | fail _, _, _ => True
  | read k, n, w => (k w).Along E A oracle n w
  | write f k, n, w => k.Along E A oracle n (f w)
  | await op k, n, w => A w op (oracle n op) ∧
      (k (E.exec w op (oracle n op)).1).Along E A oracle (n + 1) (E.exec w op (oracle n op)).2

/-- An execution can be checked. -/
instance Along.decidable (E : Environment W ε Op Reply) (A : W → (op : Op) → E.Outcome op → Prop)
    [∀ w op o, Decidable (A w op o)] (oracle : ℕ → (op : Op) → E.Outcome op) :
    (p : Program W ε Op Reply α) → (n : ℕ) → (w : W) → Decidable (p.Along E A oracle n w)
  | ret _, _, _ => isTrue trivial
  | fail _, _, _ => isTrue trivial
  | read k, n, w => Along.decidable E A oracle (k w) n w
  | write f k, n, w => Along.decidable E A oracle k n (f w)
  | await op k, n, w =>
    have := Along.decidable E A oracle (k (E.exec w op (oracle n op)).1) (n + 1)
      (E.exec w op (oracle n op)).2
    inferInstanceAs (Decidable (_ ∧ _))

theorem Along.mono {E : Environment W ε Op Reply} {A A' : W → (op : Op) → E.Outcome op → Prop}
    {oracle : ℕ → (op : Op) → E.Outcome op}
    (hA : ∀ n w op, A w op (oracle n op) → A' w op (oracle n op))
    {p : Program W ε Op Reply α} {n : ℕ} {w : W} (h : p.Along E A oracle n w) :
    p.Along E A' oracle n w := by
  induction p generalizing n w with
  | ret a => trivial
  | fail e => trivial
  | read k ih => exact ih w h
  | write f k ih => exact ih h
  | await op k ih => exact ⟨hA n w op h.1, ih _ h.2⟩

/-- The execution of a program along an oracle while others do `meddle n` before its `n`-th
await. -/
def runBeside (E : Environment W ε Op Reply) (oracle : ℕ → (op : Op) → E.Outcome op)
    (meddle : ℕ → W → W) : Program W ε Op Reply α → ℕ → W → Except ε α × W
  | ret a, _, w => (.ok a, w)
  | fail e, _, w => (.error e, w)
  | read k, n, w => (k w).runBeside E oracle meddle n w
  | write f k, n, w => k.runBeside E oracle meddle n (f w)
  | await op k, n, w =>
    (k (E.exec (meddle n w) op (oracle n op)).1).runBeside E oracle meddle (n + 1)
      (E.exec (meddle n w) op (oracle n op)).2

/-- A weakest precondition without guarantee is what every completed execution meets. -/
theorem wp_free_iff {Q : Except ε α → W → Prop} {w : W} (p : Program W ε Op Reply α) :
    p.wp D.free Q w ↔ ∀ r w', p.Completes D w r w' → Q r w' := by
  induction p generalizing w with
  | ret a => simp [Completes]
  | fail e => simp [Completes]
  | read k ih => exact ih w
  | write f k ih =>
    rw [wp_write, ih]
    exact ⟨fun h => h.2, fun h => ⟨trivial, h⟩⟩
  | await op k ih =>
    rw [wp_await]
    constructor
    · rintro h r w' ⟨w₁, h₁, o, ho, w₂, h₂, hd, hc⟩
      exact (ih _).mp ((h w₁ h₁ o ho).2 w₂ h₂ hd) r w' hc
    · intro h w₁ h₁ o ho
      exact ⟨trivial, fun w₂ h₂ hd =>
        (ih _).mpr fun r w' hc => h r w' ⟨w₁, h₁, o, ho, w₂, h₂, hd, hc⟩⟩

theorem wp_completes {Q : Except ε α → W → Prop} {w w' : W} {r : Except ε α}
    {p : Program W ε Op Reply α} (h : p.wp D Q w) (hc : p.Completes D w r w') : Q r w' := by
  have hf : p.wp D.free Q w :=
    wp_weaken (D := D) p (fun _ _ _ => id) (fun _ _ _ => id) (fun _ _ => id)
      (fun _ _ _ => trivial) h
  exact (wp_free_iff p).mp hf r w' hc

/-- Every moment of an execution is reached by steps of the program and of the code around it. The
execution may be one under another discipline that leaves the program less freedom. -/
theorem wp_reaches {D' : Discipline E} (ha : ∀ w op o, D'.allow w op o → D.allow w op o)
    (hd : ∀ w op r, D'.deliver w op r → D.deliver w op r) (hr : ∀ w w', D'.rely w w' → D.rely w w')
    {Q : Except ε α → W → Prop} {w w' : W} {p : Program W ε Op Reply α} (h : p.wp D Q w)
    (hp : p.Reaches D' w w') :
    Relation.ReflTransGen (fun w w' => D.guarantee w w' ∨ D.rely w w') w w' := by
  induction p generalizing w with
  | ret a => exact hp ▸ .refl
  | fail e => exact hp ▸ .refl
  | read k ih => exact ih w h hp
  | write f k ih =>
    rcases hp with rfl | hp
    · exact .refl
    · exact .head (.inl h.1) (ih h.2 hp)
  | await op k ih =>
    rcases hp with hp | ⟨w₁, h₁, o, ho, hp⟩
    · exact .single (.inr (hr _ _ hp))
    · obtain ⟨hg, h⟩ := h w₁ (hr _ _ h₁) o (ha _ _ _ ho)
      have hstep : Relation.ReflTransGen (fun w w' => D.guarantee w w' ∨ D.rely w w') w
          (E.exec w₁ op o).2 := .head (.inr (hr _ _ h₁)) (.single (.inl hg))
      rcases hp with hp | ⟨w₂, h₂, hd₂, hp⟩
      · exact hstep.tail (.inr (hr _ _ hp))
      · exact (hstep.tail (.inr (hr _ _ h₂))).trans (ih _ (h w₂ (hr _ _ h₂) (hd _ _ _ hd₂)) hp)

/-- An assertion that the program and the code around it keep holds at every moment. -/
theorem keeps_reaches {S : W → Prop} (hrely : ∀ w w', D.rely w w' → S w → S w')
    {Q : Except ε α → W → Prop} {w w' : W} {p : Program W ε Op Reply α}
    (h : p.wp (D.keeping S) Q w) (hp : p.Reaches D w w') (hS : S w) : S w' := by
  have ha : ∀ w op o, D.allow w op o → (D.keeping S).allow w op o := fun _ _ _ => id
  have hd : ∀ w op r, D.deliver w op r → (D.keeping S).deliver w op r := fun _ _ _ => id
  have hr : ∀ w w', D.rely w w' → (D.keeping S).rely w w' := fun _ _ => id
  have hsteps := wp_reaches ha hd hr h hp
  clear hp
  induction hsteps with
  | refl => exact hS
  | tail _ hstep ih => exact hstep.elim (fun hg => hg ih) fun hr => hrely _ _ hr ih

/-- The world after an execution is one of its moments. -/
theorem Completes.reaches {p : Program W ε Op Reply α} {w w' : W} {r : Except ε α}
    (h : p.Completes D w r w') : p.Reaches D w w' := by
  induction p generalizing w with
  | ret a => exact h.2
  | fail e => exact h.2
  | read k ih => exact ih w h
  | write f k ih => exact Or.inr (ih h)
  | await op k ih =>
    obtain ⟨w₁, h₁, o, ho, w₂, h₂, hd, h⟩ := h
    exact Or.inr ⟨w₁, h₁, o, ho, Or.inr ⟨w₂, h₂, hd, ih _ h⟩⟩

/-- An execution of what follows goes on from where the first part has ended. -/
theorem Completes.handle {p : Program W ε Op Reply α} {f : Except ε α → Program W ε Op Reply β}
    {w w₁ w' : W} {r : Except ε α} {r' : Except ε β} (hp : p.Completes D w r w₁)
    (hf : (f r).Completes D w₁ r' w') : (p.handle f).Completes D w r' w' := by
  induction p generalizing w with
  | ret a =>
    obtain ⟨rfl, rfl⟩ := hp
    exact hf
  | fail e =>
    obtain ⟨rfl, rfl⟩ := hp
    exact hf
  | read k ih => exact ih w hp
  | write f k ih => exact ih hp
  | await op k ih =>
    obtain ⟨w₂, h₂, o, ho, w₃, h₃, hd, hp⟩ := hp
    exact ⟨w₂, h₂, o, ho, w₃, h₃, hd, ih _ hp⟩

theorem Completes.bind {p : Program W ε Op Reply α} {f : α → Program W ε Op Reply β}
    {w w₁ : W} {a : α} (hp : p.Completes D w (.ok a) w₁)
    (hf : ∃ r w', (f a).Completes D w₁ r w') : ∃ r w', (p >>= f).Completes D w r w' := by
  obtain ⟨r, w', hf⟩ := hf
  exact ⟨r, w', hp.handle hf⟩

theorem Completes.tryCatch {p : Program W ε Op Reply α} {h : ε → Program W ε Op Reply α} {w : W}
    (hp : ∃ r w', p.Completes D w r w') (hh : ∀ e w, ∃ r w', (h e).Completes D w r w') :
    ∃ r w', (p.tryCatch h).Completes D w r w' := by
  obtain ⟨e | a, w₁, hp⟩ := hp
  · obtain ⟨r, w', hh⟩ := hh e w₁
    exact ⟨r, w', hp.handle hh⟩
  · exact ⟨.ok a, w₁, hp.handle ⟨rfl, rfl⟩⟩

theorem runBeside_id (oracle : ℕ → (op : Op) → E.Outcome op) (p : Program W ε Op Reply α) (n : ℕ)
    (w : W) : p.runBeside E oracle (fun _ => id) n w = p.run E oracle n w := by
  induction p generalizing n w with
  | ret a => rfl
  | fail e => rfl
  | read k ih => exact ih w n w
  | write f k ih => exact ih n (f w)
  | await op k ih => exact ih _ (n + 1) _

/-- An execution along an oracle of allowed outcomes is an execution, also when others meddle as
they may; an assertion `S` that all keep may be used to see that the outcomes are allowed. -/
theorem Within.completes_runBeside {A : Op → Prop} {G : W → W → Prop} {S : W → Prop}
    {oracle : ℕ → (op : Op) → E.Outcome op} {meddle : ℕ → W → W} (hr : ∀ w, S w → D.rely w w)
    (hm : ∀ n w, S w → D.rely w (meddle n w) ∧ S (meddle n w))
    (ha : ∀ n w op, S w → A op → D.allow w op (oracle n op))
    (hd : ∀ w op r, A op → D.deliver w op r)
    (hS : ∀ n w op, S w → A op → S (E.exec w op (oracle n op)).2) (hG : ∀ w w', G w w' → S w → S w')
    {p : Program W ε Op Reply α} (hp : p.Within A G) (n : ℕ) {w : W} (hw : S w) :
    p.Completes D w (p.runBeside E oracle meddle n w).1 (p.runBeside E oracle meddle n w).2 := by
  induction p generalizing n w with
  | ret a => exact ⟨rfl, rfl⟩
  | fail e => exact ⟨rfl, rfl⟩
  | read k ih => exact ih w (hp w) n hw
  | write f k ih => exact ih hp.2 n (hG _ _ (hp.1 w) hw)
  | await op k ih =>
    obtain ⟨hw₁, hS₁⟩ := hm n w hw
    have hw' := hS n _ op hS₁ hp.1
    exact ⟨_, hw₁, oracle n op, ha n _ op hS₁ hp.1, _, hr _ hw', hd _ _ _ hp.1,
      ih _ (hp.2 _) (n + 1) hw'⟩

theorem Within.completes_run {A : Op → Prop} {G : W → W → Prop} {S : W → Prop}
    {oracle : ℕ → (op : Op) → E.Outcome op} (hr : ∀ w, S w → D.rely w w)
    (ha : ∀ n w op, S w → A op → D.allow w op (oracle n op))
    (hd : ∀ w op r, A op → D.deliver w op r)
    (hS : ∀ n w op, S w → A op → S (E.exec w op (oracle n op)).2) (hG : ∀ w w', G w w' → S w → S w')
    {p : Program W ε Op Reply α} (hp : p.Within A G) (n : ℕ) {w : W} (hw : S w) :
    p.Completes D w (p.run E oracle n w).1 (p.run E oracle n w).2 := by
  rw [← runBeside_id]
  exact Within.completes_runBeside hr (fun _ w h => ⟨hr w h, h⟩) ha hd hS hG hp n hw

theorem completes_run {oracle : ℕ → (op : Op) → E.Outcome op} (hr : ∀ w, D.rely w w)
    (ha : ∀ n w op, D.allow w op (oracle n op)) (hd : ∀ w op r, D.deliver w op r)
    (p : Program W ε Op Reply α) (n : ℕ) (w : W) :
    p.Completes D w (p.run E oracle n w).1 (p.run E oracle n w).2 :=
  Within.completes_run (S := fun _ => True) (fun w _ => hr w) (fun n w op _ _ => ha n w op)
    (fun w op r _ => hd w op r) (fun _ _ _ _ _ => trivial) (fun _ _ _ _ => trivial) (Within.all p) n
    trivial

/-- A program may be cut anywhere. -/
theorem reaches_runFor {oracle : ℕ → (op : Op) → E.Outcome op} (hr : ∀ w, D.rely w w)
    (ha : ∀ n w op, D.allow w op (oracle n op)) (hd : ∀ w op r, D.deliver w op r) (k : ℕ)
    (p : Program W ε Op Reply α) (n : ℕ) (w : W) : p.Reaches D w (p.runFor E oracle k n w) := by
  induction p generalizing n w with
  | ret a => rfl
  | fail e => rfl
  | read p ih => exact ih w n w
  | write f p ih => exact Or.inr (ih n (f w))
  | await op p ih =>
    unfold runFor
    split
    · exact Or.inl (hr w)
    · exact Or.inr ⟨w, hr w, oracle n op, ha n w op, Or.inr ⟨_, hr _, hd _ _ _, ih _ (n + 1) _⟩⟩

/-- A program of operations that are not blocked ends. -/
theorem Within.completes {A : Op → Prop} {G : W → W → Prop} (hD : D.Live A)
    {p : Program W ε Op Reply α} (hp : p.Within A G) (w : W) : ∃ r w', p.Completes D w r w' := by
  induction p generalizing w with
  | ret a => exact ⟨_, _, rfl, rfl⟩
  | fail e => exact ⟨_, _, rfl, rfl⟩
  | read k ih => exact ih w (hp w) w
  | write f k ih => exact ih hp.2 (f w)
  | await op k ih =>
    obtain ⟨o, ho⟩ := hD.allow w op hp.1
    obtain ⟨r, w', h⟩ := ih (E.exec w op o).1 (hp.2 _) (E.exec w op o).2
    exact ⟨r, w', w, hD.rely w, o, ho, _, hD.rely _, hD.deliver _ op _ hp.1, h⟩

theorem Within.returns {A : Op → Prop} {G : W → W → Prop} (hD : D.Live A)
    {p : Program W ε Op Reply α} (hp : p.Within A G) {w : W} {a : α}
    (h : p.wp D (fun r _ => r = .ok a) w) : p.Returns D w a := by
  obtain ⟨r, w', hc⟩ := Within.completes hD hp w
  have hok : ∀ r w', p.Completes D w r w' → r = .ok a := fun _ _ =>
    wp_completes (Q := fun r _ => r = .ok a) h
  obtain rfl := hok r w' hc
  exact ⟨⟨w', hc⟩, hok⟩

theorem Within.throws {A : Op → Prop} {G : W → W → Prop} (hD : D.Live A)
    {p : Program W ε Op Reply α} (hp : p.Within A G) {w : W}
    (h : p.wp D (fun r _ => ∃ e, r = .error e) w) : p.Throws D w := by
  obtain ⟨r, w', hc⟩ := Within.completes hD hp w
  have herr : ∀ r w', p.Completes D w r w' → ∃ e, r = .error e := fun _ _ =>
    wp_completes (Q := fun r _ => ∃ e, r = .error e) h
  obtain ⟨e, rfl⟩ := herr r w' hc
  exact ⟨⟨e, w', hc⟩, herr⟩

theorem Returns.not_throws {p : Program W ε Op Reply α} {w : W} {a : α}
    (h : p.Returns D w a) : ¬ p.Throws D w := by
  rintro ⟨⟨e, w', hc⟩, -⟩
  cases h.2 _ _ hc

theorem Returns.unique {p : Program W ε Op Reply α} {w : W} {a b : α}
    (ha : p.Returns D w a) (hb : p.Returns D w b) : a = b := by
  obtain ⟨w', hc⟩ := ha.1
  have h : Except.ok a = (Except.ok b : Except ε α) := hb.2 _ _ hc
  exact Except.ok.inj h

end Program

end Async
