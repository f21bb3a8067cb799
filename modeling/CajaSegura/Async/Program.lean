import Mathlib.Logic.Relation
import Mathlib.Tactic.Common

/-!
# Asynchronous programs

A single-threaded asynchronous program computes synchronously on a shared world between its
awaits. At an await it names an operation, gives up control, and continues with the reply or with
the error the operation threw. The environment fixes the replies: every operation has a type of
outcomes, and an outcome determines the reply and the effect on the world.

## Main definitions

* `Program W ε Op Reply α`: programs over the world `W` that throw `ε` and await `Op`
* `Program.handle`: sequencing with access to a thrown error, from which `bind`, `tryCatch` and
  `tryFinally` are defined
* `Environment`, `Discipline`: what an operation may do, and what the program and the code around
  it promise each other
* `Program.wp`: the weakest precondition of a program under a discipline

## Main results

* `Program.wp_handle`, `Program.wp_bind`, `Program.wp_tryCatch`: rules of sequencing
* `Program.wp_mono`: consequence
* `Program.wp_seq`, `Program.wp_then`: an intermediate assertion between two parts of a program
-/

namespace Async

/-- A single-threaded asynchronous program. `read` and `write` run without giving up control;
`await` gives it up until the operation is answered. -/
inductive Program (W ε Op : Type) (Reply : Op → Type) (α : Type) : Type
  | ret (a : α)
  | fail (e : ε)
  | read (k : W → Program W ε Op Reply α)
  | write (f : W → W) (k : Program W ε Op Reply α)
  | await (op : Op) (k : Except ε (Reply op) → Program W ε Op Reply α)

namespace Program

variable {W ε Op : Type} {Reply : Op → Type} {α β γ : Type}

/-- A program that ends at once with the given result. -/
def done : Except ε α → Program W ε Op Reply α
  | .ok a => ret a
  | .error e => fail e

/-- Run `p`, then continue with its result, normal or thrown. -/
def handle (p : Program W ε Op Reply α) (f : Except ε α → Program W ε Op Reply β) :
    Program W ε Op Reply β :=
  match p with
  | ret a => f (.ok a)
  | fail e => f (.error e)
  | read k => read fun w => (k w).handle f
  | write g k => write g (k.handle f)
  | await op k => await op fun r => (k r).handle f

/-- Sequencing: an error of the first part is the error of the whole. -/
def bind (p : Program W ε Op Reply α) (f : α → Program W ε Op Reply β) :
    Program W ε Op Reply β :=
  p.handle fun
    | .ok a => f a
    | .error e => fail e

/-- `try p catch e => h e`. -/
def tryCatch (p : Program W ε Op Reply α) (h : ε → Program W ε Op Reply α) :
    Program W ε Op Reply α :=
  p.handle fun
    | .ok a => ret a
    | .error e => h e

/-- `try p finally f`: `f` runs on both ways out, and an error of `f` replaces the result. -/
def tryFinally (p : Program W ε Op Reply α) (f : Program W ε Op Reply Unit) :
    Program W ε Op Reply α :=
  p.handle fun r => f.bind fun _ => done r

instance : Monad (Program W ε Op Reply) where
  pure := ret
  bind := bind

instance : MonadExcept ε (Program W ε Op Reply) where
  throw := fail
  tryCatch := tryCatch

/-- Await one operation. -/
def perform (op : Op) : Program W ε Op Reply (Reply op) := await op done

/-- A synchronous look at the world. -/
def get (f : W → α) : Program W ε Op Reply α := read fun w => ret (f w)

/-- A synchronous change of the world. -/
def modify (f : W → W) : Program W ε Op Reply Unit := write f (ret ())

/-- A synchronous change of the world with a result read before it. -/
def getModify (f : W → α × W) : Program W ε Op Reply α :=
  read fun w => write (fun w => (f w).2) (ret (f w).1)

end Program

/-- What the operations may do: an outcome of an operation determines its reply and its effect. -/
structure Environment (W ε Op : Type) (Reply : Op → Type) where
  Outcome : Op → Type
  exec : W → (op : Op) → Outcome op → Except ε (Reply op) × W

/-- The outcomes considered, the worlds in which a reply of an operation may be delivered, what
the code around the program may change while it is suspended, and what the program itself may
change in one step. -/
structure Discipline {W ε Op : Type} {Reply : Op → Type} (E : Environment W ε Op Reply) where
  allow : W → (op : Op) → E.Outcome op → Prop
  deliver : W → (op : Op) → Except ε (Reply op) → Prop
  rely : W → W → Prop
  guarantee : W → W → Prop

/-- The discipline without a promise of the program. -/
def Discipline.free {W ε Op : Type} {Reply : Op → Type} {E : Environment W ε Op Reply}
    (D : Discipline E) : Discipline E := { D with guarantee := fun _ _ => True }

namespace Program

variable {W ε Op : Type} {Reply : Op → Type} {α β γ : Type} {E : Environment W ε Op Reply}

/-- The weakest precondition: from the world `w`, every step of `p` meets the guarantee and `p`
ends only with results in `Q`. An operation takes effect at one moment and its reply is delivered
at a later one; the code around the program may act before, between and after. -/
def wp (D : Discipline E) : Program W ε Op Reply α → (Except ε α → W → Prop) → W → Prop
  | ret a, Q, w => Q (.ok a) w
  | fail e, Q, w => Q (.error e) w
  | read k, Q, w => (k w).wp D Q w
  | write f k, Q, w => D.guarantee w (f w) ∧ k.wp D Q (f w)
  | await op k, Q, w => ∀ w₁, D.rely w w₁ → ∀ o, D.allow w₁ op o →
      D.guarantee w₁ (E.exec w₁ op o).2 ∧
        ∀ w₂, D.rely (E.exec w₁ op o).2 w₂ → D.deliver w₂ op (E.exec w₁ op o).1 →
          (k (E.exec w₁ op o).1).wp D Q w₂

variable {D : Discipline E} {Q : Except ε α → W → Prop} {w : W}

@[simp] theorem wp_ret (a : α) : (ret a : Program W ε Op Reply α).wp D Q w ↔ Q (.ok a) w :=
  Iff.rfl

@[simp] theorem wp_pure (a : α) :
    (pure a : Program W ε Op Reply α).wp D Q w ↔ Q (.ok a) w := Iff.rfl

@[simp] theorem wp_fail (e : ε) : (fail e : Program W ε Op Reply α).wp D Q w ↔ Q (.error e) w :=
  Iff.rfl

@[simp] theorem wp_done (r : Except ε α) :
    (done r : Program W ε Op Reply α).wp D Q w ↔ Q r w := by
  cases r <;> rfl

@[simp] theorem wp_read (k : W → Program W ε Op Reply α) :
    (read k).wp D Q w ↔ (k w).wp D Q w := Iff.rfl

@[simp] theorem wp_write (f : W → W) (k : Program W ε Op Reply α) :
    (write f k).wp D Q w ↔ D.guarantee w (f w) ∧ k.wp D Q (f w) := Iff.rfl

@[simp] theorem wp_get (f : W → α) :
    (get f : Program W ε Op Reply α).wp D Q w ↔ Q (.ok (f w)) w := Iff.rfl

@[simp] theorem wp_modify {Q : Except ε Unit → W → Prop} (f : W → W) :
    (modify f : Program W ε Op Reply Unit).wp D Q w ↔ D.guarantee w (f w) ∧ Q (.ok ()) (f w) :=
  Iff.rfl

@[simp] theorem wp_getModify (f : W → α × W) :
    (getModify f : Program W ε Op Reply α).wp D Q w ↔
      D.guarantee w (f w).2 ∧ Q (.ok (f w).1) (f w).2 := Iff.rfl

theorem wp_await (op : Op) (k : Except ε (Reply op) → Program W ε Op Reply α) :
    (await op k).wp D Q w ↔ ∀ w₁, D.rely w w₁ → ∀ o, D.allow w₁ op o →
      D.guarantee w₁ (E.exec w₁ op o).2 ∧
        ∀ w₂, D.rely (E.exec w₁ op o).2 w₂ → D.deliver w₂ op (E.exec w₁ op o).1 →
          (k (E.exec w₁ op o).1).wp D Q w₂ := Iff.rfl

/-- Sequencing with access to a thrown error. -/
theorem wp_handle {Q : Except ε β → W → Prop} (p : Program W ε Op Reply α)
    (f : Except ε α → Program W ε Op Reply β) :
    (p.handle f).wp D Q w ↔ p.wp D (fun r w => (f r).wp D Q w) w := by
  induction p generalizing w with
  | ret a => rfl
  | fail e => rfl
  | read k ih => exact ih w
  | write g k ih => exact and_congr_right fun _ => ih
  | await op k ih =>
    simp only [handle, wp_await]
    exact forall₂_congr fun w₁ _ => forall₂_congr fun o _ =>
      and_congr_right fun _ => forall₃_congr fun w₂ _ _ => ih _

/-- Consequence: a weaker postcondition has a weaker precondition. -/
theorem wp_mono {Q' : Except ε α → W → Prop} (p : Program W ε Op Reply α)
    (h : ∀ r w, Q r w → Q' r w) : p.wp D Q w → p.wp D Q' w := by
  induction p generalizing w with
  | ret a => exact h _ _
  | fail e => exact h _ _
  | read k ih => exact ih w
  | write g k ih => exact And.imp_right ih
  | await op k ih =>
    intro H w₁ h₁ o ho
    obtain ⟨hg, H⟩ := H w₁ h₁ o ho
    exact ⟨hg, fun w₂ h₂ hd => ih _ (H w₂ h₂ hd)⟩

/-- The result of the first part decides what is asked of it: the second part's precondition, or
the whole's postcondition when it throws. -/
theorem wp_bind {Q : Except ε β → W → Prop} (p : Program W ε Op Reply α)
    (f : α → Program W ε Op Reply β) :
    (p >>= f).wp D Q w ↔ p.wp D (fun
      | .ok a, w => (f a).wp D Q w
      | .error e, w => Q (.error e) w) w := by
  refine (wp_handle p _).trans (iff_of_eq (congrArg (fun R => p.wp D R w) ?_))
  funext r w
  cases r <;> rfl

theorem wp_tryCatch (p : Program W ε Op Reply α) (h : ε → Program W ε Op Reply α) :
    (tryCatch p h).wp D Q w ↔ p.wp D (fun
      | .ok a, w => Q (.ok a) w
      | .error e, w => (h e).wp D Q w) w := by
  refine (wp_handle p _).trans (iff_of_eq (congrArg (fun R => p.wp D R w) ?_))
  funext r w
  cases r <;> rfl

/-- A program that catches everything and gives a value instead ends with a value. -/
theorem wp_tryCatch_ret {p : Program W ε Op Reply α} {f : ε → α}
    (h : (tryCatch p fun e => ret (f e)).wp D Q w) :
    (tryCatch p fun e => ret (f e)).wp D (fun r w' => (∃ a, r = .ok a) ∧ Q r w') w := by
  rw [wp_tryCatch] at h ⊢
  refine wp_mono p ?_ h
  rintro (e | a) w' h'
  · exact ⟨⟨f e, rfl⟩, h'⟩
  · exact ⟨⟨a, rfl⟩, h'⟩

theorem wp_tryFinally (p : Program W ε Op Reply α) (f : Program W ε Op Reply Unit) :
    (tryFinally p f).wp D Q w ↔ p.wp D (fun r w => f.wp D (fun
      | .ok _, w => Q r w
      | .error e, w => Q (.error e) w) w) w := by
  refine (wp_handle p _).trans (iff_of_eq (congrArg (fun R => p.wp D R w) ?_))
  funext r w
  refine propext ((wp_bind f fun _ => done r).trans
    (iff_of_eq (congrArg (fun R => f.wp D R w) ?_)))
  funext s w
  cases s <;> simp

theorem wp_perform {op : Op} {Q : Except ε (Reply op) → W → Prop} :
    (perform op : Program W ε Op Reply (Reply op)).wp D Q w ↔
      ∀ w₁, D.rely w w₁ → ∀ o, D.allow w₁ op o →
        D.guarantee w₁ (E.exec w₁ op o).2 ∧
          ∀ w₂, D.rely (E.exec w₁ op o).2 w₂ → D.deliver w₂ op (E.exec w₁ op o).1 →
            Q (E.exec w₁ op o).1 w₂ := by
  simp only [perform, wp_await, wp_done]

/-- An intermediate assertion `R` on the result of the first part, which may throw only as the
whole may. -/
theorem wp_seq {Q : Except ε β → W → Prop} {p : Program W ε Op Reply α}
    {f : α → Program W ε Op Reply β} (R : α → W → Prop)
    (hp : p.wp D (fun r w => (∀ a, r = .ok a → R a w) ∧ ∀ e, r = .error e → Q (.error e) w) w)
    (hf : ∀ a w, R a w → (f a).wp D Q w) : (p >>= f).wp D Q w := by
  rw [wp_bind]
  refine wp_mono p ?_ hp
  rintro (e | a) w ⟨hok, herr⟩
  · exact herr e rfl
  · exact hf a w (hok a rfl)

/-- An intermediate assertion `R` on the result of a first part that does not throw. -/
theorem wp_then {Q : Except ε β → W → Prop} {p : Program W ε Op Reply α}
    {f : α → Program W ε Op Reply β} (R : α → W → Prop)
    (hp : p.wp D (fun r w => ∃ a, r = .ok a ∧ R a w) w)
    (hf : ∀ a w, R a w → (f a).wp D Q w) : (p >>= f).wp D Q w := by
  apply wp_seq R ?_ hf
  refine wp_mono p ?_ hp
  rintro r w ⟨a, rfl, h⟩
  refine ⟨fun b hb => ?_, fun e he => nomatch he⟩
  cases hb
  exact h

/-- A program that meets two guarantees meets both at each step. -/
theorem wp_both {G G' : W → W → Prop} {Q' : Except ε α → W → Prop} (p : Program W ε Op Reply α)
    (h : p.wp { D with guarantee := G } Q w) (h' : p.wp { D with guarantee := G' } Q' w) :
    p.wp { D with guarantee := fun w w' => G w w' ∧ G' w w' } (fun r w => Q r w ∧ Q' r w) w := by
  induction p generalizing w with
  | ret a => exact ⟨h, h'⟩
  | fail e => exact ⟨h, h'⟩
  | read k ih => exact ih w h h'
  | write g k ih => exact ⟨⟨h.1, h'.1⟩, ih h.2 h'.2⟩
  | await op k ih =>
    intro w₁ h₁ o ho
    obtain ⟨hg, h⟩ := h w₁ h₁ o ho
    obtain ⟨hg', h'⟩ := h' w₁ h₁ o ho
    exact ⟨⟨hg, hg'⟩, fun w₂ h₂ hd => ih _ (h w₂ h₂ hd) (h' w₂ h₂ hd)⟩

/-- What the code around a program and its own steps keep holds when it ends. -/
theorem wp_keeps {T : W → Prop} (hr : ∀ w w', T w → D.rely w w' → T w')
    (hg : ∀ w w', T w → D.guarantee w w' → T w') (p : Program W ε Op Reply α) (hw : T w)
    (h : p.wp D Q w) : p.wp D (fun r w => Q r w ∧ T w) w := by
  induction p generalizing w with
  | ret a => exact ⟨h, hw⟩
  | fail e => exact ⟨h, hw⟩
  | read k ih => exact ih w hw h
  | write g k ih => exact ⟨h.1, ih (hg _ _ hw h.1) h.2⟩
  | await op k ih =>
    intro w₁ h₁ o ho
    obtain ⟨hstep, h⟩ := h w₁ h₁ o ho
    have hw₂ := hg _ _ (hr _ _ hw h₁) hstep
    exact ⟨hstep, fun w₂ h₂ hd => ih _ (hr _ _ hw₂ h₂) (h w₂ h₂ hd)⟩

/-- A program that relies on less, or is asked for less, meets its specification. -/
theorem wp_weaken {D' : Discipline E} (p : Program W ε Op Reply α)
    (ha : ∀ w op o, D'.allow w op o → D.allow w op o)
    (hd : ∀ w op r, D'.deliver w op r → D.deliver w op r)
    (hr : ∀ w w', D'.rely w w' → D.rely w w') (hg : ∀ w w', D.guarantee w w' → D'.guarantee w w') :
    p.wp D Q w → p.wp D' Q w := by
  induction p generalizing w with
  | ret a => exact id
  | fail e => exact id
  | read k ih => exact ih w
  | write g k ih => exact And.imp (hg _ _) ih
  | await op k ih =>
    intro H w₁ h₁ o ho
    obtain ⟨hg₁, H⟩ := H w₁ (hr _ _ h₁) o (ha _ _ _ ho)
    exact ⟨hg _ _ hg₁, fun w₂ h₂ hd₂ => ih _ (H w₂ (hr _ _ h₂) (hd _ _ _ hd₂))⟩

end Program

end Async
