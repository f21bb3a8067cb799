import CajaSegura.Async.Program

/-!
# What a program can touch

A program that awaits only operations of a kind and writes only in a certain way changes the world
only as these operations and writes do, whatever the replies are.

## Main definitions

* `Program.Within A G p`: `p` awaits only operations in `A` and writes only by steps in `G`
* `Program.Safe D p`: `p` meets the guarantee of `D` from every world
* `Program.Keeps D I p`: `p` ends in `I` if it starts in `I`

## Main results

* `Program.Within.bind`, `Program.Within.tryCatch`, `Program.Within.tryFinally`: closure
* `Program.Within.wp`: such a program meets every guarantee that its operations and writes meet
* `Program.Safe.bind`, `Program.Safe.tryCatch`: closure
* `Program.Within.keeps`: such a program keeps what its operations and writes keep
-/

namespace Async.Program

variable {W ε Op : Type} {Reply : Op → Type} {α β : Type} {A : Op → Prop} {G : W → W → Prop}

/-- `p` awaits only operations in `A` and writes only by steps in `G`. -/
def Within (A : Op → Prop) (G : W → W → Prop) : Program W ε Op Reply α → Prop
  | ret _ => True
  | fail _ => True
  | read k => ∀ w, (k w).Within A G
  | write f k => (∀ w, G w (f w)) ∧ k.Within A G
  | await op k => A op ∧ ∀ r, (k r).Within A G

namespace Within

@[simp] theorem ret (a : α) : (ret a : Program W ε Op Reply α).Within A G := trivial

@[simp] theorem pure (a : α) : (pure a : Program W ε Op Reply α).Within A G := trivial

@[simp] theorem throw (e : ε) : (throw e : Program W ε Op Reply α).Within A G := trivial

@[simp] theorem done (r : Except ε α) : (done r : Program W ε Op Reply α).Within A G := by
  cases r <;> trivial

@[simp] theorem get (f : W → α) : (get f : Program W ε Op Reply α).Within A G := fun _ => trivial

@[simp] theorem modify {f : W → W} :
    (modify f : Program W ε Op Reply Unit).Within A G ↔ ∀ w, G w (f w) :=
  ⟨fun h => h.1, fun h => ⟨h, trivial⟩⟩

@[simp] theorem perform {op : Op} :
    (perform op : Program W ε Op Reply (Reply op)).Within A G ↔ A op :=
  ⟨fun h => h.1, fun h => ⟨h, done⟩⟩

theorem getModify {f : W → α × W} (h : ∀ w, G w (f w).2) :
    (getModify f : Program W ε Op Reply α).Within A G :=
  fun _ => ⟨fun w => h w, trivial⟩

theorem handle {p : Program W ε Op Reply α} {f : Except ε α → Program W ε Op Reply β}
    (hp : p.Within A G) (hf : ∀ r, (f r).Within A G) : (p.handle f).Within A G := by
  induction p with
  | ret a => exact hf _
  | fail e => exact hf _
  | read k ih => exact fun w => ih w (hp w)
  | write g k ih => exact ⟨hp.1, ih hp.2⟩
  | await op k ih => exact ⟨hp.1, fun r => ih r (hp.2 r)⟩

theorem bind {p : Program W ε Op Reply α} {f : α → Program W ε Op Reply β}
    (hp : p.Within A G) (hf : ∀ a, (f a).Within A G) : (p >>= f).Within A G := by
  apply handle hp
  rintro (e | a)
  · trivial
  · exact hf a

theorem tryCatch {p : Program W ε Op Reply α} {h : ε → Program W ε Op Reply α}
    (hp : p.Within A G) (hh : ∀ e, (h e).Within A G) : (p.tryCatch h).Within A G := by
  apply handle hp
  rintro (e | a)
  · exact hh e
  · trivial

theorem tryFinally {p : Program W ε Op Reply α} {f : Program W ε Op Reply Unit}
    (hp : p.Within A G) (hf : f.Within A G) : (p.tryFinally f).Within A G :=
  handle hp fun r => bind hf fun _ => done r

/-- Nothing is asked of the operations and writes. -/
theorem all (p : Program W ε Op Reply α) : p.Within (fun _ => True) fun _ _ => True := by
  induction p with
  | ret a => trivial
  | fail e => trivial
  | read k ih => exact fun w => ih w
  | write f k ih => exact ⟨fun _ => trivial, ih⟩
  | await op k ih => exact ⟨trivial, ih⟩

theorem mono {A' : Op → Prop} {G' : W → W → Prop} {p : Program W ε Op Reply α}
    (hA : ∀ op, A op → A' op) (hG : ∀ w w', G w w' → G' w w') (hp : p.Within A G) :
    p.Within A' G' := by
  induction p with
  | ret a => trivial
  | fail e => trivial
  | read k ih => exact fun w => ih w (hp w)
  | write g k ih => exact ⟨fun w => hG _ _ (hp.1 w), ih hp.2⟩
  | await op k ih => exact ⟨hA _ hp.1, fun r => ih r (hp.2 r)⟩

/-- A program meets every guarantee that its operations and writes meet. -/
theorem wp {E : Environment W ε Op Reply} {D : Discipline E} {p : Program W ε Op Reply α} {w : W}
    (hp : p.Within A G) (hG : ∀ w w', G w w' → D.guarantee w w')
    (hA : ∀ op, A op → ∀ w o, D.allow w op o → D.guarantee w (E.exec w op o).2) :
    p.wp D (fun _ _ => True) w := by
  induction p generalizing w with
  | ret a => trivial
  | fail e => trivial
  | read k ih => exact ih w (hp w)
  | write g k ih => exact ⟨hG _ _ (hp.1 w), ih hp.2⟩
  | await op k ih =>
    intro w₁ _ o ho
    exact ⟨hA op hp.1 w₁ o ho, fun w₂ _ _ => ih _ (hp.2 _)⟩

end Within

/-! ## Programs that meet their guarantee from every world -/

variable {E : Environment W ε Op Reply} {D : Discipline E}

/-- Whatever the world, every step of `p` meets the guarantee. -/
def Safe (D : Discipline E) (p : Program W ε Op Reply α) : Prop :=
  ∀ w, p.wp D (fun _ _ => True) w

theorem Within.safe {p : Program W ε Op Reply α} (hp : p.Within A G)
    (hG : ∀ w w', G w w' → D.guarantee w w')
    (hA : ∀ op, A op → ∀ w o, D.allow w op o → D.guarantee w (E.exec w op o).2) : p.Safe D :=
  fun _ => hp.wp hG hA

namespace Safe

@[simp] theorem pure (a : α) : (pure a : Program W ε Op Reply α).Safe D := fun _ => trivial

@[simp] theorem throw (e : ε) : (throw e : Program W ε Op Reply α).Safe D := fun _ => trivial

@[simp] theorem done (r : Except ε α) : (done r : Program W ε Op Reply α).Safe D :=
  fun _ => (wp_done r).mpr trivial

@[simp] theorem get (f : W → α) : (get f : Program W ε Op Reply α).Safe D := fun _ => trivial

theorem modify {f : W → W} (h : ∀ w, D.guarantee w (f w)) :
    (modify f : Program W ε Op Reply Unit).Safe D := fun w => ⟨h w, trivial⟩

theorem perform {op : Op} (h : ∀ w o, D.allow w op o → D.guarantee w (E.exec w op o).2) :
    (perform op : Program W ε Op Reply (Reply op)).Safe D :=
  fun _ => wp_perform.mpr fun w₁ _ o ho => ⟨h w₁ o ho, fun _ _ _ => trivial⟩

theorem handle {p : Program W ε Op Reply α} {f : Except ε α → Program W ε Op Reply β}
    (hp : p.Safe D) (hf : ∀ r, (f r).Safe D) : (p.handle f).Safe D :=
  fun w => (wp_handle p f).mpr (wp_mono p (fun r w' _ => hf r w') (hp w))

theorem bind {p : Program W ε Op Reply α} {f : α → Program W ε Op Reply β}
    (hp : p.Safe D) (hf : ∀ a, (f a).Safe D) : (p >>= f).Safe D := by
  apply handle hp
  rintro (e | a)
  · exact throw e
  · exact hf a

theorem tryCatch {p : Program W ε Op Reply α} {h : ε → Program W ε Op Reply α}
    (hp : p.Safe D) (hh : ∀ e, (h e).Safe D) : (p.tryCatch h).Safe D := by
  apply handle hp
  rintro (e | a)
  · exact hh e
  · exact pure a

end Safe

/-! ## Programs that keep an assertion -/

/-- From every world in `I`, `p` meets the guarantee and ends in `I`. -/
def Keeps (D : Discipline E) (I : W → Prop) (p : Program W ε Op Reply α) : Prop :=
  ∀ w, I w → p.wp D (fun _ w' => I w') w

variable {I : W → Prop}

/-- A first part that keeps an assertion, and a second part that may count on it. -/
theorem Keeps.seq {Q : Except ε β → W → Prop} {p : Program W ε Op Reply α}
    {f : α → Program W ε Op Reply β} (hp : p.Keeps D I) (hf : ∀ a w, I w → (f a).wp D Q w)
    (herr : ∀ e w, I w → Q (.error e) w) {w : W} (hw : I w) : (p >>= f).wp D Q w := by
  rw [wp_bind]
  refine wp_mono p ?_ (hp w hw)
  rintro (e | a) w' hw'
  · exact herr e w' hw'
  · exact hf a w' hw'

/-- A program keeps what its operations and writes keep, if the code around it does. -/
theorem Within.keeps {p : Program W ε Op Reply α} (hp : p.Within A G)
    (hrely : ∀ w w', I w → D.rely w w' → I w')
    (hG : ∀ w w', I w → G w w' → D.guarantee w w' ∧ I w')
    (hA : ∀ op, A op → ∀ w o, I w → D.allow w op o →
      D.guarantee w (E.exec w op o).2 ∧ I (E.exec w op o).2) : p.Keeps D I := by
  intro w hw
  induction p generalizing w with
  | ret a => exact hw
  | fail e => exact hw
  | read k ih => exact ih w (hp w) w hw
  | write g k ih =>
    obtain ⟨hg, hw'⟩ := hG _ _ hw (hp.1 w)
    exact ⟨hg, ih hp.2 _ hw'⟩
  | await op k ih =>
    intro w₁ h₁ o ho
    obtain ⟨hg, hw₁⟩ := hA op hp.1 w₁ o (hrely _ _ hw h₁) ho
    exact ⟨hg, fun w₂ h₂ _ => ih _ (hp.2 _) w₂ (hrely _ _ hw₁ h₂)⟩

namespace Keeps

theorem ret (a : α) : (ret a : Program W ε Op Reply α).Keeps D I := fun _ h => h

theorem fail (e : ε) : (fail e : Program W ε Op Reply α).Keeps D I := fun _ h => h

theorem bind {p : Program W ε Op Reply α} {f : α → Program W ε Op Reply β}
    (hp : p.Keeps D I) (hf : ∀ a, (f a).Keeps D I) : (p >>= f).Keeps D I := by
  intro w hw
  rw [wp_bind]
  refine wp_mono p ?_ (hp w hw)
  rintro (e | a) w' hw'
  · exact hw'
  · exact hf a w' hw'

theorem tryCatch {p : Program W ε Op Reply α} {h : ε → Program W ε Op Reply α}
    (hp : p.Keeps D I) (hh : ∀ e, (h e).Keeps D I) : (p.tryCatch h).Keeps D I := by
  intro w hw
  rw [wp_tryCatch]
  refine wp_mono p ?_ (hp w hw)
  rintro (e | a) w' hw'
  · exact hh e w' hw'
  · exact hw'

end Keeps

end Async.Program
