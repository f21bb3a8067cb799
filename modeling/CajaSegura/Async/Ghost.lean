import CajaSegura.Async.Pool

/-!
# Ghost states

What a thread relies on may depend on what it has done so far, and not only on the world: the file
it has made is its own. A ghost state says so. It is no part of the program or of the world, and a
step of the thread may change it.

## Main definitions

* `GhostDiscipline`: a discipline for each ghost state
* `Program.gwp`: the weakest precondition of a program that is given a ghost state
* `Program.GKeeps`: a program keeps an assertion on its ghost state and the world
* `System.GhostSound`: disciplines with ghost states under which the programs of a system run
  together

## Main results

* `Program.gwp_bind`, `Program.gwp_tryCatch`: rules of sequencing
* `Program.gwp_ghost`: without a ghost state it is the weakest precondition
* `Program.gwp_of_wp`: a stretch in which the ghost state stays what it is
* `System.GhostSound.steps`: along every run there are ghost states for which the invariant holds,
  and every thread keeps what it has promised
* `System.GhostSound.keeps`: what every step keeps is kept along a run
-/

namespace Async

variable {W ε Op Γ : Type} {Reply : Op → Type} {α β : Type} {E : Environment W ε Op Reply}

/-- What the code around a program may change depends on the program's ghost state, and a step of
the program may change that. -/
structure GhostDiscipline {W ε Op : Type} {Reply : Op → Type} (E : Environment W ε Op Reply)
    (Γ : Type) where
  allow : W → (op : Op) → E.Outcome op → Prop
  deliver : W → (op : Op) → Except ε (Reply op) → Prop
  rely : Γ → W → W → Prop
  guarantee : Γ → Γ → W → W → Prop

/-- The discipline of a stretch in which the ghost state stays `γ`. -/
def GhostDiscipline.fixed (D : GhostDiscipline E Γ) (γ : Γ) : Discipline E where
  allow := D.allow
  deliver := D.deliver
  rely := D.rely γ
  guarantee := D.guarantee γ γ

/-- A discipline is one whose ghost state says nothing. -/
def Discipline.ghost (D : Discipline E) : GhostDiscipline E Unit where
  allow := D.allow
  deliver := D.deliver
  rely := fun _ => D.rely
  guarantee := fun _ _ => D.guarantee

namespace Program

/-- The weakest precondition of a program that is given a ghost state: at each of its steps there is
a ghost state to go on with. -/
def gwp (D : GhostDiscipline E Γ) :
    Program W ε Op Reply α → (Except ε α → Γ → W → Prop) → Γ → W → Prop
  | ret a, Q, γ, w => Q (.ok a) γ w
  | fail e, Q, γ, w => Q (.error e) γ w
  | read k, Q, γ, w => (k w).gwp D Q γ w
  | write f k, Q, γ, w => ∃ γ', D.guarantee γ γ' w (f w) ∧ k.gwp D Q γ' (f w)
  | await op k, Q, γ, w => ∀ w₁, D.rely γ w w₁ → ∀ o, D.allow w₁ op o →
      ∃ γ', D.guarantee γ γ' w₁ (E.exec w₁ op o).2 ∧
        ∀ w₂, D.rely γ' (E.exec w₁ op o).2 w₂ → D.deliver w₂ op (E.exec w₁ op o).1 →
          (k (E.exec w₁ op o).1).gwp D Q γ' w₂

variable {D : GhostDiscipline E Γ} {Q : Except ε α → Γ → W → Prop} {γ : Γ} {w : W}

@[simp] theorem gwp_pure (a : α) :
    (pure a : Program W ε Op Reply α).gwp D Q γ w ↔ Q (.ok a) γ w := Iff.rfl

@[simp] theorem gwp_done (r : Except ε α) :
    (done r : Program W ε Op Reply α).gwp D Q γ w ↔ Q r γ w := by
  cases r <;> rfl

@[simp] theorem gwp_get (f : W → α) :
    (get f : Program W ε Op Reply α).gwp D Q γ w ↔ Q (.ok (f w)) γ w := Iff.rfl

theorem gwp_modify {Q : Except ε Unit → Γ → W → Prop} (f : W → W) :
    (modify f : Program W ε Op Reply Unit).gwp D Q γ w ↔
      ∃ γ', D.guarantee γ γ' w (f w) ∧ Q (.ok ()) γ' (f w) := Iff.rfl

theorem gwp_getModify (f : W → α × W) :
    (getModify f : Program W ε Op Reply α).gwp D Q γ w ↔
      ∃ γ', D.guarantee γ γ' w (f w).2 ∧ Q (.ok (f w).1) γ' (f w).2 := Iff.rfl

theorem gwp_await (op : Op) (k : Except ε (Reply op) → Program W ε Op Reply α) :
    (await op k).gwp D Q γ w ↔ ∀ w₁, D.rely γ w w₁ → ∀ o, D.allow w₁ op o →
      ∃ γ', D.guarantee γ γ' w₁ (E.exec w₁ op o).2 ∧
        ∀ w₂, D.rely γ' (E.exec w₁ op o).2 w₂ → D.deliver w₂ op (E.exec w₁ op o).1 →
          (k (E.exec w₁ op o).1).gwp D Q γ' w₂ := Iff.rfl

theorem gwp_perform {op : Op} {Q : Except ε (Reply op) → Γ → W → Prop} :
    (perform op : Program W ε Op Reply (Reply op)).gwp D Q γ w ↔
      ∀ w₁, D.rely γ w w₁ → ∀ o, D.allow w₁ op o →
        ∃ γ', D.guarantee γ γ' w₁ (E.exec w₁ op o).2 ∧
          ∀ w₂, D.rely γ' (E.exec w₁ op o).2 w₂ → D.deliver w₂ op (E.exec w₁ op o).1 →
            Q (E.exec w₁ op o).1 γ' w₂ := by
  simp only [perform, gwp_await, gwp_done]

/-- Sequencing with access to a thrown error. -/
theorem gwp_handle {Q : Except ε β → Γ → W → Prop} (p : Program W ε Op Reply α)
    (f : Except ε α → Program W ε Op Reply β) :
    (p.handle f).gwp D Q γ w ↔ p.gwp D (fun r γ w => (f r).gwp D Q γ w) γ w := by
  induction p generalizing γ w with
  | ret a => rfl
  | fail e => rfl
  | read k ih => exact ih w
  | write g k ih => exact exists_congr fun γ' => and_congr_right fun _ => ih
  | await op k ih =>
    simp only [handle, gwp_await]
    exact forall₂_congr fun w₁ _ => forall₂_congr fun o _ => exists_congr fun γ' =>
      and_congr_right fun _ => forall₃_congr fun w₂ _ _ => ih _

theorem gwp_mono {Q' : Except ε α → Γ → W → Prop} (p : Program W ε Op Reply α)
    (h : ∀ r γ w, Q r γ w → Q' r γ w) : p.gwp D Q γ w → p.gwp D Q' γ w := by
  induction p generalizing γ w with
  | ret a => exact h _ _ _
  | fail e => exact h _ _ _
  | read k ih => exact ih w
  | write g k ih =>
    rintro ⟨γ', hg, H⟩
    exact ⟨γ', hg, ih H⟩
  | await op k ih =>
    intro H w₁ h₁ o ho
    obtain ⟨γ', hg, H⟩ := H w₁ h₁ o ho
    exact ⟨γ', hg, fun w₂ h₂ hd => ih _ (H w₂ h₂ hd)⟩

theorem gwp_bind {Q : Except ε β → Γ → W → Prop} (p : Program W ε Op Reply α)
    (f : α → Program W ε Op Reply β) :
    (p >>= f).gwp D Q γ w ↔ p.gwp D (fun
      | .ok a, γ, w => (f a).gwp D Q γ w
      | .error e, γ, w => Q (.error e) γ w) γ w := by
  refine (gwp_handle p _).trans (iff_of_eq (congrArg (fun R => p.gwp D R γ w) ?_))
  funext r γ w
  cases r <;> rfl

theorem gwp_tryCatch (p : Program W ε Op Reply α) (h : ε → Program W ε Op Reply α) :
    (tryCatch p h).gwp D Q γ w ↔ p.gwp D (fun
      | .ok a, γ, w => Q (.ok a) γ w
      | .error e, γ, w => (h e).gwp D Q γ w) γ w := by
  refine (gwp_handle p _).trans (iff_of_eq (congrArg (fun R => p.gwp D R γ w) ?_))
  funext r γ w
  cases r <;> rfl

/-- Without a ghost state it is the weakest precondition. -/
theorem gwp_ghost {D : Discipline E} {Q : Except ε α → W → Prop} {w : W}
    (p : Program W ε Op Reply α) : p.gwp D.ghost (fun r _ => Q r) () w ↔ p.wp D Q w := by
  induction p generalizing w with
  | ret a => rfl
  | fail e => rfl
  | read k ih => exact ih w
  | write f k ih =>
    rw [wp_write, gwp]
    constructor
    · rintro ⟨⟨⟩, hg, h⟩
      exact ⟨hg, ih.mp h⟩
    · rintro ⟨hg, h⟩
      exact ⟨(), hg, ih.mpr h⟩
  | await op k ih =>
    rw [wp_await, gwp_await]
    refine forall₂_congr fun w₁ _ => forall₂_congr fun o _ => ?_
    constructor
    · rintro ⟨⟨⟩, hg, h⟩
      exact ⟨hg, fun w₂ h₂ hd => (ih _).mp (h w₂ h₂ hd)⟩
    · rintro ⟨hg, h⟩
      exact ⟨(), hg, fun w₂ h₂ hd => (ih _).mpr (h w₂ h₂ hd)⟩

/-- A stretch in which the ghost state stays what it is. -/
theorem gwp_of_wp {p : Program W ε Op Reply α} {R : Except ε α → W → Prop}
    (h : p.wp (D.fixed γ) R w) (hQ : ∀ r w', R r w' → Q r γ w') : p.gwp D Q γ w := by
  induction p generalizing w with
  | ret a => exact hQ _ _ h
  | fail e => exact hQ _ _ h
  | read k ih => exact ih w h
  | write g k ih => exact ⟨γ, h.1, ih h.2⟩
  | await op k ih =>
    intro w₁ h₁ o ho
    obtain ⟨hg, h⟩ := h w₁ h₁ o ho
    exact ⟨γ, hg, fun w₂ h₂ hd => ih _ (h w₂ h₂ hd)⟩

/-- A first part in which the ghost state stays what it is. -/
theorem gwp_then {Q : Except ε β → Γ → W → Prop} {p : Program W ε Op Reply α}
    {f : α → Program W ε Op Reply β} {R : Except ε α → W → Prop} (h : p.wp (D.fixed γ) R w)
    (hok : ∀ a w', R (.ok a) w' → (f a).gwp D Q γ w')
    (herr : ∀ e w', R (.error e) w' → Q (.error e) γ w') : (p >>= f).gwp D Q γ w := by
  rw [gwp_bind]
  apply gwp_of_wp h
  rintro (e | a) w' hR
  · exact herr e w' hR
  · exact hok a w' hR

theorem gwp_tryFinally (p : Program W ε Op Reply α) (f : Program W ε Op Reply Unit) :
    (tryFinally p f).gwp D Q γ w ↔ p.gwp D (fun r γ w => f.gwp D (fun
      | .ok _, γ, w => Q r γ w
      | .error e, γ, w => Q (.error e) γ w) γ w) γ w := by
  refine (gwp_handle p _).trans (iff_of_eq (congrArg (fun R => p.gwp D R γ w) ?_))
  funext r γ w
  refine propext ((gwp_bind f fun _ => done r).trans
    (iff_of_eq (congrArg (fun R => f.gwp D R γ w) ?_)))
  funext s γ w
  cases s <;> simp

/-! ### Programs that keep an assertion on their ghost state -/

/-- From every ghost state and world in `I`, `p` ends in `I`. -/
def GKeeps (D : GhostDiscipline E Γ) (I : Γ → W → Prop) (p : Program W ε Op Reply α) : Prop :=
  ∀ γ w, I γ w → p.gwp D (fun _ γ' w' => I γ' w') γ w

namespace GKeeps

variable {I : Γ → W → Prop}

theorem ret (a : α) : (ret a : Program W ε Op Reply α).GKeeps D I := fun _ _ h => h

theorem fail (e : ε) : (fail e : Program W ε Op Reply α).GKeeps D I := fun _ _ h => h

theorem done (r : Except ε α) : (done r : Program W ε Op Reply α).GKeeps D I :=
  fun _ _ h => (gwp_done r).mpr h

theorem get (f : W → α) : (get f : Program W ε Op Reply α).GKeeps D I := fun _ _ h => h

theorem handle {p : Program W ε Op Reply α} {f : Except ε α → Program W ε Op Reply β}
    (hp : p.GKeeps D I) (hf : ∀ r, (f r).GKeeps D I) : (p.handle f).GKeeps D I :=
  fun γ w h => (gwp_handle p f).mpr (gwp_mono p (fun r γ' w' h' => hf r γ' w' h') (hp γ w h))

theorem bind {p : Program W ε Op Reply α} {f : α → Program W ε Op Reply β}
    (hp : p.GKeeps D I) (hf : ∀ a, (f a).GKeeps D I) : (p >>= f).GKeeps D I := by
  apply handle hp
  rintro (e | a)
  · exact fail e
  · exact hf a

theorem tryCatch {p : Program W ε Op Reply α} {h : ε → Program W ε Op Reply α}
    (hp : p.GKeeps D I) (hh : ∀ e, (h e).GKeeps D I) : (p.tryCatch h).GKeeps D I := by
  apply handle hp
  rintro (e | a)
  · exact hh e
  · exact ret a

theorem tryFinally {p : Program W ε Op Reply α} {f : Program W ε Op Reply Unit}
    (hp : p.GKeeps D I) (hf : f.GKeeps D I) : (p.tryFinally f).GKeeps D I :=
  handle hp fun r => bind hf fun _ => done r

/-- A stretch in which the ghost state stays what it is. -/
theorem of_keeps {p : Program W ε Op Reply α} (h : ∀ γ, p.Keeps (D.fixed γ) (I γ)) :
    p.GKeeps D I := fun γ w hw => gwp_of_wp (h γ w hw) fun _ _ h => h

/-- What is known of the result of the first part may be used for the second. -/
theorem seq {p : Program W ε Op Reply α} {f : α → Program W ε Op Reply β} {R : α → Γ → W → Prop}
    (hp : ∀ γ w, I γ w → p.gwp D (fun r γ' w' => I γ' w' ∧ ∀ a, r = .ok a → R a γ' w') γ w)
    (hf : ∀ a γ w, I γ w → R a γ w → (f a).gwp D (fun _ γ' w' => I γ' w') γ w) :
    (p >>= f).GKeeps D I := by
  intro γ w h
  rw [gwp_bind]
  refine gwp_mono p ?_ (hp γ w h)
  rintro (e | a) γ' w' ⟨h', hR⟩
  · exact h'
  · exact hf a γ' w' h' (hR a rfl)

end GKeeps

end Program

namespace System

variable {S : System E}

/-- Disciplines with ghost states under which the programs of a system run together. A thread that
has not been started is in the state `idle`, one that has ended leaves `Post`. -/
structure GhostSound (S : System E) (D : ℕ → S.Action → GhostDiscipline E Γ) (idle : Γ)
    (Inv : (ℕ → Γ) → W → Prop) (Post : ℕ → S.Action → Γ → W → Prop) : Prop where
  allow : ∀ i a gs w op o, Inv gs w → S.allow w op o → (D i a).allow w op o
  deliver : ∀ i a gs w op r, Inv gs w → S.deliver w op r → (D i a).deliver w op r
  rely_refl : ∀ i a γ w, (D i a).rely γ w w
  rely_trans : ∀ i a γ w₁ w₂ w₃, (D i a).rely γ w₁ w₂ → (D i a).rely γ w₂ w₃ → (D i a).rely γ w₁ w₃
  compat : ∀ i j a b gs γ' w w', i ≠ j → Inv gs w → (D i a).guarantee (gs i) γ' w w' →
    (D j b).rely (gs j) w w'
  inv : ∀ i a gs γ' w w', Inv gs w → (D i a).guarantee (gs i) γ' w w' →
    Inv (Function.update gs i γ') w'
  start : ∀ i a gs w, gs i = idle → Inv gs w → S.enabled w a →
    (S.program i a).gwp (D i a) (fun _ => Post i a) idle w
  post : ∀ i a γ w w', Post i a γ w → (D i a).rely γ w w' → Post i a γ w'
  crash : ∀ gs w w', Inv gs w → S.crash w w' → Inv (fun _ => idle) w'

/-- What a thread in the ghost state `γ` still has to meet. -/
def GhostMeets (D : GhostDiscipline E Γ) (Post : Γ → W → Prop) (γ : Γ) (w : W) :
    Thread W ε Op Reply → Prop
  | .waiting op k => (Program.await op k).gwp D (fun _ => Post) γ w
  | .answered op r p => ∀ w', D.rely γ w w' → D.deliver w' op r → p.gwp D (fun _ => Post) γ w'
  | .finished => Post γ w

/-- The invariant, and what every thread still has to meet, for these ghost states. -/
structure GhostOk (D : ℕ → S.Action → GhostDiscipline E Γ) (idle : Γ) (Inv : (ℕ → Γ) → W → Prop)
    (Post : ℕ → S.Action → Γ → W → Prop) (gs : ℕ → Γ) (c : S.Config) : Prop where
  inv : Inv gs c.world
  idle : ∀ i, c.threads i = none → gs i = idle
  meets : ∀ i a t, c.threads i = some (a, t) → GhostMeets (D i a) (Post i a) (gs i) c.world t

variable {D : ℕ → S.Action → GhostDiscipline E Γ} {idle : Γ} {Inv : (ℕ → Γ) → W → Prop}
  {Post : ℕ → S.Action → Γ → W → Prop} {gs : ℕ → Γ}

theorem GhostOk.start {w : W} (h : Inv (fun _ => idle) w) :
    GhostOk D idle Inv Post (fun _ => idle) (Config.idle w : S.Config) :=
  ⟨h, fun _ _ => rfl, fun _ _ _ ht => nomatch ht⟩

/-- What others change leaves a thread what it has to meet. -/
theorem GhostSound.meets_rely (hS : S.GhostSound D idle Inv Post) {i : ℕ} {a : S.Action} {γ : Γ}
    {w w' : W} (hr : (D i a).rely γ w w') {t : Thread W ε Op Reply}
    (ht : GhostMeets (D i a) (Post i a) γ w t) : GhostMeets (D i a) (Post i a) γ w' t := by
  cases t with
  | waiting op k =>
    intro w₁ h₁
    apply ht w₁
    exact hS.rely_trans i a γ _ _ _ hr h₁
  | answered op r p =>
    intro w₁ h₁
    apply ht w₁
    exact hS.rely_trans i a γ _ _ _ hr h₁
  | finished => exact hS.post i a γ w w' ht hr

/-- One step of a thread, of its ghost state and of the world. -/
def GhostStep (D : GhostDiscipline E Γ) (s s' : Γ × W) : Prop := D.guarantee s.1 s'.1 s.2 s'.2

/-- The synchronous part of a program. -/
theorem settle_ghostMeets {D : GhostDiscipline E Γ} {Post : Γ → W → Prop}
    {p : Program W ε Op Reply Unit} {γ : Γ} {w : W} (h : p.gwp D (fun _ => Post) γ w) :
    ∃ γ', Relation.ReflTransGen (GhostStep D) (γ, w) (γ', (settle p w).2) ∧
      GhostMeets D Post γ' (settle p w).2 (settle p w).1 := by
  induction p generalizing γ w with
  | ret a => exact ⟨γ, .refl, h⟩
  | fail e => exact ⟨γ, .refl, h⟩
  | read k ih => exact ih w h
  | write f k ih =>
    obtain ⟨γ₁, hg, h⟩ := h
    obtain ⟨γ', hc, hm⟩ := ih h
    have hstep : GhostStep D (γ, w) (γ₁, f w) := hg
    exact ⟨γ', .head hstep hc, hm⟩
  | await op k ih => exact ⟨γ, .refl, h⟩

/-- The steps of a thread keep the invariant and lie in what the other threads rely on. -/
theorem GhostSound.guarantees (hS : S.GhostSound D idle Inv Post) {i : ℕ} {a : S.Action} {w : W}
    {s : Γ × W} (hw : Inv gs w) (h : Relation.ReflTransGen (GhostStep (D i a)) (gs i, w) s) :
    Inv (Function.update gs i s.1) s.2 ∧ ∀ j b, i ≠ j → (D j b).rely (gs j) w s.2 := by
  induction h with
  | refl =>
    rw [Function.update_eq_self]
    exact ⟨hw, fun j b _ => hS.rely_refl j b _ w⟩
  | @tail s₁ s₂ _ hg ih =>
    obtain ⟨hi, hr⟩ := ih
    have hg' : (D i a).guarantee (Function.update gs i s₁.1 i) s₂.1 s₁.2 s₂.2 := by
      rw [Function.update_self]
      exact hg
    have hi' := hS.inv i a _ _ _ _ hi hg'
    rw [Function.update_idem] at hi'
    refine ⟨hi', fun j b hij => hS.rely_trans j b _ _ _ _ (hr j b hij) ?_⟩
    have hcompat := hS.compat i j a b _ _ _ _ hij hi hg'
    rwa [Function.update_of_ne (Ne.symm hij)] at hcompat

/-- One thread runs and the others are left what they have to meet. -/
theorem GhostSound.update (hS : S.GhostSound D idle Inv Post) {c : S.Config}
    (hc : GhostOk D idle Inv Post gs c) {i : ℕ} {a : S.Action} {x : Thread W ε Op Reply × W} {γ : Γ}
    (hg : Relation.ReflTransGen (GhostStep (D i a)) (gs i, c.world) (γ, x.2))
    (hx : GhostMeets (D i a) (Post i a) γ x.2 x.1) :
    GhostOk D idle Inv Post (Function.update gs i γ) (c.update i a x) := by
  obtain ⟨hi, hr⟩ := hS.guarantees hc.inv hg
  have hself : (c.update i a x).threads i = some (a, x.1) := Function.update_self ..
  have hother {j : ℕ} (hij : j ≠ i) : (c.update i a x).threads j = c.threads j :=
    Function.update_of_ne hij ..
  refine ⟨hi, fun j hj => ?_, fun j b t ht => ?_⟩
  · by_cases hij : j = i
    · subst hij
      cases hself.symm.trans hj
    · rw [Function.update_of_ne hij]
      exact hc.idle j ((hother hij).symm.trans hj)
  · by_cases hij : j = i
    · subst hij
      obtain ⟨rfl, rfl⟩ : a = b ∧ x.1 = t := by
        simpa using hself.symm.trans ht
      rw [Function.update_self]
      exact hx
    · rw [Function.update_of_ne hij]
      exact hS.meets_rely (hr j b (Ne.symm hij)) (hc.meets j b t ((hother hij).symm.trans ht))

theorem GhostSound.step (hS : S.GhostSound D idle Inv Post) {c c' : S.Config}
    (hc : GhostOk D idle Inv Post gs c) (h : S.Step c c') :
    ∃ gs', GhostOk D idle Inv Post gs' c' := by
  cases h with
  | start i a hi ha =>
    have hidle := hc.idle i hi
    obtain ⟨γ, hg, hm⟩ := settle_ghostMeets (hS.start i a gs _ hidle hc.inv ha)
    exact ⟨_, hS.update hc (hidle ▸ hg) hm⟩
  | @effect i a op k o hi ho =>
    obtain ⟨γ, hg, hm⟩ := hc.meets i a _ hi c.world (hS.rely_refl i a _ _) o
      (hS.allow i a gs _ op o hc.inv ho)
    exact ⟨_, hS.update hc (.single hg) hm⟩
  | @deliver i a op r p hi hd =>
    have hm := hc.meets i a _ hi c.world (hS.rely_refl i a _ _) (hS.deliver i a gs _ op r hc.inv hd)
    obtain ⟨γ, hg, hm⟩ := settle_ghostMeets hm
    exact ⟨_, hS.update hc hg hm⟩
  | crash hw => exact ⟨_, GhostOk.start (hS.crash gs _ _ hc.inv hw)⟩

/-- **Along a run** there are ghost states for which the invariant holds and every thread has what
it has to meet. -/
theorem GhostSound.steps (hS : S.GhostSound D idle Inv Post) {c c' : S.Config}
    (hc : GhostOk D idle Inv Post gs c) (h : S.Steps c c') :
    ∃ gs', GhostOk D idle Inv Post gs' c' := by
  induction h with
  | refl => exact ⟨gs, hc⟩
  | tail _ hs ih =>
    obtain ⟨gs', hc'⟩ := ih
    exact hS.step hc' hs

theorem GhostSound.reachable (hS : S.GhostSound D idle Inv Post) {w₀ : W}
    (h₀ : Inv (fun _ => idle) w₀) {c : S.Config} (h : S.Reachable w₀ c) :
    ∃ gs, GhostOk D idle Inv Post gs c :=
  hS.steps (GhostOk.start h₀) h

/-- What every step of the threads keeps may be added to the invariant. -/
theorem GhostSound.and_keeps (hS : S.GhostSound D idle Inv Post) {K : W → Prop}
    (hK : ∀ i a gs γ' w w', Inv gs w → (D i a).guarantee (gs i) γ' w w' → K w → K w')
    (hcrash : ∀ gs w w', Inv gs w → S.crash w w' → K w → K w') :
    S.GhostSound D idle (fun gs w => Inv gs w ∧ K w) Post where
  allow i a gs w op o h := hS.allow i a gs w op o h.1
  deliver i a gs w op r h := hS.deliver i a gs w op r h.1
  rely_refl := hS.rely_refl
  rely_trans := hS.rely_trans
  compat i j a b gs γ' w w' hij h := hS.compat i j a b gs γ' w w' hij h.1
  inv i a gs γ' w w' h hg := ⟨hS.inv i a gs γ' w w' h.1 hg, hK i a gs γ' w w' h.1 hg h.2⟩
  start i a gs w hidle h := hS.start i a gs w hidle h.1
  post := hS.post
  crash gs w w' h hw := ⟨hS.crash gs w w' h.1 hw, hcrash gs w w' h.1 hw h.2⟩

/-- What every step of the threads keeps is kept along a run. -/
theorem GhostSound.keeps (hS : S.GhostSound D idle Inv Post) {c c' : S.Config}
    (hc : GhostOk D idle Inv Post gs c) (h : S.Steps c c') {K : W → Prop}
    (hK : ∀ i a gs γ' w w', Inv gs w → (D i a).guarantee (gs i) γ' w w' → K w → K w')
    (hcrash : ∀ gs w w', Inv gs w → S.crash w w' → K w → K w') (hw : K c.world) : K c'.world := by
  have hc' : GhostOk D idle (fun gs w => Inv gs w ∧ K w) Post gs c :=
    ⟨⟨hc.inv, hw⟩, hc.idle, hc.meets⟩
  obtain ⟨gs', hok⟩ := (hS.and_keeps hK hcrash).steps hc' h
  exact hok.inv.2

end System

end Async
