import CajaSegura.Platform.Sample
import CajaSegura.Screens.HomeRules

/-!
# Failures in the handlers of the home screen

A handler runs alone, and each of its calls may fail. What happens before its `try` is not caught,
what it finds on the screen stays there when it gives up, and the second of two loads takes the
error of the first away.

## Main definitions

* `Contained`: the handler has completed, `_busy` is cleared, and an error is shown for a failure
* `Harmless`: what is asked of the calls for that

## Main results

* `HomeScreen.contained_iff`: a handler contains its failures exactly when its calls are harmless
* `HomeScreen.import_escapes`: an error of the picker leaves the handler
-/

namespace CajaSegura

open Codec Async
open Program hiding bind

variable {P : Platform}

namespace HomeScreen

/-! ## What is wanted -/

/-- The taps that start a handler. -/
def Tap : HomeAction → Prop
  | .tapImport | .tapExport _ | .tapDelete _ => True
  | _ => False

/-- The call threw. -/
def Threw (c : HomeReply) : Prop := ∃ e, c.outcome = .error e

/-- The call threw, or authentication was refused after files had been picked. -/
def Fails (c : HomeReply) : Prop :=
  Threw c ∨ c.call = .unlockAgain ∧ c.outcome = .ok false

/-- The handler completes normally, clears `_busy`, and shows an error for a failure and for nothing
else. -/
structure Contained (l : List HomeReply) (r : Except DartError Unit) (w : World) : Prop where
  completes : r = .ok ()
  busy : w.homeScreen._busy = false
  error : w.homeScreen._error ≠ none ↔ ∃ c ∈ l, Fails c

/-! ## When it is so -/

/-- The calls that stand before the `try` of a handler. -/
def Early (c : HomeReply) : Prop :=
  c.call = .unlock ∨ c.call = .pickFiles ∨ c.call = .showDialog

/-- The `unlock` after which a handler takes the key. -/
def keying : HomeAction → HomeCall
  | .tapImport => .unlockAgain
  | _ => .unlock

/-- What is asked of the calls behind a `try`, the last one first: a key is there when `unlock` has
granted it, and an entry that is exported has contents. -/
structure Mends (a : HomeAction) (l : List HomeReply) : Prop where
  keyed : ∀ c ∈ l, c.call = keying a → c.outcome = .ok true → c.keyed = true
  bytes : ∀ c ∈ l, c.call = .exportClear → c.outcome ≠ .ok false

/-- No call throws before the `try`, and a handler that does not come to it finds no error on the
screen. -/
structure Harmless (a : HomeAction) (w : World) (l : List HomeReply) : Prop extends Mends a l where
  early : ∀ c ∈ l, Early c → ¬ Threw c
  shown : (∀ c ∈ l, Early c) → w.homeScreen._error = none

/-- How a handler that was started in `w` ends. -/
def Ends (a : HomeAction) (w : World) (r : Except DartError Unit) (w' : World) : Prop :=
  ∃ l, w'.record.replies = l ++ w.record.replies ∧ (Contained l r w' ↔ Harmless a w l)

/-! ## The course of a handler -/

/-- The screen is as before, and no call of it has ended. -/
structure Silent (w w' : World) : Prop where
  homeScreen : w'.homeScreen = w.homeScreen
  replies : w'.record.replies = w.record.replies

theorem silent_exec (w : World) (op : Op) (o : Outcome op) : Silent w (w.exec P op o).2 := by
  have h := World.outside_exec P w op o
  exact ⟨h.homeScreen, h.replies⟩

theorem silent_draws {w w' : World} (h : Draws w w') : Silent w w' := by
  obtain ⟨n, u, rfl⟩ := h
  exact ⟨rfl, rfl⟩

/-- The handler was started in `w₀`, and these calls have ended since. -/
structure Told (w₀ : World) (l : List HomeReply) (busy : Bool) (error : Option Text) (w : World) :
    Prop where
  mounted : w.homeScreen.mounted = true
  busy : w.homeScreen._busy = busy
  error : w.homeScreen._error = error
  replies : w.record.replies = l ++ w₀.record.replies

variable {w₀ w w' : World} {l : List HomeReply} {b : Bool} {e : Option Text} {α : Type}

theorem Told.silent (h : Told w₀ l b e w) (hs : Silent w w') : Told w₀ l b e w' where
  mounted := hs.homeScreen ▸ h.mounted
  busy := hs.homeScreen ▸ h.busy
  error := hs.homeScreen ▸ h.error
  replies := hs.replies.trans h.replies

theorem Told.passes (h : Told w₀ l b e w) (ht : TimePasses w w') : Told w₀ l b e w' := by
  obtain ⟨t, rfl⟩ := ht
  exact h.silent ⟨rfl, rfl⟩

/-- What a program keeps that does not touch the screen. -/
theorem told_keeps {p : App α} (hp : p.Within (fun _ => True) Silent) :
    p.Keeps (undisturbed P) (Told w₀ l b e) := by
  refine Within.keeps hp (fun w w' h hr => h.passes hr) (fun w w' h hs => ⟨trivial, h.silent hs⟩) ?_
  exact fun op _ w o h _ => ⟨trivial, h.silent (silent_exec w op o)⟩

/-- A call of the handler ends. -/
theorem Told.observed {p : App α} (h : Told w₀ l b e w) (hp : p.Within (fun _ => True) Silent)
    {c : HomeCall} {verdict : α → Bool} {Q : Except DartError α → World → Prop}
    (hQ : ∀ r w', Told w₀ (⟨c, r.map verdict, (LockManager.kek w').isSome⟩ :: l) b e w' → Q r w') :
    (observed c verdict p).wp (undisturbed P) Q w := by
  rw [wp_observed]
  refine wp_mono p ?_ (told_keeps hp w h)
  intro r w' h'
  refine ⟨trivial, hQ r _ ⟨h'.mounted, h'.busy, h'.error, ?_⟩⟩
  exact congrArg (_ :: ·) h'.replies

/-- The end of a section clears the flag. -/
theorem Told.given (h : Told w₀ l b e w) (m : ℕ × Stretch)
    {Q : Except DartError Unit → World → Prop} (hQ : ∀ w', Told w₀ l false e w' → Q (.ok ()) w') :
    (Program.modify fun w => World.left m (if w.homeScreen.mounted then HomeScreen.given w else w)
      : App Unit).wp (undisturbed P) Q w := by
  rw [wp_modify, if_pos h.mounted]
  exact ⟨trivial, hQ _ ⟨h.mounted, rfl, h.error, h.replies⟩⟩

/-- An error is shown. -/
theorem Told.failed (h : Told w₀ l b e w) (what : Text) (x : DartError)
    {Q : Except DartError Unit → World → Prop}
    (hQ : ∀ w' e', e' ≠ none → Told w₀ l b e' w' → Q (.ok ()) w') :
    (whenMounted (HomeScreen.failed what x)).wp (undisturbed P) Q w := by
  unfold whenMounted
  rw [wp_modify, if_pos h.mounted]
  exact ⟨trivial, hQ _ _ (Option.some_ne_none _) ⟨h.mounted, h.busy, rfl, h.replies⟩⟩

/-- What is found when an asynchronous function has returned. -/
theorem told_awaited {p : App α} {R : Except DartError α → World → Prop}
    (hp : p.wp (undisturbed P) R w) (hR : ∀ r w w', R r w → Silent w w' → R r w') :
    (awaited p).wp (undisturbed P) R w := by
  rw [wp_awaited]
  refine wp_mono p ?_ hp
  intro r w₁ h₁
  rw [wp_call]
  rintro w₂ ⟨t, rfl⟩ o -
  refine ⟨trivial, ?_⟩
  rintro w₃ ⟨t', rfl⟩ -
  refine hR r _ _ (hR r _ _ h₁ ⟨rfl, rfl⟩) ?_
  obtain ⟨hs, hr⟩ := silent_exec (P := P) { w₁ with now := t } .hop o
  exact ⟨hs, hr⟩

/-- A listing ends, and does not throw. -/
theorem listAll_told (h : Told w₀ l b e w) {verdict : List VaultFileMeta → Bool}
    {Q : Except DartError (List VaultFileMeta) → World → Prop}
    (hQ : ∀ all w', Told w₀ (⟨.listAll, .ok (verdict all), (LockManager.kek w').isSome⟩ :: l) b e
      w' → Q (.ok all) w') :
    (observed .listAll verdict (awaited (VaultRepository.listAll P))).wp (undisturbed P) Q w := by
  have hkeeps : (VaultRepository.listAll P).Keeps (undisturbed P) (Told w₀ l b e) :=
    told_keeps (Within.mono (fun _ _ => trivial) (fun _ _ => id) VaultRepository.within_listAll)
  have hlisted := told_awaited (wp_tryCatch_ret (hkeeps w h))
    fun r w w' hr hs => ⟨hr.1, hr.2.silent hs⟩
  rw [wp_observed]
  refine wp_mono _ ?_ hlisted
  rintro _ w' ⟨⟨all, rfl⟩, h'⟩
  refine ⟨trivial, hQ all _ ⟨h'.mounted, h'.busy, h'.error, ?_⟩⟩
  exact congrArg (_ :: ·) h'.replies

/-- A load that is forced clears the flag and the error. -/
theorem load_told (h : Told w₀ l b e w) (self : ℕ) : (_load P self true).wp (undisturbed P)
    (fun r w' => r = .ok () ∧ ∃ c, c.call = .listAll ∧ ¬ Threw c ∧
      Told w₀ (c :: l) false none w') w := by
  unfold _load whenMounted
  rw [wp_bind, wp_get]
  simp only [Bool.not_true, Bool.and_false, Bool.false_eq_true, if_false]
  rw [wp_bind, wp_modify, if_pos h.mounted]
  refine ⟨trivial, ?_⟩
  have htaken : Told w₀ l true none (World.entered (self, .load) (taken w)) :=
    ⟨h.mounted, rfl, rfl, h.replies⟩
  dsimp only [Function.comp]
  rw [wp_tryFinally, wp_tryCatch, wp_bind]
  apply listAll_told htaken
  intro all w₁ h₁
  dsimp only
  rw [wp_modify, if_pos h₁.mounted]
  have h₂ : Told w₀ _ true none
      (shown (fun s => { s with _items := VaultRepository.sortMetas all }) w₁) :=
    ⟨h₁.mounted, h₁.busy, h₁.error, h₁.replies⟩
  refine ⟨trivial, ?_⟩
  apply h₂.given
  exact fun w₃ h₃ => ⟨rfl, _, rfl, by rintro ⟨x, ⟨⟩⟩, h₃⟩

/-! ## The section of a handler -/

/-- A call that does not export, nor grants a key that is not there. -/
structure Smooth (a : HomeAction) (c : HomeReply) : Prop where
  exportClear : c.call ≠ .exportClear
  keyed : c.call = keying a → c.outcome = .ok true → c.keyed = true

variable {a : HomeAction} {p q : List HomeReply} {c : HomeReply}

theorem mends_smooth (h : ∀ c ∈ q, Smooth a c) : Mends a q where
  keyed c hc := (h c hc).keyed
  bytes c hc hcall := absurd hcall (h c hc).exportClear

theorem mends_cons : Mends a (c :: q) ↔ Mends a q ∧
    (c.call = keying a → c.outcome = .ok true → c.keyed = true) ∧
    (c.call = .exportClear → c.outcome ≠ .ok false) := by
  constructor
  · intro h
    exact ⟨⟨fun c hc => h.keyed c (.tail _ hc), fun c hc => h.bytes c (.tail _ hc)⟩,
      h.keyed c (.head _), h.bytes c (.head _)⟩
  · rintro ⟨hq, hkeyed, hbytes⟩
    exact ⟨List.forall_mem_cons.mpr ⟨hkeyed, hq.keyed⟩, List.forall_mem_cons.mpr ⟨hbytes, hq.bytes⟩⟩

/-- What the calls `s` of a section account for that ends with `r` and shows `e` then. -/
structure Accounts (a : HomeAction) (p s : List HomeReply) (r : Except DartError Unit)
    (e : Option Text) : Prop where
  late : ∀ c ∈ s, ¬ Early c
  comes : s ≠ [] ∨ ¬ Mends a (s ++ p)
  shows : (((∃ x, r = .error x) ∨ e ≠ none) ↔ ∃ c ∈ s, Fails c) ↔ Mends a (s ++ p)

/-- A section that starts with no error on the screen. -/
def Section (P : Platform) (a : HomeAction) (w₀ : World) (p : List HomeReply) (body : App Unit)
    (w : World) : Prop :=
  body.wp (undisturbed P) (fun r w' => ∃ s b e, Told w₀ (s ++ p) b e w' ∧ Accounts a p s r e) w

/-- The section of a handler catches what is thrown in it. -/
theorem guarded_told {self : ℕ} {what : Text} {body : App Unit} (h : Told w₀ p b e w)
    (hp : ∀ c ∈ p, Early c ∧ ¬ Threw c)
    (hbody : ∀ w', LockManager.kek w' = LockManager.kek w → Told w₀ p true none w' →
      Section P a w₀ p body w') :
    (guarded self what body).wp (undisturbed P) (Ends a w₀) w := by
  -- what is shown at the end belongs to the section
  have hend {s : List HomeReply} {r : Except DartError Unit} {e₁ e₂ : Option Text} {w' : World}
      (h' : Told w₀ (s ++ p) false e₂ w') (hs : Accounts a p s r e₁)
      (he : e₂ ≠ none ↔ (∃ x, r = .error x) ∨ e₁ ≠ none) : Ends a w₀ (.ok ()) w' := by
    refine ⟨s ++ p, h'.replies, ?_⟩
    -- what came before the section has not failed, so only its own replies count
    have hfails : (∃ c ∈ s ++ p, Fails c) ↔ ∃ c ∈ s, Fails c := by
      simp only [List.mem_append, or_and_right, exists_or]
      refine or_iff_left ?_
      rintro ⟨c, hc, ht | ⟨hcall, -⟩⟩
      · exact (hp c hc).2 ht
      · rcases (hp c hc).1 with hc' | hc' | hc' <;> exact absurd (hc'.symm.trans hcall) nofun
    have hshows := hs.shows
    rw [← he] at hshows
    refine Iff.trans ⟨fun hc => ?_, fun hm => ?_⟩ ⟨fun hm => ⟨hm, ?_, ?_⟩, fun hm => hm.toMends⟩
    · exact hshows.mp (h'.error ▸ hc.error.trans hfails)
    · exact ⟨rfl, h'.busy, h'.error.symm ▸ (hshows.mpr hm).trans hfails.symm⟩
    · intro c hc hearly
      rcases List.mem_append.mp hc with hc | hc
      · exact absurd hearly (hs.late c hc)
      · exact (hp c hc).2
    · intro hall
      obtain ⟨c, hc⟩ := List.exists_mem_of_ne_nil s (hs.comes.resolve_right (not_not_intro hm))
      exact absurd (hall c (List.mem_append_left p hc)) (hs.late c hc)
  unfold guarded setState
  rw [wp_bind, wp_bind, wp_use (show w.mounted .home = true from h.mounted)]
  dsimp only
  rw [wp_modify]
  refine ⟨trivial, ?_⟩
  dsimp only [Function.comp]
  rw [wp_bind, wp_modify]
  refine ⟨trivial, ?_⟩
  have htaken : Told w₀ p true none
      (World.left (self, .exposed .home) (World.entered (self, .handler) (taken w))) :=
    ⟨h.mounted, rfl, rfl, h.replies⟩
  dsimp only
  rw [wp_tryFinally, wp_tryCatch]
  refine wp_mono _ ?_ (hbody _ rfl htaken)
  -- with an error, `catch` shows it; without one, the error of the body stays
  rintro (x | u) w₁ ⟨s, b₁, e₁, h₁, hs⟩
  · dsimp only
    apply h₁.failed
    intro w₂ e₂ he₂ h₂
    apply h₂.given
    exact fun w₃ h₃ => hend h₃ hs (iff_of_true he₂ (.inl ⟨x, rfl⟩))
  · dsimp only
    apply h₁.given
    exact fun w₃ h₃ => hend h₃ hs (or_iff_right nofun).symm

/-! ## The import -/

/-- The key is there, or the last call is an `unlock` that has not led to it. -/
theorem finalKek_told (h : Told w₀ l b e w) : (finalKek P).wp (undisturbed P) (fun r w' =>
    ∃ q, Told w₀ (q ++ l) b e w' ∧
      match r with
      | .ok _ => ∀ c ∈ q, c.call = .unlockAgain ∧ c.outcome = .ok true ∧ c.keyed = true
      | .error _ => ∃ c, q = [c] ∧ c.call = .unlockAgain ∧ (c.outcome = .ok true → c.keyed = false))
    w := by
  unfold finalKek
  rw [wp_bind, wp_get]
  dsimp only
  rw [wp_bind, wp_when]
  cases hk : LockManager.kek w with
  -- the session is open
  | some k =>
    refine ⟨nofun, fun _ => ?_⟩
    dsimp only
    rw [wp_bind, wp_get, hk]
    exact ⟨[], h, List.forall_mem_nil _⟩
  -- one more `unlock` decides
  | none =>
    refine ⟨fun _ => ?_, nofun⟩
    rw [wp_bind]
    apply h.observed (within_unlock (fun _ _ => silent_draws) (fun _ _ => ⟨rfl, rfl⟩)
      fun _ => ⟨rfl, rfl⟩)
    rintro (x | reauth) w₁ h₁
    · exact ⟨_, h₁, _, rfl, rfl, nofun⟩
    cases reauth with
    | false => exact ⟨_, h₁, _, rfl, rfl, nofun⟩
    | true =>
      simp only [if_true]
      rw [wp_bind, wp_get]
      dsimp only
      rw [wp_when]
      cases hk₁ : LockManager.kek w₁ with
      -- unlocked, but closed again when the key is read
      | none => exact ⟨fun _ => ⟨_, h₁, _, rfl, rfl, fun _ => by rw [hk₁]; rfl⟩, nofun⟩
      | some k =>
        refine ⟨nofun, fun _ => ?_⟩
        dsimp only
        rw [wp_bind, wp_get, hk₁]
        refine ⟨[_], h₁, fun c hc => ?_⟩
        obtain rfl := List.mem_singleton.mp hc
        exact ⟨rfl, rfl, by rw [hk₁]; rfl⟩

/-- The batch stops at the first call that throws. -/
theorem importEach_told (kek : Ref) (files : List (Option Text)) (h : Told w₀ l b e w) :
    (importEach P kek files).wp (undisturbed P) (fun r w' => ∃ q, Told w₀ (q ++ l) b e w' ∧
      (∀ c ∈ q, c.call = .fileExists ∨ c.call = .importFile) ∧
      ((∃ x, r = .error x) ↔ ∃ c ∈ q, Threw c)) w := by
  induction files generalizing w l with
  | nil => exact ⟨[], h, List.forall_mem_nil _, iff_of_false nofun nofun⟩
  | cons f files ih =>
    -- the calls of the first file, none of which threw, and those of the others
    have hrest {q : List HomeReply} {w' : World} (h' : Told w₀ (q ++ l) b e w')
        (hq : ∀ c ∈ q, (c.call = .fileExists ∨ c.call = .importFile) ∧ ¬ Threw c) :
        (importEach P kek files).wp (undisturbed P) (fun r w' => ∃ q, Told w₀ (q ++ l) b e w' ∧
          (∀ c ∈ q, c.call = .fileExists ∨ c.call = .importFile) ∧
          ((∃ x, r = .error x) ↔ ∃ c ∈ q, Threw c)) w' := by
      refine wp_mono _ ?_ (ih h')
      rintro r w₂ ⟨q₂, h₂, hcalls, hr⟩
      refine ⟨q₂ ++ q, List.append_assoc q₂ q l ▸ h₂, fun c hc => ?_, hr.trans ?_⟩
      · exact (List.mem_append.mp hc).elim (hcalls c) fun hc => (hq c hc).1
      · simp only [List.mem_append, or_and_right, exists_or]
        exact (or_iff_left fun ⟨c, hc, ht⟩ => (hq c hc).2 ht).symm
    unfold importEach importOne
    cases f with
    -- a file without a path is skipped
    | none => exact hrest (q := []) h (List.forall_mem_nil _)
    | some path =>
      dsimp only
      rw [wp_bind, wp_bind]
      apply h.observed (within_call.mpr trivial)
      -- the look at the file may throw, and ends the loop then
      rintro (x | there) w₁ h₁
      · exact ⟨[_], h₁, List.forall_mem_singleton.mpr (.inl rfl),
          iff_of_true ⟨x, rfl⟩ ⟨_, List.mem_singleton_self _, x, rfl⟩⟩
      have hfound : ¬ Threw ⟨.fileExists, .ok true, (LockManager.kek w₁).isSome⟩ := by
        rintro ⟨x, ⟨⟩⟩
      dsimp only
      rw [wp_when]
      refine ⟨fun _ => ?_, fun _ => hrest (q := [_]) h₁
        (List.forall_mem_singleton.mpr ⟨.inl rfl, hfound⟩)⟩
      unfold calling
      rw [wp_bind, wp_modify]
      refine ⟨trivial, ?_⟩
      have hcalled : Told w₀ _ b e (called "importFile" w₁) :=
        ⟨h₁.mounted, h₁.busy, h₁.error, h₁.replies⟩
      dsimp only
      rw [wp_bind]
      apply hcalled.observed (within_importFile (fun _ _ => silent_draws) _ _ _ _)
      -- and so may its import
      rintro (x | m) w₂ h₂
      · exact ⟨[_, _], h₂,
          List.forall_mem_cons.mpr ⟨.inr rfl, List.forall_mem_singleton.mpr (.inl rfl)⟩,
          iff_of_true ⟨x, rfl⟩ ⟨_, List.mem_cons_self, x, rfl⟩⟩
      · exact hrest (q := [_, _]) h₂ (List.forall_mem_cons.mpr ⟨⟨.inr rfl, by rintro ⟨x, ⟨⟩⟩⟩,
          List.forall_mem_singleton.mpr ⟨.inl rfl, hfound⟩⟩)

/-- The calls of an import before its loads. -/
theorem smooth_importing (hc : c.call = .fileExists ∨ c.call = .importFile) :
    Smooth .tapImport c ∧ ¬ Early c ∧ (Fails c ↔ Threw c) := by
  unfold Early Fails
  rcases hc with hc | hc <;>
    exact ⟨⟨by simp [hc], by simp [hc, keying]⟩, by simp [hc], by simp [hc]⟩

/-- A listing that has not thrown. -/
theorem smooth_listing (hc : c.call = .listAll) (ht : ¬ Threw c) :
    Smooth .tapImport c ∧ ¬ Early c ∧ ¬ Fails c := by
  unfold Early Fails
  exact ⟨⟨by simp [hc], by simp [hc, keying]⟩, by simp [hc], by simp [hc, ht]⟩

/-- There is no key, because `unlock` failed or although it did not. -/
theorem accounts_unkeyed (hp : ∀ c ∈ p, Smooth .tapImport c) (hcall : c.call = .unlockAgain)
    (hkeyed : c.outcome = .ok true → c.keyed = false) (x : DartError) :
    Accounts .tapImport p [c] (.error x) none := by
  refine ⟨List.forall_mem_singleton.mpr (by simp [Early, hcall]), .inl (List.cons_ne_nil _ _), ?_⟩
  rw [List.singleton_append, mends_cons, iff_true_intro (mends_smooth hp)]
  have hfails : Fails c ↔ c.outcome ≠ .ok true := by
    unfold Fails Threw
    rcases hc : c.outcome with x | (- | -) <;> simp [hcall]
  simp only [hcall, keying, List.mem_singleton, exists_eq_left, hfails]
  by_cases hout : c.outcome = .ok true
  · simp [hout, hkeyed hout]
  · simp [hout]

/-- The two loads at the end of an import, neither of which throws. -/
theorem reloads_told (self : ℕ) (h : Told w₀ l b e w) : Program.wp (undisturbed P) (do
      awaited (_load P self true)
      call (.delayed 200)
      awaited (_load P self true) : App Unit)
    (fun r w' => r = .ok () ∧ ∃ c₁ c₂, (c₁.call = .listAll ∧ ¬ Threw c₁) ∧
      (c₂.call = .listAll ∧ ¬ Threw c₂) ∧ Told w₀ (c₂ :: c₁ :: l) false none w') w := by
  have hload {l : List HomeReply} {b : Bool} {e : Option Text} {w : World} (h : Told w₀ l b e w) :
      (awaited (_load P self true)).wp (undisturbed P) (fun r w' => r = .ok () ∧ ∃ c,
        c.call = .listAll ∧ ¬ Threw c ∧ Told w₀ (c :: l) false none w') w := by
    refine told_awaited (load_told h self) ?_
    rintro r w w' ⟨rfl, c, hc, ht, h⟩ hs
    exact ⟨rfl, c, hc, ht, h.silent hs⟩
  rw [wp_bind]
  refine wp_mono _ ?_ (hload h)
  rintro _ w₁ ⟨rfl, c₁, hc₁, ht₁, h₁⟩
  dsimp only
  rw [wp_bind]
  have hdelayed : (call (.delayed 200)).wp (undisturbed P)
      (fun r w' => r = .ok () ∧ Told w₀ (c₁ :: l) false none w') w₁ := by
    rw [wp_call]
    intro w₂ ht o _
    have h₂ := (h₁.passes ht).silent (silent_exec (P := P) w₂ (.delayed 200) o)
    exact ⟨trivial, fun w₃ ht' _ => ⟨rfl, h₂.passes ht'⟩⟩
  refine wp_mono _ ?_ hdelayed
  rintro _ w₂ ⟨rfl, h₂⟩
  dsimp only
  refine wp_mono _ ?_ (hload h₂)
  rintro _ w₃ ⟨rfl, c₂, hc₂, ht₂, h₃⟩
  exact ⟨rfl, c₁, c₂, ⟨hc₁, ht₁⟩, ⟨hc₂, ht₂⟩, h₃⟩

/-- The section of an import: only the loads at its end set the error, and do not. -/
theorem importAll_section {self : ℕ} {files : List (Option Text)} (h : Told w₀ p b none w)
    (hp : ∀ c ∈ p, Smooth .tapImport c) :
    Section P .tapImport w₀ p (importAll P self files) w := by
  unfold Section importAll
  rw [wp_bind]
  refine wp_mono _ ?_ (finalKek_told h)
  rintro (x | kek) w₁ ⟨q₁, h₁, hq₁⟩
  · obtain ⟨c, rfl, hcall, hkeyed⟩ := hq₁
    exact ⟨[c], b, none, h₁, accounts_unkeyed hp hcall hkeyed x⟩
  have hagain : ∀ c ∈ q₁, Smooth .tapImport c ∧ ¬ Early c ∧ ¬ Fails c := by
    intro c hc
    obtain ⟨hcall, hout, hkeyed⟩ := hq₁ c hc
    refine ⟨⟨by simp [hcall], fun _ _ => hkeyed⟩, by simp [Early, hcall], ?_⟩
    simp [Fails, Threw, hout]
  dsimp only
  rw [wp_bind, wp_modify]
  refine ⟨trivial, ?_⟩
  have h₂ : Told w₀ _ b none (World.entered (self, .batch) w₁) :=
    ⟨h₁.mounted, h₁.busy, h₁.error, h₁.replies⟩
  dsimp only
  rw [wp_bind, wp_tryFinally]
  refine wp_mono _ ?_ (importEach_told kek files h₂)
  rintro r w₃ ⟨q₂, h₃, hq₂, hr⟩
  have h₄ : Told w₀ ((q₂ ++ q₁) ++ p) b none (World.left (self, .batch) w₃) :=
    ⟨h₃.mounted, h₃.busy, h₃.error, h₃.replies.trans (by simp)⟩
  have hsmooth : ∀ c ∈ (q₂ ++ q₁) ++ p, Smooth .tapImport c := by
    intro c hc
    rcases List.mem_append.mp hc with hc | hc
    · exact (List.mem_append.mp hc).elim (fun hc => (smooth_importing (hq₂ c hc)).1)
        fun hc => (hagain c hc).1
    · exact hp c hc
  have hlate : ∀ c ∈ q₂ ++ q₁, ¬ Early c := fun c hc => (List.mem_append.mp hc).elim
    (fun hc => (smooth_importing (hq₂ c hc)).2.1) fun hc => (hagain c hc).2.1
  have hfails : (∃ c ∈ q₂ ++ q₁, Fails c) ↔ ∃ c ∈ q₂, Threw c := by
    simp only [List.mem_append, or_and_right, exists_or]
    refine (or_iff_left fun ⟨c, hc, hf⟩ => (hagain c hc).2.2 hf).trans ?_
    exact exists_congr fun c => and_congr_right fun hc => (smooth_importing (hq₂ c hc)).2.2
  rw [wp_modify]
  refine ⟨trivial, ?_⟩
  rcases r with x | u
  · -- a file has failed
    obtain ⟨c, hc, ht⟩ := hr.mp ⟨x, rfl⟩
    refine ⟨q₂ ++ q₁, b, none, h₄, hlate, .inl (List.ne_nil_of_mem (List.mem_append_left _ hc)), ?_⟩
    exact iff_of_true (iff_of_true (.inl ⟨x, rfl⟩) (hfails.mpr ⟨c, hc, ht⟩)) (mends_smooth hsmooth)
  -- every file is in: two loads follow, of which none throws
  have hnone : ¬ ∃ c ∈ q₂, Threw c := fun h => by
    obtain ⟨x, hx⟩ := hr.mpr h
    cases hx
  dsimp only
  refine wp_mono _ ?_ (reloads_told self h₄)
  rintro _ w₅ ⟨rfl, c₁, c₂, ⟨hc₁, ht₁⟩, ⟨hc₂, ht₂⟩, h₅⟩
  -- neither a file nor a load has failed, and nothing is shown
  obtain ⟨hsmooth₁, hlate₁, hfails₁⟩ := smooth_listing hc₁ ht₁
  obtain ⟨hsmooth₂, hlate₂, hfails₂⟩ := smooth_listing hc₂ ht₂
  refine ⟨c₂ :: c₁ :: (q₂ ++ q₁), _, _, h₅, ?_, .inl (List.cons_ne_nil _ _), ?_⟩
  · exact List.forall_mem_cons.mpr ⟨hlate₂, List.forall_mem_cons.mpr ⟨hlate₁, hlate⟩⟩
  refine iff_of_true (iff_of_false (by simp) ?_) (mends_smooth (List.forall_mem_cons.mpr
    ⟨hsmooth₂, List.forall_mem_cons.mpr ⟨hsmooth₁, hsmooth⟩⟩))
  simp only [List.mem_cons, exists_eq_or_imp, hfails₁, hfails₂, hfails, hnone, or_self,
    not_false_eq_true]

/-! ## The export and the deletion -/

/-- A call that an export or a deletion makes in its section. -/
theorem mends_cons_late {k : HomeReply}
    (hk : k.call = .exportClear ∨ k.call = .shareXFiles ∨ k.call = .deleteById)
    (hb : k.call = .exportClear → k.outcome ≠ .ok false) : Mends a (k :: q) ↔ Mends a q := by
  have hkeying : k.call ≠ keying a := by
    intro he
    rcases hk with hk | hk | hk <;> rw [hk] at he <;> cases a <;> cases he
  rw [mends_cons]
  exact and_iff_left ⟨fun hc => absurd hc hkeying, hb⟩

theorem exportOne_section {entry : VaultFileMeta} (h : Told w₀ p true none w)
    (hp : Mends (.tapExport entry) p ↔ LockManager.kek w ≠ none) :
    Section P (.tapExport entry) w₀ p (exportOne P entry) w := by
  unfold Section exportOne
  rw [wp_bind, wp_get]
  dsimp only
  cases hkek : LockManager.kek w with
  -- without a key no call has failed, yet the handler throws
  | none =>
    have hmends : ¬ Mends (.tapExport entry) p := fun hm => hp.mp hm hkek
    refine ⟨[], true, none, h, List.forall_mem_nil _, .inr hmends, ?_⟩
    exact iff_of_false (fun hiff => by simpa using hiff.mp (.inl ⟨_, rfl⟩)) hmends
  | some kek =>
    have hmends := hp.mpr (by rw [hkek]; exact Option.some_ne_none _)
    dsimp only
    unfold calling
    rw [wp_bind, wp_modify]
    refine ⟨trivial, ?_⟩
    have hcalled : Told w₀ p true none (called "exportClear" w) :=
      ⟨h.mounted, h.busy, h.error, h.replies⟩
    dsimp only
    rw [wp_bind]
    apply hcalled.observed (within_exportClear _ _)
    -- `exportClear` throws
    rintro (x | bytes) w₁ h₁
    · refine ⟨[_], _, _, h₁, List.forall_mem_singleton.mpr (by simp [Early]),
        .inl (List.cons_ne_nil _ _), iff_of_true (iff_of_true (.inl ⟨x, rfl⟩) ?_) ?_⟩
      · exact ⟨_, List.mem_singleton_self _, .inl ⟨x, rfl⟩⟩
      · exact (mends_cons_late (.inl rfl) (by rintro - ⟨⟩)).mpr hmends
    dsimp only
    rw [wp_bind, wp_when]
    refine ⟨fun hempty => ?_, fun hfull => ?_⟩
    · -- nothing to share, which no call has failed for
      refine ⟨[_], _, _, h₁, List.forall_mem_singleton.mpr (by simp [Early]),
        .inl (List.cons_ne_nil _ _), iff_of_false (fun hiff => ?_) fun hm => ?_⟩
      · simpa [Fails, Threw, Except.map] using hiff.mp (.inl ⟨_, rfl⟩)
      · refine hm.bytes _ (List.mem_append_left _ (List.mem_singleton_self _)) rfl ?_
        change Except.ok (!bytes.isEmpty) = .ok false
        rw [hempty]
        rfl
    have hexported : ∀ w', Mends (.tapExport entry) (⟨.exportClear, .ok (!bytes.isEmpty),
        (LockManager.kek w').isSome⟩ :: p) := by
      intro w'
      refine (mends_cons_late (.inl rfl) fun _ => ?_).mpr hmends
      simp [hfull]
    dsimp only
    apply h₁.observed (within_call.mpr trivial)
    -- sharing the bytes throws, or all is well
    rintro (x | u) w₂ h₂
    · refine ⟨[_, _], _, _, h₂, ?_, .inl (List.cons_ne_nil _ _),
        iff_of_true (iff_of_true (.inl ⟨x, rfl⟩) ?_) ?_⟩
      · exact List.forall_mem_cons.mpr
          ⟨by simp [Early], List.forall_mem_singleton.mpr (by simp [Early])⟩
      · exact ⟨_, List.mem_cons_self, .inl ⟨x, rfl⟩⟩
      · exact (mends_cons_late (.inr (.inl rfl)) (by rintro ⟨⟩)).mpr (hexported _)
    · refine ⟨[_, _], _, _, h₂, ?_, .inl (List.cons_ne_nil _ _),
        iff_of_true (iff_of_false ?_ ?_) ?_⟩
      · exact List.forall_mem_cons.mpr
          ⟨by simp [Early], List.forall_mem_singleton.mpr (by simp [Early])⟩
      · simp
      · simp [Fails, Threw, Except.map]
      · exact (mends_cons_late (.inr (.inl rfl)) (by rintro ⟨⟩)).mpr (hexported _)

/-- The load at the end of a deletion finds its caller busy. -/
theorem load_busy (h : Told w₀ l true e w) (self : ℕ) : (awaited (_load P self false)).wp
    (undisturbed P) (fun r w' => r = .ok () ∧ Told w₀ l true e w') w := by
  apply told_awaited
  · unfold _load
    rw [wp_bind, wp_get, h.busy]
    exact ⟨rfl, h⟩
  · rintro r w w' ⟨rfl, h⟩ hs
    exact ⟨rfl, h.silent hs⟩

theorem deleteOne_section {self : ℕ} {entry : VaultFileMeta} (h : Told w₀ p true none w)
    (hp : Mends (.tapDelete entry) p) :
    Section P (.tapDelete entry) w₀ p (deleteOne P self entry) w := by
  unfold Section deleteOne calling
  rw [wp_bind, wp_modify]
  refine ⟨trivial, ?_⟩
  have hcalled : Told w₀ p true none (called "deleteById" w) :=
    ⟨h.mounted, h.busy, h.error, h.replies⟩
  dsimp only
  rw [wp_bind]
  apply hcalled.observed (within_deleteById _)
  rintro (x | u) w₁ h₁
  · refine ⟨[_], _, _, h₁, List.forall_mem_singleton.mpr (by simp [Early]),
      .inl (List.cons_ne_nil _ _), iff_of_true (iff_of_true (.inl ⟨x, rfl⟩) ?_) ?_⟩
    · exact ⟨_, List.mem_singleton_self _, .inl ⟨x, rfl⟩⟩
    · exact (mends_cons_late (.inr (.inr rfl)) (by rintro ⟨⟩)).mpr hp
  dsimp only
  refine wp_mono _ ?_ (load_busy h₁ self)
  rintro _ w₂ ⟨rfl, h₂⟩
  refine ⟨[_], _, _, h₂, List.forall_mem_singleton.mpr (by simp [Early]),
    .inl (List.cons_ne_nil _ _), iff_of_true (iff_of_false ?_ ?_) ?_⟩
  · simp
  · simp [Fails, Threw, Except.map]
  · exact (mends_cons_late (.inr (.inr rfl)) (by rintro ⟨⟩)).mpr hp

/-! ## The handlers -/

/-- A handler that gives up leaves the screen as it was. -/
theorem ends_given_up (h : Told w₀ p false w₀.homeScreen._error w)
    (hp : ∀ c ∈ p, Early c ∧ ¬ Threw c) (hm : Mends a p) : Ends a w₀ (.ok ()) w := by
  refine ⟨p, h.replies, ?_⟩
  have hnone : ¬ ∃ c ∈ p, Fails c := by
    rintro ⟨c, hc, ht | ⟨hcall, -⟩⟩
    · exact (hp c hc).2 ht
    · rcases (hp c hc).1 with hc' | hc' | hc' <;> exact absurd (hc'.symm.trans hcall) nofun
  refine Iff.trans ⟨fun hc => ?_, fun he => ⟨rfl, h.busy, ?_⟩⟩
    ⟨fun he => ⟨hm, fun c hc _ => (hp c hc).2, fun _ => he⟩,
      fun hh => hh.shown fun c hc => (hp c hc).1⟩
  · exact not_not.mp fun he => hnone (hc.error.mp (h.error ▸ he))
  · rw [h.error, he]
    exact iff_of_false (not_not_intro rfl) hnone

/-- An error before the `try` leaves the handler. -/
theorem ends_thrown {x : DartError} (h : Told w₀ (c :: p) b e w) (hearly : Early c) (ht : Threw c) :
    Ends a w₀ (.error x) w :=
  ⟨c :: p, h.replies, iff_of_false (fun hc => nomatch hc.completes)
    fun hh => hh.early c List.mem_cons_self hearly ht⟩

/-- The session is open, or `unlock` is called. -/
theorem gate_told (h : Told w₀ [] b e w) : (gate P).wp (undisturbed P) (fun r w' =>
    ∃ p, Told w₀ p b e w' ∧ (r = .ok true ∧ p = [] ∧ LockManager.kek w' ≠ none ∨
      p = [⟨.unlock, r, (LockManager.kek w').isSome⟩])) w := by
  unfold gate
  rw [wp_bind, wp_get]
  dsimp only
  cases hu : LockManager.isUnlocked w with
  | true =>
    refine ⟨[], h, .inl ⟨rfl, rfl, fun hk => ?_⟩⟩
    exact Bool.false_ne_true ((AuthService.kek_eq_none.mp hk).symm.trans hu)
  | false =>
    simp only [Bool.not_false, if_true]
    apply h.observed (within_unlock (fun _ _ => silent_draws) (fun _ _ => ⟨rfl, rfl⟩)
      fun _ => ⟨rfl, rfl⟩)
    rintro (x | ok) w₁ h₁ <;> exact ⟨_, h₁, .inr rfl⟩

theorem mends_nil : Mends a [] := mends_smooth (List.forall_mem_nil _)

/-- What an `unlock` before the `try` asks. -/
theorem mends_unlock {r : Except DartError Bool} {k : Bool} : Mends a [⟨.unlock, r, k⟩] ↔
    (HomeCall.unlock = keying a → r = .ok true → k = true) := by
  rw [mends_cons]
  refine ⟨fun h => h.2.1, fun h => ⟨mends_nil, h, nofun⟩⟩

theorem import_ends (self : ℕ) (h : Told w₀ [] false w₀.homeScreen._error w) :
    (_import P self).wp (undisturbed P) (Ends .tapImport w₀) w := by
  unfold _import
  rw [wp_bind, wp_get, h.busy]
  simp only [Bool.false_eq_true, if_false]
  rw [wp_bind]
  refine wp_mono _ ?_ (gate_told h)
  rintro r w₁ ⟨p, h₁, hp⟩
  -- what has ended so far is an `unlock` at most
  have hsmooth : ∀ c ∈ p, Early c ∧ Smooth .tapImport c := by
    rcases hp with ⟨-, rfl, -⟩ | rfl
    · exact List.forall_mem_nil _
    · exact List.forall_mem_singleton.mpr ⟨.inl rfl, by simp, by simp [keying]⟩
  have hthrew (ok : Bool) (hr : r = .ok ok) : ∀ c ∈ p, ¬ Threw c := by
    rcases hp with ⟨-, rfl, -⟩ | rfl
    · exact List.forall_mem_nil _
    · exact List.forall_mem_singleton.mpr (by simp [Threw, hr])
  rcases r with x | ok
  -- `unlock` has thrown, before anything that could catch it
  · rcases hp with ⟨hr, -⟩ | rfl
    · cases hr
    · exact ends_thrown h₁ (.inl rfl) ⟨x, rfl⟩
  have hearly : ∀ c ∈ p, Early c ∧ ¬ Threw c := fun c hc => ⟨(hsmooth c hc).1, hthrew ok rfl c hc⟩
  dsimp only
  cases ok with
  -- not unlocked: the handler returns
  | false => exact ends_given_up h₁ hearly (mends_smooth fun c hc => (hsmooth c hc).2)
  | true =>
    simp only [Bool.not_true, Bool.false_eq_true, if_false]
    rw [wp_bind]
    apply h₁.observed (within_call.mpr trivial)
    rintro (x | result) w₂ h₂
    -- the picker has thrown, again with nobody to catch it
    · exact ends_thrown h₂ (.inr (.inl rfl)) ⟨x, rfl⟩
    have hpicked {v : Bool} {k : Bool} : ∀ c ∈ (⟨.pickFiles, .ok v, k⟩ : HomeReply) :: p,
        (Early c ∧ ¬ Threw c) ∧ Smooth .tapImport c :=
      List.forall_mem_cons.mpr
        ⟨⟨⟨.inr (.inl rfl), by rintro ⟨x, ⟨⟩⟩⟩, by simp, by simp [keying]⟩,
        fun c hc => ⟨hearly c hc, (hsmooth c hc).2⟩⟩
    have hup : Ends .tapImport w₀ (.ok ()) w₂ := ends_given_up h₂ (fun c hc => (hpicked c hc).1)
      (mends_smooth fun c hc => (hpicked c hc).2)
    -- cancelled, no file chosen, or the section of the import
    rcases result with - | (- | ⟨f, files⟩)
    · exact hup
    · exact hup
    · exact guarded_told h₂ (fun c hc => (hpicked c hc).1) fun _ _ h₃ =>
        importAll_section h₃ fun c hc => (hpicked c hc).2

theorem export_ends (self : ℕ) (entry : VaultFileMeta)
    (h : Told w₀ [] false w₀.homeScreen._error w) :
    (_export P self entry).wp (undisturbed P) (Ends (.tapExport entry) w₀) w := by
  unfold _export
  rw [wp_bind, wp_get, h.busy]
  simp only [Bool.false_eq_true, if_false]
  rw [wp_bind]
  refine wp_mono _ ?_ (gate_told h)
  rintro r w₁ ⟨p, h₁, ⟨rfl, rfl, hk⟩ | rfl⟩
  · refine guarded_told h₁ (List.forall_mem_nil _) fun w₂ hk₂ h₂ => exportOne_section h₂ ?_
    exact iff_of_true mends_nil (hk₂ ▸ hk)
  rcases r with x | ok
  · exact ends_thrown h₁ (.inl rfl) ⟨x, rfl⟩
  have hearly : ∀ c ∈ ([⟨.unlock, .ok ok, (LockManager.kek w₁).isSome⟩] : List HomeReply),
      Early c ∧ ¬ Threw c := List.forall_mem_singleton.mpr ⟨.inl rfl, by rintro ⟨x, ⟨⟩⟩⟩
  dsimp only
  cases ok with
  | false => exact ends_given_up h₁ hearly (mends_unlock.mpr fun _ => nofun)
  | true =>
    simp only [Bool.not_true, Bool.false_eq_true, if_false]
    refine guarded_told h₁ hearly fun w₂ hk₂ h₂ => exportOne_section h₂ (mends_unlock.trans ?_)
    rw [hk₂]
    simp [keying, Option.isSome_iff_ne_none]

theorem delete_ends (self : ℕ) (entry : VaultFileMeta)
    (h : Told w₀ [] false w₀.homeScreen._error w) :
    (_delete P self entry).wp (undisturbed P) (Ends (.tapDelete entry) w₀) w := by
  unfold _delete
  rw [wp_bind, wp_get, h.busy]
  simp only [Bool.false_eq_true, if_false]
  rw [wp_bind]
  apply h.observed (within_call.mpr trivial)
  rintro (x | ok) w₁ h₁
  · exact ends_thrown h₁ (.inr (.inr rfl)) ⟨x, rfl⟩
  have hearly {v k : Bool} : ∀ c ∈ ([⟨.showDialog, .ok v, k⟩] : List HomeReply),
      Early c ∧ ¬ Threw c := List.forall_mem_singleton.mpr ⟨.inr (.inr rfl), by rintro ⟨x, ⟨⟩⟩⟩
  have hmends {v k : Bool} : Mends (.tapDelete entry) [⟨.showDialog, .ok v, k⟩] :=
    mends_smooth (List.forall_mem_singleton.mpr ⟨by simp, by simp [keying]⟩)
  dsimp only
  split
  · exact guarded_told h₁ hearly fun _ _ h₂ => deleteOne_section h₂ hmends
  · exact ends_given_up h₁ hearly hmends

/-- **A handler contains its failures** exactly when its calls are harmless. -/
theorem contained_iff {self : ℕ} (ha : Tap a) {w w' : World} {r : Except DartError Unit}
    (hmounted : w.homeScreen.mounted = true) (hidle : w.homeScreen._busy = false)
    (hc : (a.program P self).Completes (undisturbed P) w r w') :
    ∃ l, w'.record.replies = l ++ w.record.replies ∧ (Contained l r w' ↔ Harmless a w l) := by
  have h : Told w [] false w.homeScreen._error w := ⟨hmounted, hidle, rfl, rfl⟩
  cases a with
  | tapImport => exact wp_completes (import_ends self h) hc
  | tapExport entry => exact wp_completes (export_ends self entry h) hc
  | tapDelete entry => exact wp_completes (delete_ends self entry h) hc
  | refresh => exact ha.elim
  | lifecycle paused => exact ha.elim
  | tick now => exact ha.elim

/-! ## A picker that throws -/

/-- As usual, but the picker throws. -/
def unpicking : (op : Op) → Outcome op
  | .pickFiles => .error (.platform "read_external_storage_denied".toList none)
  | op => usual op

def unpickedRun : Except DartError Unit × World :=
  (_import (.sample .marked) 0).run (device (.sample .marked)) (fun _ => unpicking) 0 .home

theorem unpickedRun_completes :
    (HomeAction.tapImport.program (.sample .marked) 0).Completes (undisturbed (.sample .marked))
      .home unpickedRun.1 unpickedRun.2 :=
  completes_run (D := undisturbed (.sample .marked)) (fun w => ⟨w.now, rfl⟩)
    (fun _ _ _ => trivial) (fun _ _ _ => trivial) _ 0 _

theorem contained_iff_unpickedRun :
    ∃ l, unpickedRun.2.record.replies = l ++ World.home.record.replies ∧
      (Contained l unpickedRun.1 unpickedRun.2 ↔ Harmless .tapImport .home l) :=
  contained_iff (show Tap .tapImport from trivial) rfl rfl unpickedRun_completes

/-- The error of the picker leaves the handler. -/
theorem import_escapes :
    (HomeAction.tapImport.program (.sample .marked) 0).Completes (undisturbed (.sample .marked))
      .home unpickedRun.1 unpickedRun.2 ∧
    World.home.homeScreen.mounted = true ∧ World.home.homeScreen._busy = false ∧
    ∃ l, unpickedRun.2.record.replies = l ++ World.home.record.replies ∧
      ¬ Contained l unpickedRun.1 unpickedRun.2 := by
  refine ⟨unpickedRun_completes, rfl, rfl, unpickedRun.2.record.replies,
    (List.append_nil _).symm, fun h => ?_⟩
  have hr : unpickedRun.1.toOption.isSome = false := by decide +kernel
  rw [h.completes] at hr
  cases hr

end HomeScreen

end CajaSegura
