import CajaSegura.Async.Execution
import CajaSegura.Platform.Device

/-!
# Reasoning about the programs of the application

## Main definitions

* `Good`: the outcome of a call that works
* `Truthful`: the outcome of a call that does not misreport the stored key
* `Op.Mutates`: the calls that can change anything outside the process
* `World.Calm`: what a stretch of a program may change that leaves the files alone
* `reporting`: a thread whose result is recorded
* `Steady`: an assertion that survives such stretches, in a discipline in which nobody else
  touches the files
* `faultless`, `undisturbed`: the disciplines of a call that runs alone, without failures or with
  any

## Main results

* `wp_call`, `wp_awaited`, `wp_when`: the rules of the application's own combinators
* `wp_call_passing`: a call of a program that nobody disturbs
* `Steady.wp_call`, `Steady.wp_mutate`: calls that cannot and calls that can change files
* `Leads.seq`: the rule of sequencing for stretches that change no file
-/

namespace CajaSegura

open Codec Async
open Program hiding bind

variable {P : Platform} {D : Discipline (device P)} {α β : Type}

/-- The outcome of a call that works; a listing is the system's to order. -/
def Good (w : World) : (op : Op) → Outcome op → Prop
  | .hop, _ | .delayed _, _ => True
  | .listSync dir, o => ∃ names, o = .ok names ∧ w.fs.Lists dir names
  | .writeAsBytes .., o => o = .done
  | .delete _, o => o = .done
  | .storageRead, o => o = .stored
  | .backgroundRead, o => o = .stored
  | .isDeviceSupported, o => ∃ b, o = .ok b
  | .canCheckBiometrics, o => ∃ b, o = .ok b
  | .localAuthenticate _, o => ∃ b, o = .ok b
  | .getAvailableBiometrics, o => ∃ b, o = .ok b
  | .pickFiles, o => ∃ b, o = .ok b
  | .showDialog _, o => ∃ b, o = .ok b
  | .setPreference .., o => o = .ok true
  | .removePreference _, o => o = .ok true
  | .supportDirectory, o => o = none
  | .dirExists _, o => o = none
  | .dirCreate _, o => o = none
  | .fileExists _, o => o = none
  | .stat _, o => o = none
  | .readAsBytes _, o => o = none
  | .rename .., o => o = none
  | .copy .., o => o = none
  | .encrypt .., o => o = none
  | .decrypt .., o => o = none
  | .storageWrite _, o => o = none
  | .storageDelete, o => o = none
  | .backgroundWrite _, o => o = none
  | .backgroundDelete, o => o = none
  | .shareXFiles .., o => o = none
  | .getPreferences, o => o = none
  | .systemChrome, o => o = none

/-- A read of the key returns what is stored, or throws. -/
def Truthful : (op : Op) → Outcome op → Prop
  | .storageRead, o => o = .stored ∨ ∃ e, o = .fails e
  | _, _ => True

/-- The calls that can change files, the secure storage or the preferences. -/
def Op.Mutates : Op → Prop
  | .writeAsBytes .. | .delete _ | .rename .. | .copy .. => True
  | .storageWrite _ | .storageDelete | .backgroundWrite _ | .backgroundDelete => True
  | .getPreferences | .setPreference .. | .removePreference _ => True
  | _ => False

instance : DecidablePred Op.Mutates := fun op => by
  cases op <;> unfold Op.Mutates <;> infer_instance

/-! ## The application's own combinators -/

theorem wp_call {op : Op} {Q : Except DartError (Reply op) → World → Prop} {w : World} :
    (call op).wp D Q w ↔ ∀ w₁, D.rely w w₁ → ∀ o, D.allow w₁ op o →
      D.guarantee w₁ (w₁.exec P op o).2 ∧ ∀ w₂, D.rely (w₁.exec P op o).2 w₂ →
        D.deliver w₂ op (w₁.exec P op o).1 → Q (w₁.exec P op o).1 w₂ := wp_perform

theorem wp_when {b : Bool} {p : App Unit} {Q : Except DartError Unit → World → Prop} {w : World} :
    (when b p).wp D Q w ↔ (b = true → p.wp D Q w) ∧ (b = false → Q (.ok ()) w) := by
  cases b <;> simp [when]

theorem wp_awaited {p : App α} {Q : Except DartError α → World → Prop} {w : World} :
    (awaited p).wp D Q w ↔ p.wp D (fun r w => (call .hop).wp D (fun _ w => Q r w) w) w := by
  refine (wp_handle p _).trans (iff_of_eq (congrArg (fun R => p.wp D R w) ?_))
  funext r w
  refine propext ((Program.wp_await _ _).trans (Iff.trans ?_ wp_call.symm))
  simp only [wp_done]
  rfl

theorem within_call {A : Op → Prop} {G : World → World → Prop} {op : Op} :
    (call op).Within A G ↔ A op := Within.perform

theorem within_awaited {A : Op → Prop} {G : World → World → Prop} {p : App α} (hp : p.Within A G)
    (h : A .hop) : (awaited p).Within A G :=
  Within.handle hp fun r => ⟨h, fun _ => Within.done r⟩

theorem within_when {A : Op → Prop} {G : World → World → Prop} {b : Bool} {p : App Unit}
    (hp : p.Within A G) : (when b p).Within A G := by
  cases b
  · trivial
  · exact hp

theorem safe_call {op : Op} (h : ∀ w o, D.allow w op o → D.guarantee w (w.exec P op o).2) :
    (call op).Safe D := Safe.perform h

theorem safe_awaited {p : App α} (hp : p.Safe D)
    (h : ∀ w, D.guarantee w (w.exec P .hop ()).2) : (awaited p).Safe D :=
  Safe.handle hp fun r _ w₁ _ _ _ => ⟨h w₁, fun _ _ _ => (wp_done r).mpr trivial⟩

theorem safe_when {b : Bool} {p : App Unit} (hp : p.Safe D) : (when b p).Safe D := by
  cases b
  · exact Safe.pure ()
  · exact hp

/-- What a thread has returned is recorded. -/
def World.reported (self : ℕ) (r : Except DartError (List VaultFileMeta)) (w : World) : World :=
  { w with record := { w.record with results := (self, r) :: w.record.results } }

/-- A thread whose result is recorded. -/
def reporting (self : ℕ) (p : App (List VaultFileMeta)) : App Unit :=
  Program.handle p fun r => Program.modify (World.reported self r)

/-! ## Stretches that change no file -/

namespace World

/-- The answered calls that can change files, the secure storage or the preferences. -/
def changes (w : World) : List (Sigma Outcome) := w.record.answers.filter fun a => a.1.Mutates

/-- The files are as before, and no call was answered in between that could change them. -/
structure Calm (w w' : World) : Prop where
  files : w'.fs.files = w.fs.files
  dirs : ∀ p, w.fs.dirs p = true → w'.fs.dirs p = true
  uuids : w'.uuids = w.uuids
  changes : w'.changes = w.changes

theorem Calm.refl (w : World) : w.Calm w := ⟨rfl, fun _ => id, rfl, rfl⟩

theorem Calm.trans {w₁ w₂ w₃ : World} (h : w₁.Calm w₂) (h' : w₂.Calm w₃) : w₁.Calm w₃ :=
  ⟨h'.files.trans h.files, fun p hp => h'.dirs p (h.dirs p hp), h'.uuids.trans h.uuids,
    h'.changes.trans h.changes⟩

/-- Random bytes are drawn, or a call that can change nothing is answered. -/
structure Quiet (w w' : World) : Prop extends Calm w w' where
  answers : ∃ l, w'.record.answers = l ++ w.record.answers ∧ ∀ a ∈ l, ¬ a.1.Mutates
  now : w'.now = w.now
  zone : w'.zone = w.zone
  heap : w'.heap = w.heap
  allocated : w'.allocated = w.allocated
  storage : w'.storage = w.storage
  disk : w'.disk = w.disk
  preferences : w'.preferences = w.preferences
  _prefs : w'._prefs = w._prefs
  auth : w'.auth = w.auth
  installed : w'.record.installed = w.record.installed
  opened : w'.record.opened = w.record.opened
  running : w'.record.running = w.record.running
  results : w'.record.results = w.record.results
  imports : w'.record.imports = w.record.imports

/-- A call that can change nothing leaves at most a directory or an encryption behind. -/
theorem effect_of_not_mutates (w : World) {op : Op} (hop : ¬ op.Mutates) (o : Outcome op) :
    ∃ es fs, (w.effect P op o).2 = { w with
        fs := fs
        record := { w.record with encryptions := es } } ∧
      fs.files = w.fs.files ∧ ∀ p, w.fs.dirs p = true → fs.dirs p = true := by
  have hsame : ∃ es fs, w = { w with
        fs := fs
        record := { w.record with encryptions := es } } ∧
      fs.files = w.fs.files ∧ ∀ p, w.fs.dirs p = true → fs.dirs p = true :=
    ⟨w.record.encryptions, w.fs, rfl, rfl, fun _ => id⟩
  cases op with
  | encrypt c k n =>
    cases o with
    | none =>
      unfold effect encryptUnder
      dsimp only
      split
      · exact ⟨_, w.fs, rfl, rfl, fun _ => id⟩
      · exact hsame
    | some e => exact hsame
  | dirCreate d =>
    cases o with
    | none =>
      refine ⟨w.record.encryptions, w.fs.create d, rfl, rfl, fun p hp => ?_⟩
      simp [Fs.create, hp]
    | some e => exact hsame
  | hop => exact hsame
  | delayed m => exact hsame
  | listSync d => exact hsame
  | isDeviceSupported => exact hsame
  | canCheckBiometrics => exact hsame
  | getAvailableBiometrics => exact hsame
  | localAuthenticate r => exact hsame
  | pickFiles => exact hsame
  | showDialog t => exact hsame
  | writeAsBytes f b => exact absurd trivial hop
  | delete f => exact absurd trivial hop
  | rename f t => exact absurd trivial hop
  | copy f t => exact absurd trivial hop
  | storageWrite v => exact absurd trivial hop
  | storageDelete => exact absurd trivial hop
  | backgroundWrite v => exact absurd trivial hop
  | backgroundDelete => exact absurd trivial hop
  | getPreferences => exact absurd trivial hop
  | setPreference k v => exact absurd trivial hop
  | removePreference k => exact absurd trivial hop
  | _ => cases o <;> exact hsame

theorem answers_effect (w : World) {op : Op} (hop : op.Mutates) (o : Outcome op) :
    (w.effect P op o).2.record.answers = w.record.answers := by
  cases op with
  | writeAsBytes f b => rfl
  | delete f => rfl
  | rename f t => rfl
  | copy f t => rfl
  | storageWrite v => cases o <;> rfl
  | storageDelete => cases o <;> rfl
  | backgroundWrite v => cases o <;> rfl
  | backgroundDelete => cases o <;> rfl
  | getPreferences => cases o <;> rfl
  | setPreference k v =>
    unfold effect
    dsimp only
    split <;> rfl
  | removePreference k =>
    unfold effect
    dsimp only
    split <;> rfl
  | _ => exact absurd hop id

/-- Every answer is recorded. -/
theorem answers_exec (w : World) (op : Op) (o : Outcome op) :
    (w.exec P op o).2.record.answers = ⟨op, o⟩ :: w.record.answers := by
  have heffect : (w.effect P op o).2.record.answers = w.record.answers := by
    by_cases hop : op.Mutates
    · exact answers_effect w hop o
    · obtain ⟨es, fs, h, -⟩ := effect_of_not_mutates (P := P) w hop o
      rw [h]
  exact congrArg (List.cons _) heffect

/-- A call that can change nothing. -/
theorem quiet_exec (w : World) {op : Op} (hop : ¬ op.Mutates) (o : Outcome op) :
    w.Quiet (w.exec P op o).2 := by
  obtain ⟨es, fs, h, hf, hd⟩ := effect_of_not_mutates (P := P) w hop o
  have hc : World.changes { w with
      fs := fs
      record := { w.record with
        encryptions := es
        answers := ⟨op, o⟩ :: w.record.answers } } = w.changes := by
    simp [changes, hop]
  have ha := answers_exec (P := P) w op o
  rw [exec, h] at ha ⊢
  constructor
  · exact ⟨hf, hd, rfl, hc⟩
  · exact ⟨[⟨op, o⟩], ha, by simpa using hop⟩
  all_goals rfl

theorem quiet_hop (w : World) : w.Quiet (w.exec P .hop ()).2 := by
  have hop : ¬ Op.Mutates .hop := id
  exact quiet_exec w hop ()

/-- The clock is not moved by calls. -/
theorem now_exec (w : World) (op : Op) (o : Outcome op) : (w.exec P op o).2.now = w.now := by
  by_cases hop : op.Mutates
  case neg => exact (quiet_exec w hop o).now
  cases op with
  | writeAsBytes f b => rfl
  | delete f => rfl
  | rename f t => rfl
  | copy f t => rfl
  | storageWrite v => cases o <;> rfl
  | storageDelete => cases o <;> rfl
  | backgroundWrite v => cases o <;> rfl
  | backgroundDelete => cases o <;> rfl
  | getPreferences => cases o <;> rfl
  | setPreference k v => rcases o with e | (_ | _) <;> rfl
  | removePreference k => rcases o with e | (_ | _) <;> rfl
  | _ => exact absurd hop id

/-- The answer of a call that can change files is added to those before. -/
theorem changes_exec (w : World) {op : Op} (hop : op.Mutates) (o : Outcome op) :
    (w.exec P op o).2.changes = ⟨op, o⟩ :: w.changes := by
  rw [changes, answers_exec, List.filter_cons_of_pos (by simpa using hop)]
  rfl

end World

/-- An assertion that others keep and that survives every change of files, random bytes and
identifiers, where nobody else touches the files. -/
structure Steady (D : Discipline (device P)) (J : World → Prop) : Prop where
  rely : ∀ w w', J w → D.rely w w' → J w' ∧ w.Calm w'
  quiet : ∀ w w', J w → w.Quiet w' → D.guarantee w w' ∧ J w'

variable {J : World → Prop}

/-- A call that can change nothing. -/
theorem Steady.wp_call (hJ : Steady D J) {op : Op} (hop : ¬ op.Mutates) {w : World} (hw : J w)
    {Q : Except DartError (Reply op) → World → Prop}
    (h : ∀ w₁ o, J w₁ → w.Calm w₁ → D.allow w₁ op o →
      ∀ w₂, J w₂ → w.Calm w₂ → Q (w₁.exec P op o).1 w₂) : (call op).wp D Q w := by
  rw [CajaSegura.wp_call]
  intro w₁ h₁ o ho
  obtain ⟨hj₁, hc₁⟩ := hJ.rely _ _ hw h₁
  have hq := World.quiet_exec (P := P) w₁ hop o
  obtain ⟨hg, hj₂⟩ := hJ.quiet _ _ hj₁ hq
  refine ⟨hg, fun w₂ h₂ _ => ?_⟩
  obtain ⟨hj₃, hc₃⟩ := hJ.rely _ _ hj₂ h₂
  exact h w₁ o hj₁ hc₁ ho w₂ hj₃ ((hc₁.trans hq.toCalm).trans hc₃)

/-- A call that can change files. -/
theorem Steady.wp_mutate (hJ : Steady D J) {op : Op} {w : World} (hw : J w)
    {Q : Except DartError (Reply op) → World → Prop}
    (h : ∀ w₁ o, J w₁ → w.Calm w₁ → D.allow w₁ op o →
      (D.guarantee w₁ (w₁.exec P op o).2 ∧ J (w₁.exec P op o).2) ∧
        ∀ w₂, J w₂ → (w₁.exec P op o).2.Calm w₂ → Q (w₁.exec P op o).1 w₂) :
    (call op).wp D Q w := by
  rw [CajaSegura.wp_call]
  intro w₁ h₁ o ho
  obtain ⟨hj₁, hc₁⟩ := hJ.rely _ _ hw h₁
  obtain ⟨⟨hg, hj₂⟩, hQ⟩ := h w₁ o hj₁ hc₁ ho
  refine ⟨hg, fun w₂ h₂ _ => ?_⟩
  obtain ⟨hj₃, hc₃⟩ := hJ.rely _ _ hj₂ h₂
  exact hQ w₂ hj₃ hc₃

/-- How a stretch that changes no file ends: with a result in `R`, or with an error where `F`. -/
structure Leads (J : World → Prop) (F : Prop) (w : World) (R : α → World → Prop)
    (r : Except DartError α) (w' : World) : Prop where
  keeps : J w'
  calm : w.Calm w'
  ok : ∀ a, r = .ok a → R a w'
  error : ∀ e, r = .error e → F

theorem Leads.seq {F : Prop} {w w₁ : World} {R : α → World → Prop} {p : App α} {f : α → App β}
    {Q : Except DartError β → World → Prop} (hp : p.wp D (Leads J F w R) w₁)
    (he : F → ∀ e w', J w' → w.Calm w' → Q (.error e) w')
    (hf : ∀ a w', J w' → w.Calm w' → R a w' → (f a).wp D Q w') : (p >>= f).wp D Q w₁ := by
  rw [wp_bind]
  refine wp_mono p ?_ hp
  rintro (e | a) w' ⟨hj, hc, hok, herr⟩
  · exact he (herr e rfl) e w' hj hc
  · exact hf a w' hj hc (hok a rfl)

/-- A stretch after another one. -/
theorem Leads.after {F : Prop} {w w₁ : World} {R : α → World → Prop} {p : App α} (hc : w.Calm w₁)
    (hp : p.wp D (Leads J F w₁ R) w₁) : p.wp D (Leads J F w R) w₁ :=
  wp_mono p (fun _ _ h => ⟨h.keeps, hc.trans h.calm, h.ok, h.error⟩) hp

theorem Leads.bind {F : Prop} {w : World} {R : α → World → Prop} {S : β → World → Prop} {p : App α}
    {f : α → App β} (hp : p.wp D (Leads J F w R) w)
    (hf : ∀ a w', J w' → w.Calm w' → R a w' → (f a).wp D (Leads J F w' S) w') :
    (p >>= f).wp D (Leads J F w S) w := by
  apply Leads.seq hp
  · intro h e w' hj hc
    exact ⟨hj, hc, fun _ ha => (nomatch ha), fun _ _ => h⟩
  · intro a w' hj hc hR
    exact Leads.after hc (hf a w' hj hc hR)

theorem Leads.pure {F : Prop} {w : World} {R : α → World → Prop} {a : α} (hw : J w) (ha : R a w) :
    (Pure.pure a : App α).wp D (Leads J F w R) w := by
  refine ⟨hw, .refl w, fun b hb => ?_, fun e he => nomatch he⟩
  cases hb
  exact ha

/-- A call that can change nothing and whose reply depends on the files and directories. -/
theorem Steady.call_leads (hJ : Steady D J) {op : Op} (hop : ¬ op.Mutates) {F : Prop} {w : World}
    (hw : J w) {R : Reply op → World → Prop}
    (h : ∀ w₁ o, J w₁ → w.Calm w₁ → D.allow w₁ op o →
      (∀ a, (w₁.exec P op o).1 = .ok a → ∀ w₂, (w₁.exec P op o).2.Calm w₂ → R a w₂) ∧
        ∀ e, (w₁.exec P op o).1 = .error e → F) :
    (call op).wp D (Leads J F w R) w := by
  rw [CajaSegura.wp_call]
  intro w₁ h₁ o ho
  obtain ⟨hj₁, hc₁⟩ := hJ.rely _ _ hw h₁
  have hq := World.quiet_exec (P := P) w₁ hop o
  obtain ⟨hg, hj₂⟩ := hJ.quiet _ _ hj₁ hq
  obtain ⟨hok, herr⟩ := h w₁ o hj₁ hc₁ ho
  refine ⟨hg, fun w₂ h₂ _ => ?_⟩
  obtain ⟨hj₃, hc₃⟩ := hJ.rely _ _ hj₂ h₂
  exact ⟨hj₃, (hc₁.trans hq.toCalm).trans hc₃, fun a ha => hok a ha w₂ hc₃, herr⟩

theorem Steady.awaited_leads (hJ : Steady D J) {F : Prop} {w : World} {p : App α}
    {R : α → World → Prop} (hR : ∀ a w₁ w₂, R a w₁ → w₁.Calm w₂ → R a w₂)
    (h : p.wp D (Leads J F w R) w) : (awaited p).wp D (Leads J F w R) w := by
  rw [CajaSegura.wp_awaited]
  refine wp_mono p ?_ h
  rintro r w₁ ⟨hj, hc, hok, herr⟩
  apply hJ.wp_call (by simp [Op.Mutates]) hj
  intro w₂ o _ _ _ w₃ hj₃ hc₃
  exact ⟨hj₃, hc.trans hc₃, fun a ha => hR a w₁ w₃ (hok a ha) hc₃, herr⟩

/-- Nothing but the clock moves. -/
def TimePasses (w w' : World) : Prop := ∃ now, w' = { w with now := now }

theorem TimePasses.calm {w w' : World} (h : TimePasses w w') : w.Calm w' := by
  obtain ⟨t, rfl⟩ := h
  exact ⟨rfl, fun _ => id, rfl, rfl⟩

/-- A program that runs alone while time passes, and whose calls all work. -/
def faultless (P : Platform) : Discipline (device P) where
  allow := Good
  deliver := fun _ _ _ => True
  rely := TimePasses
  guarantee := fun _ _ => True

/-- A program that runs alone while time passes, and whose calls turn out as they may. -/
def undisturbed (P : Platform) : Discipline (device P) where
  allow := fun _ _ _ => True
  deliver := fun _ _ _ => True
  rely := TimePasses
  guarantee := fun _ _ => True

/-- What a call does does not depend on the clock. -/
theorem World.exec_clocked (w : World) (t : Instant) (op : Op) (o : Outcome op) :
    World.exec P { w with now := t } op o =
      ((w.exec P op o).1, { (w.exec P op o).2 with now := t }) := by
  have heffect : World.effect P { w with now := t } op o =
      ((w.effect P op o).1, { (w.effect P op o).2 with now := t }) := by
    cases op with
    | encrypt c k n =>
      cases o with
      | none =>
        have hkey : World.keyBytes { w with now := t } k = w.keyBytes k := by cases k <;> rfl
        unfold World.effect World.encryptUnder
        dsimp only
        rw [hkey]
        by_cases h : (w.keyBytes k).length = 32
        · simp only [if_pos h]
        · simp only [if_neg h]
      | some e => rfl
    | setPreference k v => rcases o with e | (_ | _) <;> rfl
    | removePreference k => rcases o with e | (_ | _) <;> rfl
    | decrypt b k => cases o <;> cases k <;> rfl
    | hop => rfl
    | delayed m => rfl
    | isDeviceSupported => rfl
    | canCheckBiometrics => rfl
    | getAvailableBiometrics => rfl
    | localAuthenticate r => rfl
    | pickFiles => rfl
    | showDialog r => rfl
    | listSync d => rfl
    | _ => cases o <;> rfl
  unfold World.exec
  rw [heffect]

/-- A call of a program beside which nothing but time passes. -/
theorem wp_call_passing (hr : ∀ w w', D.rely w w' → TimePasses w w')
    (hg : ∀ w w', D.guarantee w w') {op : Op} {Q : Except DartError (Reply op) → World → Prop}
    {w : World} (h : ∀ o, (∃ w₁, D.allow w₁ op o) →
      ∀ w', TimePasses (w.exec P op o).2 w' → (∃ w₁, D.rely w₁ w') → Q (w.exec P op o).1 w') :
    (call op).wp D Q w := by
  rw [wp_call]
  intro w₁ h₁ o ho
  refine ⟨hg _ _, fun w₂ h₂ _ => ?_⟩
  obtain ⟨t, rfl⟩ := hr _ _ h₁
  obtain ⟨t', rfl⟩ := hr _ _ h₂
  have hexec := World.exec_clocked (P := P) w t op o
  have hrely := Exists.intro (p := fun w₁ => D.rely w₁ _) _ h₂
  rw [hexec] at hrely
  have hQ := h o ⟨_, ho⟩ { (w.exec P op o).2 with now := t' } ⟨t', rfl⟩ hrely
  rw [hexec]
  exact hQ

end CajaSegura
