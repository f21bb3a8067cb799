import CajaSegura.Main
import CajaSegura.Platform.Sample
import CajaSegura.Properties.Interruption
import CajaSegura.Properties.Replacement
import CajaSegura.Screens.State
import CajaSegura.Services.ListRules

/-!
# The life of an entry

Imports, exports, listings and deletions beside authentications, pauses and starts of the
application, in any order and interleaved in any way. Any call may fail and the process may die at
any moment. Only the secure storage tells the truth when it answers. Which key it stores may be known
(`some kek`) or not (`none`).

## Main definitions

* `life`: the runs
* `Undeleted`: no file of an entry has been deleted
* `Hold`: the ghost state of a thread, which says what it has in its hands
* `Alive`: the invariant

## Main results

* `imported_exports`: what an import has returned can be exported in every later session
* `entries_only_vanish`: an entry never changes, and once deleted never comes back
-/

namespace CajaSegura

open Codec Async
open Program hiding bind

variable {P : Platform}

/-! ## The runs -/

/-- What the screens ask of the services. -/
inductive LifeAction
  | main
  | unlock
  | lock
  | extendSession
  | importFile (source : File) (mimeType : Text) (moveFile : Bool)
  | exportClear (id : Text)
  | deleteById (id : Text)
  | listAll
  | tick (now : Instant)

/-- An import has ended. If it has returned, that is recorded with its source. -/
def World.imported (source : File) (r : Except DartError VaultFileMeta) (w : World) : World :=
  match r with
  | .ok m => { w with record := { w.record with imports := (source, m) :: w.record.imports } }
  | .error _ => w

/-- An import under the key of the session, if there is one. -/
def importHolding (P : Platform) (self : ℕ) (source : File) (mimeType : Text) (moveFile : Bool) :
    App Unit := do
  let kek ← get LockManager.kek
  match kek with
  | none => return ()
  | some kek =>
    Program.modify (World.entered (self, .batch))
    Program.handle (VaultRepository.importFile P source mimeType kek moveFile) fun r =>
      Program.modify fun w => World.left (self, .batch) (World.imported source r w)

def exportHolding (P : Platform) (id : Text) : App Unit := do
  let kek ← get LockManager.kek
  match kek with
  | none => return ()
  | some kek => let _ ← VaultRepository.exportClear P id kek

def LifeAction.program (P : Platform) (self : ℕ) : LifeAction → App Unit
  | .main => CajaSegura.main P
  | .unlock => do let _ ← LockManager.unlock P
  | .lock => LockManager.lock
  | .extendSession => LockManager.extendSession
  | .importFile source mimeType moveFile => importHolding P self source mimeType moveFile
  | .exportClear id => exportHolding P id
  | .deleteById id => VaultRepository.deleteById id
  | .listAll => do let _ ← VaultRepository.listAll P
  | .tick now => Program.modify (AuthService.clocked now)

/-- The runs in which the session is not locked during an import, and files are imported from outside
the vault. -/
def life (P : Platform) : System (device P) where
  Action := LifeAction
  program := LifeAction.program P
  enabled w
    | .lock => ∀ i, (i, .batch) ∉ w.record.running
    | .importFile source _ _ => ∃ k, w.fs.resolve source = some k ∧ k.dir ≠ vaultDir P
    | _ => True
  allow _ := Truthful
  deliver _ _ _ := True
  crash w w' := w' = restarted w

/-- No file of the entry has been deleted, whichever path has led to it. -/
def Undeleted (P : Platform) (id : Text) (w : World) : Prop :=
  ∀ f, ⟨.delete f, .done⟩ ∈ w.record.answers → ∀ (fs : Fs) (k : Key), fs.resolve f = some k →
    ¬ HalfOf P id k

/-! ## What is whose -/

/-- What a thread has in its hands: the buffer of the key, and the identifier of its entry. -/
structure Hold where
  key : Option Ref
  own : Option ℕ

def Hold.nothing : Hold := ⟨none, none⟩

namespace Life

/-- The files of an entry are as they were, unless it has been deleted. -/
def Spares (P : Platform) (id : Text) (w w' : World) : Prop :=
  Undeleted P id w' → w'.fs.files (dataKey P id) = w.fs.files (dataKey P id) ∧
    w'.fs.files (metaKey P id) = w.fs.files (metaKey P id)

/-- The files of an entry are as they were, or gone. -/
def Fades (P : Platform) (id : Text) (w w' : World) : Prop :=
  ∀ k, HalfOf P id k → w'.fs.files k = w.fs.files k ∨ w'.fs.files k = none

/-- What stays and what grows, whoever takes a step. -/
structure Persists (K : Option Bytes) (w w' : World) : Prop where
  zone : w'.zone = w.zone
  storage : KeyStored K w → KeyStored K w'
  dirs : ∀ p, w.fs.dirs p = true → w'.fs.dirs p = true
  uuids : w.uuids ≤ w'.uuids
  allocated : w.allocated ≤ w'.allocated
  answers : ∀ a ∈ w.record.answers, a ∈ w'.record.answers

/-- What the other threads may do. -/
structure Rely (P : Platform) (K : Option Bytes) (i : ℕ) (γ : Hold) (w w' : World) : Prop
    extends Persists K w w' where
  heap : ∀ r, γ.key = some r → w'.heap r = w.heap r
  running : ∀ s, (i, s) ∈ w'.record.running ↔ (i, s) ∈ w.record.running
  files : ∀ n, γ.own = some n → Spares P (P.uuid n) w w'

section Runs

variable (P) (K : Option Bytes) (z : Zone) (Seen : File → Bytes → Prop)

/-- The key in the hands of a thread, which is marked, is the known one. -/
def Held (i : ℕ) (γ : Hold) (w : World) : Prop := ∀ r, γ.key = some r →
  (∀ kek ∈ K, w.heap r = kek) ∧ r < w.allocated ∧ (i, Stretch.batch) ∈ w.record.running

/-- The record of an import of contents that the source has been seen with. -/
def Stored (n : ℕ) (source : File) (m : VaultFileMeta) (w : World) : Prop :=
  ∃ b cipher, m.id = P.uuid n ∧ Seen source b ∧
    (∀ kek ∈ K, Entry P kek (P.uuid n) b m cipher) ∧ (Undeleted P (P.uuid n) w →
      w.fs.files (dataKey P (P.uuid n)) = some cipher ∧
        w.fs.files (metaKey P (P.uuid n)) = some (metaBytes z m))

/-- What a step of a thread may do. -/
structure Guarantee (i : ℕ) (γ γ' : Hold) (w w' : World) : Prop extends Persists K w w' where
  heap : ∀ j r, (j, Stretch.batch) ∈ w.record.running → r < w.allocated → w'.heap r = w.heap r
  session : Keyed K w → Keyed K w'
  running : ∀ j, j ≠ i → ∀ s, (j, s) ∈ w'.record.running ↔ (j, s) ∈ w.record.running
  key : Held K i γ' w'
  own : γ'.own = γ.own ∨ γ'.own = none ∨ γ'.own = some w.uuids ∧ w'.uuids = w.uuids + 1
  files : ∀ id, '/' ∉ id → (∀ n, γ'.own = some n → id ≠ P.uuid n) → Spares P id w w'
  fades : ∀ id, '/' ∉ id → (∀ n, γ'.own = some n → id ≠ P.uuid n) → Fades P id w w'
  imports : w'.record.imports = w.record.imports ∨ ∃ n source m, w'.record.imports =
    (source, m) :: w.record.imports ∧ γ.own = some n ∧ γ'.own = none ∧
      Stored P K z Seen n source m w'

/-- The invariant. -/
structure Alive (gs : ℕ → Hold) (w : World) : Prop where
  zone : w.zone = z
  storage : KeyStored K w
  session : Keyed K w
  held : ∀ i, Held K i (gs i) w
  drawn : ∀ i n, (gs i).own = some n → n < w.uuids
  distinct : ∀ i j n, (gs i).own = some n → (gs j).own = some n → i = j
  stored : ∀ source m, (source, m) ∈ w.record.imports →
    ∃ n, n < w.uuids ∧ (∀ j, (gs j).own ≠ some n) ∧ Stored P K z Seen n source m w

def living (i : ℕ) : GhostDiscipline (device P) Hold where
  allow w op o := Truthful op o ∧ ∀ f b, op = .readAsBytes f → w.fs.read f = some b → Seen f b
  deliver _ _ _ := True
  rely := Rely P K i
  guarantee := Guarantee P K z Seen i

end Runs

section Together

variable {K : Option Bytes} {z : Zone} {Seen : File → Bytes → Prop} {w w' w'' : World} {gs : ℕ → Hold}
  {γ γ' : Hold} {i j n : ℕ} {id : Text} {source : File} {m : VaultFileMeta}

theorem Persists.refl (w : World) : Persists K w w :=
  ⟨rfl, id, fun _ => id, le_rfl, le_rfl, fun _ => id⟩

theorem Persists.trans (h : Persists K w w') (h' : Persists K w' w'') : Persists K w w'' where
  zone := h'.zone.trans h.zone
  storage hk := h'.storage (h.storage hk)
  dirs p hp := h'.dirs p (h.dirs p hp)
  uuids := h.uuids.trans h'.uuids
  allocated := h.allocated.trans h'.allocated
  answers a ha := h'.answers a (h.answers a ha)

/-- What has not been deleted later was not deleted earlier. -/
theorem Persists.undeleted (h : Persists K w w') (hid : Undeleted P id w') : Undeleted P id w :=
  fun f ha => hid f (h.answers _ ha)

theorem Spares.trans (hp : Persists K w' w'') (h : Spares P id w w') (h' : Spares P id w' w'') :
    Spares P id w w'' := by
  intro hid
  obtain ⟨hd, hm⟩ := h (hp.undeleted hid)
  obtain ⟨hd', hm'⟩ := h' hid
  exact ⟨hd'.trans hd, hm'.trans hm⟩

theorem spares_of_files (h : w'.fs.files = w.fs.files) : Spares P id w w' :=
  fun _ => ⟨congrFun h _, congrFun h _⟩

theorem fades_of_files (h : w'.fs.files = w.fs.files) : Fades P id w w' :=
  fun k _ => .inl (congrFun h k)

theorem Fades.trans (h : Fades P id w w') (h' : Fades P id w' w'') : Fades P id w w'' := by
  intro k hk
  rcases h' k hk with hs | hn
  · rw [hs]
    exact h k hk
  · exact .inr hn

theorem Rely.refl (i : ℕ) (γ : Hold) (w : World) : Rely P K i γ w w :=
  ⟨.refl w, fun _ _ => rfl, fun _ => Iff.rfl, fun _ _ => spares_of_files rfl⟩

theorem Rely.trans (h : Rely P K i γ w w') (h' : Rely P K i γ w' w'') : Rely P K i γ w w'' where
  toPersists := h.toPersists.trans h'.toPersists
  heap r hr := (h'.heap r hr).trans (h.heap r hr)
  running s := (h'.running s).trans (h.running s)
  files n hn := (h.files n hn).trans h'.toPersists (h'.files n hn)

theorem Stored.spared (h : Stored P K z Seen n source m w) (hp : Persists K w w')
    (hs : Spares P (P.uuid n) w w') : Stored P K z Seen n source m w' := by
  obtain ⟨b, cipher, hmid, hseen, hE, hfiles⟩ := h
  refine ⟨b, cipher, hmid, hseen, hE, fun hid => ?_⟩
  obtain ⟨hd, hm⟩ := hs hid
  obtain ⟨hd', hm'⟩ := hfiles (hp.undeleted hid)
  exact ⟨hd.trans hd', hm.trans hm'⟩

/-- An identifier that a step leaves to others. -/
theorem Guarantee.ne_own (hg : Guarantee P K z Seen i γ γ' w w') (hn : n < w.uuids)
    (hγ : γ.own ≠ some n) : ∀ n', γ'.own = some n' → P.uuid n ≠ P.uuid n' := by
  intro n' hn' he
  obtain rfl := P.uuid_injective he
  rcases hg.own with ho | ho | ⟨ho, -⟩
  · exact hγ (ho.symm.trans hn')
  · cases ho.symm.trans hn'
  · obtain rfl : w.uuids = n := Option.some.inj (ho.symm.trans hn')
    exact lt_irrefl _ hn

/-- What one thread does the others may rely on. -/
theorem Alive.compat (h : Alive P K z Seen gs w) (hg : Guarantee P K z Seen i (gs i) γ' w w')
    (hij : i ≠ j) : Rely P K j (gs j) w w' where
  toPersists := hg.toPersists
  heap r hr := by
    obtain ⟨-, hlt, hmark⟩ := h.held j r hr
    exact hg.heap j r hmark hlt
  running := hg.running j (Ne.symm hij)
  files n hn := by
    refine hg.files _ (P.uuid_plain n).1 (hg.ne_own (h.drawn j n hn) fun hi => ?_)
    exact hij (h.distinct i j n hi hn)

theorem Alive.step (h : Alive P K z Seen gs w) (hg : Guarantee P K z Seen i (gs i) γ' w w') :
    Alive P K z Seen (Function.update gs i γ') w' := by
  have hself : Function.update gs i γ' i = γ' := Function.update_self ..
  have hother {j : ℕ} (hj : j ≠ i) : Function.update gs i γ' j = gs j := Function.update_of_ne hj ..
  -- what a thread owns afterwards it owned before, or has drawn just now
  have hdrawn (n : ℕ) (hn : γ'.own = some n) :
      (gs i).own = some n ∨ n = w.uuids ∧ w'.uuids = w.uuids + 1 := by
    rcases hg.own with ho | ho | ⟨ho, hu⟩
    · exact .inl (ho.symm.trans hn)
    · cases ho.symm.trans hn
    · exact .inr ⟨(Option.some.inj (ho.symm.trans hn)).symm, hu⟩
  have hdistinct {j n : ℕ} (hj : j ≠ i) (hi : γ'.own = some n) (hn : (gs j).own = some n) :
      False := by
    rcases hdrawn n hi with hi | ⟨rfl, -⟩
    · exact hj (h.distinct j i n hn hi)
    · exact lt_irrefl _ (h.drawn j _ hn)
  constructor
  case zone => exact hg.zone.trans h.zone
  case storage => exact hg.storage h.storage
  case session => exact hg.session h.session
  -- a key held by another thread is not overwritten while its batch lasts
  case held =>
    intro j r hr
    by_cases hj : j = i
    · subst hj
      rw [hself] at hr
      exact hg.key r hr
    · rw [hother hj] at hr
      obtain ⟨hK, hlt, hmark⟩ := h.held j r hr
      refine ⟨fun kek hkek => ?_, hlt.trans_le hg.allocated, (hg.running j hj _).mpr hmark⟩
      exact (hg.heap j r hmark hlt).trans (hK kek hkek)
  case drawn =>
    intro j n hn
    by_cases hj : j = i
    · subst hj
      rw [hself] at hn
      rcases hdrawn n hn with hn | ⟨rfl, hu⟩
      · exact (h.drawn j n hn).trans_le hg.uuids
      · omega
    · rw [hother hj] at hn
      exact (h.drawn j n hn).trans_le hg.uuids
  -- an identifier drawn just now is nobody else's
  case distinct =>
    intro j k n hj hk
    by_cases hji : j = i
    · by_cases hki : k = i
      · exact hji.trans hki.symm
      · subst hji
        rw [hself] at hj
        rw [hother hki] at hk
        exact (hdistinct hki hj hk).elim
    · rw [hother hji] at hj
      by_cases hki : k = i
      · subst hki
        rw [hself] at hk
        exact (hdistinct hji hk hj).elim
      · rw [hother hki] at hk
        exact h.distinct j k n hj hk
  -- an entry is nobody's own, so that no step but a deletion touches it
  case stored =>
    intro source m hm
    have hold (hm : (source, m) ∈ w.record.imports) : ∃ n, n < w'.uuids ∧
        (∀ j, (Function.update gs i γ' j).own ≠ some n) ∧ Stored P K z Seen n source m w' := by
      obtain ⟨n, hlt, hfree, hs⟩ := h.stored source m hm
      have hne := hg.ne_own hlt (hfree i)
      refine ⟨n, hlt.trans_le hg.uuids, fun k hk => ?_,
        hs.spared hg.toPersists (hg.files _ (P.uuid_plain n).1 hne)⟩
      by_cases hki : k = i
      · subst hki
        rw [hself] at hk
        exact hne n hk rfl
      · rw [hother hki] at hk
        exact hfree k hk
    rcases hg.imports with hr | ⟨n, source', m', hr, hn, hnone, hs⟩
    · exact hold (hr ▸ hm)
    -- the entry whose import has just ended comes to the others
    · rw [hr] at hm
      rcases List.mem_cons.mp hm with he | hm
      · obtain ⟨rfl, rfl⟩ := Prod.mk.inj he
        refine ⟨n, (h.drawn i n hn).trans_le hg.uuids, fun k hk => ?_, hs⟩
        by_cases hki : k = i
        · subst hki
          rw [hself, hnone] at hk
          cases hk
        · rw [hother hki] at hk
          exact hki (h.distinct k i n hk hn)
      · exact hold hm

/-- A restart forgets the threads and the key in memory. -/
theorem Alive.restarted (h : Alive P K z Seen gs w) :
    Alive P K z Seen (fun _ => Hold.nothing) (restarted w) where
  zone := h.zone
  storage := h.storage
  session _ hr := nomatch hr
  held _ _ hr := nomatch hr
  drawn _ _ hn := nomatch hn
  distinct _ _ _ hn := nomatch hn
  stored source m hm := by
    obtain ⟨n, hlt, -, hs⟩ := h.stored source m hm
    exact ⟨n, hlt, fun _ => nofun, hs⟩

end Together

/-! ## Steps -/

/-- A change of nothing that an entry or an import depends on. -/
structure Beside (w w' : World) : Prop where
  fs : w'.fs = w.fs
  zone : w'.zone = w.zone
  storage : w'.storage = w.storage
  uuids : w'.uuids = w.uuids
  heap : w'.heap = w.heap
  allocated : w'.allocated = w.allocated
  kek : w'.auth._kek = w.auth._kek
  answers : w'.record.answers = w.record.answers
  running : w'.record.running = w.record.running
  imports : w'.record.imports = w.record.imports

section Steps

variable {K : Option Bytes} {z : Zone} {Seen : File → Bytes → Prop} {w w' : World} {γ : Hold} {i : ℕ}

theorem held_nothing : Held K i Hold.nothing w := fun _ h => nomatch h

theorem Held.rely (h : Held K i γ w) (hr : Rely P K i γ w w') : Held K i γ w' := by
  intro r hk
  obtain ⟨hK, hlt, hmark⟩ := h r hk
  refine ⟨fun kek hkek => ?_, hlt.trans_le hr.allocated, (hr.running _).mpr hmark⟩
  exact (hr.heap r hk).trans (hK kek hkek)

theorem keyStored_of_eq (h : w'.storage = w.storage) (hk : KeyStored K w) : KeyStored K w' :=
  fun kek hkek => h.trans (hk kek hkek)

theorem guarantee_beside (h : Held K i γ w) (hb : Beside w w') :
    Guarantee P K z Seen i γ γ w w' where
  zone := hb.zone
  storage := keyStored_of_eq hb.storage
  dirs p hp := by rw [hb.fs, hp]
  uuids := hb.uuids.ge
  allocated := hb.allocated.ge
  answers a ha := hb.answers ▸ ha
  heap j r _ _ := congrFun hb.heap r
  session hs r hr := by
    rw [hb.heap, hb.allocated]
    exact hs r (hb.kek ▸ hr)
  running j _ s := by rw [hb.running]
  key r hr := by
    rw [hb.heap, hb.allocated, hb.running]
    exact h r hr
  own := .inl rfl
  files id _ _ := spares_of_files (by rw [hb.fs])
  fades id _ _ := fades_of_files (by rw [hb.fs])
  imports := .inl hb.imports

/-- A call that leaves the stored key, and the entries of others. -/
theorem guarantee_exec (h : Held K i γ w) {op : Op} {o : Outcome op}
    (hstorage : KeyStored K w → KeyStored K (w.exec P op o).2)
    (hfiles : ∀ id, '/' ∉ id → (∀ n, γ.own = some n → id ≠ P.uuid n) →
      Spares P id w (w.exec P op o).2 ∧ Fades P id w (w.exec P op o).2) :
    Guarantee P K z Seen i γ γ w (w.exec P op o).2 := by
  have ho := World.outside_exec P w op o
  constructor
  case toPersists =>
    refine ⟨ho.zone, hstorage, World.dirs_exec w op o, ho.uuids.ge, ho.allocated.ge, fun a ha => ?_⟩
    rw [World.answers_exec]
    exact List.mem_cons_of_mem _ ha
  case heap => exact fun j r _ _ => congrFun ho.heap r
  case session =>
    intro hs r hr
    rw [ho.heap, ho.allocated]
    exact hs r (ho.auth ▸ hr)
  case running => exact fun j _ s => by rw [ho.running]
  case key =>
    intro r hr
    rw [ho.heap, ho.allocated, ho.running]
    exact h r hr
  case own => exact .inl rfl
  case files => exact fun id hid hne => (hfiles id hid hne).1
  case fades => exact fun id hid hne => (hfiles id hid hne).2
  case imports => exact .inl ho.imports

theorem guarantee_quiet (h : Held K i γ w) (hq : w.Quiet w') :
    Guarantee P K z Seen i γ γ w w' where
  zone := hq.zone
  storage := keyStored_of_eq hq.storage
  dirs := hq.dirs
  uuids := hq.uuids.ge
  allocated := hq.allocated.ge
  answers a ha := by
    obtain ⟨l, hl, -⟩ := hq.answers
    rw [hl]
    exact List.mem_append_right _ ha
  heap j r _ _ := congrFun hq.heap r
  session hs r hr := by
    rw [hq.heap, hq.allocated]
    exact hs r (hq.auth ▸ hr)
  running j _ s := by rw [hq.running]
  key r hr := by
    rw [hq.heap, hq.allocated, hq.running]
    exact h r hr
  own := .inl rfl
  files id _ _ := spares_of_files hq.files
  fades id _ _ := fades_of_files hq.files
  imports := .inl hq.imports

/-- The session is closed while no import holds its key. -/
theorem guarantee_locked (hidle : ∀ j, (j, Stretch.batch) ∉ w.record.running) :
    Guarantee P K z Seen i Hold.nothing Hold.nothing w (AuthService.locked w) where
  zone := rfl
  storage := id
  dirs _ := id
  uuids := le_rfl
  allocated := le_rfl
  answers _ := id
  heap j _ hj := absurd hj (hidle j)
  session _ _ hr := nomatch hr
  running _ _ _ := Iff.rfl
  key := held_nothing
  own := .inl rfl
  files _ _ _ := spares_of_files rfl
  fades _ _ _ := fades_of_files rfl
  imports := .inl rfl

/-- The stored key is decoded into a new buffer. -/
theorem guarantee_keyed {b : Bytes} (hb : ∀ kek ∈ K, b = kek) :
    Guarantee P K z Seen i Hold.nothing Hold.nothing w (AuthService.keyed b w) where
  zone := rfl
  storage := id
  dirs _ := id
  uuids := le_rfl
  allocated := Nat.le_succ _
  answers _ := id
  heap j r _ hr := Function.update_of_ne hr.ne ..
  session _ r hr := by
    obtain rfl : w.allocated = r := Option.some.inj hr
    exact ⟨fun kek hkek => (Function.update_self ..).trans (hb kek hkek), Nat.lt_succ_self _⟩
  running _ _ _ := Iff.rfl
  key := held_nothing
  own := .inl rfl
  files _ _ _ := spares_of_files rfl
  fades _ _ _ := fades_of_files rfl
  imports := .inl rfl

end Steps

/-! ## Threads that hold nothing -/

section Threads

variable {K : Option Bytes} {z : Zone} {Seen : File → Bytes → Prop} {w : World} {i : ℕ}

/-- The discipline of such a thread. -/
def idly (P : Platform) (K : Option Bytes) (z : Zone) (Seen : File → Bytes → Prop) (i : ℕ) :
    Discipline (device P) := (living P K z Seen i).fixed Hold.nothing

theorem firm_idly : Firm (idly P K z Seen i) (KeyStored K) True where
  rely _ _ h hr := hr.storage h
  dirs _ _ _ hr := hr.dirs
  quiet _ _ h hq := ⟨guarantee_quiet held_nothing hq, keyStored_of_eq hq.storage h⟩
  fault _ _ _ _ := .inr trivial

/-- Calls that are not about the key or about files. -/
theorem keeps_of_within {α : Type} {p : App α} {A : Op → Prop} {G : World → World → Prop}
    (hp : p.Within A G) (hA : ∀ op, A op → ¬ op.Mutates) (hG : ∀ w w', G w w' → Beside w w') :
    p.Keeps (idly P K z Seen i) (KeyStored K) := by
  refine Within.keeps hp firm_idly.rely (fun w w' h hg => ?_) fun op hop w o h _ => ?_
  · exact ⟨guarantee_beside held_nothing (hG w w' hg), keyStored_of_eq (hG w w' hg).storage h⟩
  · exact firm_idly.quiet _ _ h (World.quiet_exec w (hA op hop) o)

theorem not_mutates_harmless {op : Op} (h : op.Harmless) : ¬ op.Mutates := by
  rcases h with rfl | h
  · exact id
  · exact h.not_mutates

theorem exportHolding_keeps (id : Text) :
    (exportHolding P id).Keeps (idly P K z Seen i) (KeyStored K) := by
  intro w hw
  change (match LockManager.kek w with
    | none => return ()
    | some kek => do let _ ← VaultRepository.exportClear P id kek : App Unit).wp _ _ w
  cases LockManager.kek w with
  | none => exact hw
  | some kek =>
    refine Keeps.bind (keeps_of_within (VaultRepository.within_exportClear (G := Beside) id kek) ?_
      fun _ _ h => h) (fun _ => Keeps.ret _) w hw
    exact fun _ => not_mutates_harmless

theorem listAll_keeps :
    (VaultRepository.listAll P).Keeps (idly P K z Seen i) (KeyStored K) := by
  refine keeps_of_within (VaultRepository.within_listAll (G := Beside)) ?_ fun _ _ h => h
  rintro op (h | ⟨dir, rfl⟩)
  · exact not_mutates_harmless h
  · exact id

/-- A file is deleted, which is then no file of an entry that has not been deleted. -/
theorem delete_keeps (f : File) : (call (.delete f)).Keeps (idly P K z Seen i) (KeyStored K) := by
  refine Within.keeps (A := fun op => op = .delete f) (G := Beside) (within_call.mpr rfl)
    firm_idly.rely (fun w w' h hb => ?_) ?_
  · exact ⟨guarantee_beside held_nothing hb, keyStored_of_eq hb.storage h⟩
  rintro _ rfl w o h -
  refine ⟨guarantee_exec held_nothing id fun id _ _ => ?_, h⟩
  change (_ → (w.fs.onDelete f o).2.files _ = _ ∧ (w.fs.onDelete f o).2.files _ = _) ∧
    ∀ k', _ → (w.fs.onDelete f o).2.files k' = _ ∨ (w.fs.onDelete f o).2.files k' = _
  rcases Fs.onDelete_files w.fs f o with hs | ⟨rfl, k, hk, hs⟩
  · rw [hs]
    exact ⟨fun _ => ⟨rfl, rfl⟩, fun k' _ => .inl rfl⟩
  rw [hs]
  refine ⟨fun hid => ?_, fun k' _ => ?_⟩
  · have hdeleted : ¬ HalfOf P id k := by
      refine hid f ?_ w.fs k hk
      rw [World.answers_exec]
      exact List.mem_cons_self
    have hne {k' : Key} (hk' : HalfOf P id k') : k' ≠ k := by
      rintro rfl
      exact hdeleted hk'
    exact ⟨Function.update_of_ne (hne (.inr rfl)) .., Function.update_of_ne (hne (.inl rfl)) ..⟩
  · by_cases he : k' = k
    · subst he
      exact .inr (Function.update_self ..)
    · exact .inl (Function.update_of_ne he ..)

/-- **A deletion** changes no file of an entry that it does not delete. -/
theorem deleteById_keeps (id : Text) : (VaultRepository.deleteById id).Keeps (idly P K z Seen i)
    (KeyStored K) := by
  have hJ : Firm (idly P K z Seen i) (KeyStored K) True := firm_idly
  have hwhen {b : Bool} {p : App Unit} (hp : p.Keeps (idly P K z Seen i) (KeyStored K)) :
      (when b p).Keeps (idly P K z Seen i) (KeyStored K) := by
    cases b
    · exact Keeps.ret ()
    · exact hp
  have hlook (f : File) : (call (.fileExists f)).Keeps (idly P K z Seen i) (KeyStored K) :=
    keeps_of_within (A := Op.Harmless) (G := Beside) (within_call.mpr (.inr trivial))
      (fun _ => not_mutates_harmless) fun _ _ h => h
  refine Keeps.bind (hwhen (Keeps.fail _)) fun _ w hw => ?_
  apply VaultRepository.then_of_ends (hJ.awaited (fun a => hJ.lasts_found)
    (VaultRepository.ensureVaultDir_firm hJ hw)) fun _ _ _ hw' => hw'
  rintro _ w₁ hw₁ ⟨rfl, -⟩
  apply VaultRepository.then_of_ends (hJ.awaited (fun a => lasts_const _)
    (Ends.pure hw₁ (R := fun a _ => a = metaFileOf (vaultDir P) id) rfl)) fun _ _ _ hw' => hw'
  rintro _ w₂ hw₂ rfl
  apply VaultRepository.then_of_ends (hJ.awaited (fun a => lasts_const _)
    (Ends.pure hw₂ (R := fun a _ => a = dataFileOf (vaultDir P) id) rfl)) fun _ _ _ hw' => hw'
  rintro _ w₃ hw₃ rfl
  refine Keeps.bind (hlook _) (fun metaExists => Keeps.bind (hlook _) fun dataExists => ?_) w₃ hw₃
  split
  · exact Keeps.ret ()
  · exact Keeps.bind (hwhen (delete_keeps _)) fun _ => hwhen (delete_keeps _)

/-! ### Sessions -/

section Sessions

variable (hK : ∀ kek ∈ K, kek.length = 32)

include hK

/-- A known key is found, and it is the one in every new buffer. -/
theorem opens_idly : Opens (idly P K z Seen i) (KeyStored K) (fun _ => K = none) (KeyStored K) where
  rely w w' h hr := ⟨firm_idly.rely w w' h hr, id⟩
  quiet w w' h hq := ⟨guarantee_quiet held_nothing hq, keyStored_of_eq hq.storage h, id⟩
  missing w o x w' h ho hx hmiss _ := h.unknown hK (fun _ _ => ho.1) hx hmiss
  store w b o _ hnone _ _ := by
    subst hnone
    have hfs : (w.exec P (.storageWrite (Base64.encode b)) o).2.fs = w.fs := by
      cases o <;> rfl
    refine ⟨guarantee_exec held_nothing (fun _ => nofun) fun _ _ _ => ?_, nofun⟩
    exact ⟨spares_of_files (congrArg Fs.files hfs), fades_of_files (congrArg Fs.files hfs)⟩
  key w o s w' b h ho hx _ hr _ hb := by
    refine ⟨guarantee_keyed (h.decoded (fun _ _ => ho.1) hx hb), guarantee_beside held_nothing ?_,
      hr.storage h⟩
    constructor <;> rfl

theorem unlock_keeps : (LockManager.unlock P).Keeps (idly P K z Seen i) (KeyStored K) :=
  fun _ hw => LockManager.unlock_wp (opens_idly hK) hw

theorem main_keeps : (CajaSegura.main P).Keeps (idly P K z Seen i) (KeyStored K) := by
  have hchrome : (call .systemChrome).Keeps (idly P K z Seen i) (KeyStored K) :=
    keeps_of_within (A := fun op => ¬ op.Mutates) (G := Beside) (within_call.mpr id)
      (fun _ h => h) fun _ _ h => h
  have hsettings : (awaited SettingsService.init).Keeps (idly P K z Seen i) (KeyStored K) := by
    refine Within.keeps (within_awaited (SettingsService.within_init (G := Beside) fun w => ?_)
      (.inl rfl)) firm_idly.rely (fun w w' h hb => ?_) ?_
    · constructor <;> rfl
    · exact ⟨guarantee_beside held_nothing hb, keyStored_of_eq hb.storage h⟩
    · rintro op hop w o h -
      obtain ⟨hstorage, hfs⟩ : (w.exec P op o).2.storage = w.storage ∧
          (w.exec P op o).2.fs = w.fs := by
        rcases hop with rfl | rfl | ⟨k, v, rfl⟩ | ⟨k, rfl⟩
        · exact ⟨rfl, rfl⟩
        · cases o <;> exact ⟨rfl, rfl⟩
        · rcases o with e | (_ | _) <;> exact ⟨rfl, rfl⟩
        · rcases o with e | (_ | _) <;> exact ⟨rfl, rfl⟩
      refine ⟨guarantee_exec held_nothing (keyStored_of_eq hstorage) fun _ _ _ => ?_,
        keyStored_of_eq hstorage h⟩
      exact ⟨spares_of_files (congrArg Fs.files hfs), fades_of_files (congrArg Fs.files hfs)⟩
  have hinit : (awaited (LockManager.init P)).Keeps (idly P K z Seen i) (KeyStored K) := by
    intro w hw
    rw [wp_awaited]
    refine wp_mono _ (fun r w₁ hw₁ => ?_) (LockManager.init_wp (opens_idly hK) hw)
    exact keeps_of_within (A := fun op => ¬ op.Mutates) (G := Beside) (within_call.mpr id)
      (fun _ h => h) (fun _ _ h => h) w₁ hw₁
  have hrun : runApp.Keeps (idly P K z Seen i) (KeyStored K) := by
    intro w hw
    refine ⟨guarantee_beside held_nothing ?_, hw⟩
    constructor <;> rfl
  refine Keeps.bind hchrome fun _ => Keeps.bind ?_ fun _ => Keeps.bind ?_ fun _ => hrun
  · exact Keeps.tryCatch (Keeps.bind hsettings fun _ => hinit) fun _ => Keeps.ret ()
  · refine Keeps.tryCatch (Keeps.bind (fun w hw => hw) fun enabled => ?_) fun _ => Keeps.ret ()
    cases enabled with
    | error e => exact Keeps.fail e
    | ok enabled =>
      cases enabled with
      | false => exact Keeps.ret ()
      | true => exact hchrome

end Sessions

end Threads

/-! ## Imports -/

section Importing

variable {K : Option Bytes} {z : Zone} {Seen : File → Bytes → Prop} {w w' : World} {i n : ℕ} {γ : Hold}
  {source : File} {sk : Key} {kek : Bytes} {r : Ref} {m : VaultFileMeta}

/-- What an import of `source` under the key `kek` knows of the world. -/
structure Importing (K : Option Bytes) (z : Zone) (i : ℕ) (source : File) (sk : Key) (kek : Bytes)
    (γ : Hold) (w : World) : Prop where
  zone : w.zone = z
  held : Held K i γ w
  key : ∀ r, γ.key = some r → w.heap r = kek
  source : w.fs.resolve source = some sk

theorem Importing.quiet (h : Importing K z i source sk kek γ w) (hq : w.Quiet w') :
    Importing K z i source sk kek γ w' := by
  refine ⟨hq.zone.trans h.zone, ?_, fun r hr => (congrFun hq.heap r).trans (h.key r hr),
    Fs.resolve_mono hq.dirs h.source⟩
  unfold Held
  rw [hq.heap, hq.allocated, hq.running]
  exact h.held

theorem firm_importing :
    Firm ((living P K z Seen i).fixed γ) (Importing K z i source sk kek γ) True where
  rely _ _ h hr := ⟨hr.zone.trans h.zone, h.held.rely hr,
    fun r hk => (hr.heap r hk).trans (h.key r hk), Fs.resolve_mono hr.dirs h.source⟩
  dirs _ _ _ hr := hr.dirs
  quiet _ _ h hq := ⟨guarantee_quiet h.held hq, h.quiet hq⟩
  fault _ _ _ _ := .inr trivial

/-- The next identifier becomes the import's own. -/
theorem guarantee_draw (h : Held K i ⟨some r, none⟩ w) :
    Guarantee P K z Seen i ⟨some r, none⟩ ⟨some r, some w.uuids⟩ w
      { w with uuids := w.uuids + 1 } where
  zone := rfl
  storage := id
  dirs _ := id
  uuids := Nat.le_succ _
  allocated := le_rfl
  answers _ := id
  heap _ _ _ _ := rfl
  session hs := hs
  running _ _ _ := Iff.rfl
  key := h
  own := .inr (.inr ⟨rfl, rfl⟩)
  files _ _ _ := spares_of_files rfl
  fades _ _ _ := fades_of_files rfl
  imports := .inl rfl

theorem preparing_life : VaultRepository.Preparing P (living P K z Seen i) True source r kek
    ⟨some r, none⟩ (fun n => ⟨some r, some n⟩) (Importing K z i source sk kek ⟨some r, none⟩)
    (fun n => Importing K z i source sk kek ⟨some r, some n⟩)
    (fun n b w => Importing K z i source sk kek ⟨some r, some n⟩ w ∧ Seen source b)
    fun _ => True where
  begun := firm_importing
  drawn _ := firm_importing
  read _ b := firm_importing.and (lasts_const (Seen source b))
  gone₀ := lasts_const True
  gone₁ _ := lasts_const True
  missing₀ _ _ _ := trivial
  missing₁ _ _ _ _ := trivial
  length _ h := congrArg List.length (h.key r rfl)
  key _ _ _ _ _ _ h _ := h.1.key r rfl
  draw w h _ := ⟨guarantee_draw h.held, h.zone, h.held, h.key, h.source⟩
  reading n w b h ho hb := by
    have hq := World.quiet_exec (P := P) w (show ¬ (Op.readAsBytes source).Mutates from id) none
    exact ⟨h.quiet hq, ho.2 source b rfl hb⟩

/-! ### The files of the entry -/

/-- Unless it has been deleted, a file of the entry is there. -/
def Has (P : Platform) (n : ℕ) (k : Key) (c : Bytes) (w : World) : Prop :=
  Undeleted P (P.uuid n) w → w.fs.files k = some c

theorem Has.mono {k : Key} {c : Bytes} (h : Has P n k c w)
    (ha : ∀ a ∈ w.record.answers, a ∈ w'.record.answers) (hf : w'.fs.files k = w.fs.files k) :
    Has P n k c w' := by
  intro hid
  exact hf.trans (h fun f hd => hid f (ha _ hd))

theorem lasts_has {J : World → Prop} {k : Key} (hk : HalfOf P (P.uuid n) k) (c : Bytes)
    (hn : γ.own = some n) : Lasts ((living P K z Seen i).fixed γ) J (Has P n k c) where
  rely w w' _ h hr hid := by
    obtain ⟨hd, hm⟩ := hr.files n hn hid
    have hsame : w'.fs.files k = w.fs.files k := by
      rcases hk with rfl | rfl
      · exact hm
      · exact hd
    exact hsame.trans (h (hr.toPersists.undeleted hid))
  quiet w w' _ h hq := by
    refine h.mono (fun a ha => ?_) (congrFun hq.files k)
    obtain ⟨l, hl, -⟩ := hq.answers
    rw [hl]
    exact List.mem_append_right _ ha

/-- A call that changes at most a file of the import's own entry, or a file outside the vault. -/
theorem importing_exec (hn : γ.own = some n) (h : Importing K z i source sk kek γ w) {op : Op}
    {o : Outcome op} (hstorage : (w.exec P op o).2.storage = w.storage)
    (hfiles : ∀ k, k.dir = vaultDir P → ¬ HalfOf P (P.uuid n) k →
      (w.exec P op o).2.fs.files k = w.fs.files k) :
    Guarantee P K z Seen i γ γ w (w.exec P op o).2 ∧
      Importing K z i source sk kek γ (w.exec P op o).2 := by
  have hg : Guarantee P K z Seen i γ γ w (w.exec P op o).2 := by
    refine guarantee_exec h.held (keyStored_of_eq hstorage) fun id _ hne => ?_
    have hsame (k : Key) (hk : HalfOf P id k) : (w.exec P op o).2.fs.files k = w.fs.files k := by
      refine hfiles k ?_ fun hown => hne n hn (HalfOf.eq hk hown)
      rcases hk with rfl | rfl <;> rfl
    exact ⟨fun _ => ⟨hsame _ (.inr rfl), hsame _ (.inl rfl)⟩, fun k hk => .inl (hsame k hk)⟩
  have hheap := (World.outside_exec P w op o).heap
  exact ⟨hg, hg.zone.trans h.zone, hg.key, fun r hr => (congrFun hheap r).trans (h.key r hr),
    Fs.resolve_mono hg.dirs h.source⟩

theorem files_write_of_ne {f : File} {k k' : Key} (hf : w.fs.resolve f = some k) (hne : k' ≠ k)
    (b : Bytes) (o : WriteOutcome) :
    (w.exec P (.writeAsBytes f b) o).2.fs.files k' = w.fs.files k' := by
  change (w.fs.onWrite f b o).2.files k' = w.fs.files k'
  rcases Fs.onWrite_files w.fs f b o with hs | ⟨-, k₁, s, hk₁, -, hs⟩
  · rw [hs]
  · obtain rfl : k = k₁ := Option.some.inj (hf.symm.trans hk₁)
    rw [hs, Function.update_of_ne hne]

/-- A file of the entry is written, or in part, or the call throws. -/
theorem writeOwn_wp (hn : γ.own = some n) {f : File} {k : Key}
    (hf : ∀ fs : Fs, fs.resolve f = some k) (hk : HalfOf P (P.uuid n) k)
    (hdir : k.dir = vaultDir P) {T : World → Prop}
    (hT : Lasts ((living P K z Seen i).fixed γ) (Importing K z i source sk kek γ) T) {b : Bytes}
    (hTw : ∀ w o, T w → T (w.exec P (.writeAsBytes f b) o).2)
    (hw : Importing K z i source sk kek γ w) (hd : w.fs.dirs (vaultDir P) = true) (hTw₀ : T w) :
    (call (.writeAsBytes f b)).wp ((living P K z Seen i).fixed γ)
      (fun r w' => Importing K z i source sk kek γ w' ∧ T w' ∧ w'.fs.dirs (vaultDir P) = true ∧
        (r = .ok () → Has P n k b w')) w := by
  have hJ : Firm ((living P K z Seen i).fixed γ) (Importing K z i source sk kek γ) True :=
    firm_importing
  rw [wp_call]
  intro w₁ h₁ o _
  have hw₁ := hJ.rely _ _ hw h₁
  have hd₁ := hJ.dirs _ _ hw h₁ _ hd
  have hTw₁ := hT.rely _ _ hw hTw₀ h₁
  have hothers (k' : Key) (_ : k'.dir = vaultDir P) (hk' : ¬ HalfOf P (P.uuid n) k') :
      (w₁.exec P (.writeAsBytes f b) o).2.fs.files k' = w₁.fs.files k' := by
    refine files_write_of_ne (hf _) ?_ b o
    rintro rfl
    exact hk' hk
  obtain ⟨hg, hw₂⟩ := importing_exec hn hw₁ rfl hothers
  have hTw₂ := hTw w₁ o hTw₁
  refine ⟨hg, fun w₃ h₃ _ => ⟨hJ.rely _ _ hw₂ h₃, hT.rely _ _ hw₂ hTw₂ h₃,
    hJ.dirs _ _ hw₂ h₃ _ (World.dirs_exec _ _ _ _ hd₁), fun hok => ?_⟩⟩
  have hhas : Has P n k b (w₁.exec P (.writeAsBytes f b) o).2 := by
    intro _
    have hends := (Fs.onWrite_of_resolve (hf w₁.fs) (hdir ▸ hd₁) b o).2
    rcases hends with ⟨-, -, hfiles⟩ | ⟨e, hr, -⟩
    · exact (congrFun hfiles k).trans (Function.update_self ..)
    · cases hr.symm.trans hok
  exact (lasts_has hk b hn).rely _ _ hw₂ hhas h₃

/-- The two files of the entry. -/
structure Filed (P : Platform) (z : Zone) (n : ℕ) (m : VaultFileMeta) (cipher : Bytes) (w : World) :
    Prop where
  data : Has P n (dataKey P (P.uuid n)) cipher w
  text : Has P n (metaKey P (P.uuid n)) (metaBytes z m) w

theorem writeEntry_life (hn : γ.own = some n) {cipher : Bytes}
    (hw : Importing K z i source sk kek γ w) (hd : w.fs.dirs (vaultDir P) = true) :
    (VaultRepository.writeEntry m cipher (dataFileOf (vaultDir P) (P.uuid n))
      (metaFileOf (vaultDir P) (P.uuid n))).wp ((living P K z Seen i).fixed γ)
      (fun r w' => Importing K z i source sk kek γ w' ∧ (r = .ok () → Filed P z n m cipher w')) w := by
  have hplain := (P.uuid_plain n).1
  have hdata (fs : Fs) := resolve_data (P := P) fs hplain
  have hmeta (fs : Fs) := resolve_meta (P := P) fs hplain
  unfold VaultRepository.writeEntry
  rw [wp_bind]
  refine wp_mono _ ?_ (writeOwn_wp hn hdata (.inr rfl) rfl (lasts_const True) (fun _ _ h => h) hw hd
    trivial)
  rintro (e | u) w₁ ⟨hw₁, -, hd₁, hok₁⟩
  · exact ⟨hw₁, nofun⟩
  have hhas := hok₁ rfl
  dsimp only
  rw [wp_bind, wp_get]
  dsimp only
  rw [hw₁.zone]
  refine wp_mono _ ?_ (writeOwn_wp hn hmeta (.inl rfl) rfl (lasts_has (.inr rfl) cipher hn) ?_
    hw₁ hd₁ hhas)
  · rintro r w₂ ⟨hw₂, hhas₂, -, hok₂⟩
    exact ⟨hw₂, fun hr => ⟨hhas₂, hok₂ hr⟩⟩
  · intro w o h
    refine h.mono (fun a ha => ?_) (files_write_of_ne (hmeta _) (dataKey_ne_metaKey _ _) _ o)
    rw [World.answers_exec]
    exact List.mem_cons_of_mem _ ha

/-- **The removal of the source** leaves the vault alone. -/
theorem deleteSource_life (hn : γ.own = some n) (hsk : sk.dir ≠ vaultDir P) {cipher : Bytes} :
    (VaultRepository.deleteSource source).Keeps ((living P K z Seen i).fixed γ)
      (fun w => Importing K z i source sk kek γ w ∧ Filed P z n m cipher w) := by
  have hJ : Firm ((living P K z Seen i).fixed γ) (fun w => Importing K z i source sk kek γ w ∧
      Filed P z n m cipher w) True := by
    have hdata : Lasts ((living P K z Seen i).fixed γ) (Importing K z i source sk kek γ)
        (Has P n (dataKey P (P.uuid n)) cipher) := lasts_has (.inr rfl) _ hn
    have htext : Lasts ((living P K z Seen i).fixed γ) (Importing K z i source sk kek γ)
        (Has P n (metaKey P (P.uuid n)) (metaBytes z m)) := lasts_has (.inl rfl) _ hn
    exact firm_importing.and ⟨fun w w' h hf hr => ⟨hdata.rely _ _ h hf.data hr,
      htext.rely _ _ h hf.text hr⟩, fun w w' h hf hq => ⟨hdata.quiet _ _ h hf.data hq,
      htext.quiet _ _ h hf.text hq⟩⟩
  refine Within.keeps (VaultRepository.within_deleteSource (G := fun _ _ => False)
    (removingFile_removesSource source)) hJ.rely (fun _ _ _ h => h.elim) fun op hop w o h _ => ?_
  have hfiles (k : Key) (hk : k.dir = vaultDir P) :
      (w.exec P op o).2.fs.files k = w.fs.files k := by
    refine files_exec_removesSource hop h.1.source ?_ ?_ o
    · rintro rfl
      exact hsk hk
    · rintro now rfl
      exact hsk hk
  have hstorage : (w.exec P op o).2.storage = w.storage := by
    by_cases hm : op.Mutates
    · cases op <;> first | rfl | exact absurd hm hop
    · exact (World.quiet_exec w hm o).storage
  obtain ⟨hg, hw'⟩ := importing_exec hn h.1 hstorage fun k hk _ => hfiles k hk
  exact ⟨hg, hw', h.2.data.mono hg.answers (hfiles _ rfl), h.2.text.mono hg.answers (hfiles _ rfl)⟩

theorem cleanUp_life (hn : γ.own = some n) :
    (VaultRepository.cleanUp (dataFileOf (vaultDir P) (P.uuid n))
      (metaFileOf (vaultDir P) (P.uuid n))).Keeps ((living P K z Seen i).fixed γ)
      (Importing K z i source sk kek γ) := by
  have hplain := (P.uuid_plain n).1
  have hJ : Firm ((living P K z Seen i).fixed γ) (Importing K z i source sk kek γ) True :=
    firm_importing
  have hlook (f : File) : (call (.fileExists f)).Keeps ((living P K z Seen i).fixed γ)
      (Importing K z i source sk kek γ) :=
    Within.keeps (A := fun op => op = .fileExists f) (G := fun _ _ => False) (within_call.mpr rfl)
      hJ.rely (fun _ _ _ h => h.elim) (by
        rintro _ rfl w o h -
        have hop : ¬ Op.Mutates (.fileExists f) := id
        exact hJ.quiet _ _ h (World.quiet_exec w hop o))
  have hdelete {f : File} {k : Key} (hf : ∀ fs : Fs, fs.resolve f = some k)
      (hk : HalfOf P (P.uuid n) k) (b : Bool) : (when b (call (.delete f))).Keeps
      ((living P K z Seen i).fixed γ) (Importing K z i source sk kek γ) := by
    refine Within.keeps (A := fun op => op = .delete f) (G := fun _ _ => False)
      (within_when (within_call.mpr rfl)) hJ.rely (fun _ _ _ h => h.elim) ?_
    rintro _ rfl w o h -
    refine importing_exec hn h rfl fun k' _ hk' => files_delete_of_ne (hf _) ?_ o
    rintro rfl
    exact hk' hk
  refine Keeps.tryCatch ?_ fun _ => Keeps.ret ()
  refine Keeps.bind (hlook _) fun _ => Keeps.bind (hdelete (fun fs => resolve_data fs hplain)
    (.inr rfl) _) fun _ => Keeps.bind (hlook _) fun _ => ?_
  exact hdelete (fun fs => resolve_meta fs hplain) (.inl rfl) _

theorem moveSource_life (hn : γ.own = some n) (hsk : sk.dir ≠ vaultDir P) {cipher : Bytes}
    (hw : Importing K z i source sk kek γ w) (hf : Filed P z n m cipher w) :
    (VaultRepository.moveSource source (dataFileOf (vaultDir P) (P.uuid n))
      (metaFileOf (vaultDir P) (P.uuid n))).wp ((living P K z Seen i).fixed γ)
      (fun r w' => Importing K z i source sk kek γ w' ∧ (r = .ok () → Filed P z n m cipher w')) w := by
  unfold VaultRepository.moveSource
  rw [wp_tryCatch]
  refine wp_mono _ ?_ (deleteSource_life hn hsk w ⟨hw, hf⟩)
  rintro (e | u) w₁ ⟨hw₁, hf₁⟩
  · dsimp only
    rw [wp_bind]
    refine wp_mono _ ?_ (cleanUp_life hn w₁ hw₁)
    rintro (e' | u) w₂ hw₂ <;> exact ⟨hw₂, nofun⟩
  · exact ⟨hw₁, fun _ => hf₁⟩

/-- What an import knows when it ends. -/
def Imported (P : Platform) (K : Option Bytes) (z : Zone) (Seen : File → Bytes → Prop) (i : ℕ)
    (source : File) (sk : Key) (kek : Bytes) (r : Ref) (x : Except DartError VaultFileMeta)
    (γ : Hold) (w : World) : Prop :=
  γ.key = some r ∧ Importing K z i source sk kek γ w ∧ ∀ m, x = .ok m →
    ∃ n, γ.own = some n ∧ Stored P K z Seen n source m w

/-- **An import** beside the others ends with its key, and with an entry if it returns. -/
theorem importFile_life (haes : ∀ kek ∈ K, P.aes.Correct) (hsk : sk.dir ≠ vaultDir P) {mimeType : Text}
    {moveFile : Bool} (hw : Importing K z i source sk kek ⟨some r, none⟩ w) :
    (VaultRepository.importFile P source mimeType r moveFile).gwp (living P K z Seen i)
      (Imported P K z Seen i source sk kek r) ⟨some r, none⟩ w := by
  have hname : VaultRepository.originalName source ≠ [] := by
    obtain ⟨he, hne⟩ := VaultRepository.originalName_of_resolve hw.source
    rwa [he]
  have hfails {γ : Hold} (hkey : γ.key = some r) (e : DartError) {w' : World}
      (h : Importing K z i source sk kek γ w') :
      Imported P K z Seen i source sk kek r (.error e) γ w' := by
    refine ⟨hkey, h, fun m hm => ?_⟩
    cases hm
  refine VaultRepository.importFile_company preparing_life hname hw
    (fun e w' h _ => hfails rfl e h) (fun n e w' h _ => hfails rfl e h)
    (fun n b e w' h _ => hfails rfl e h.1) ?_
  rintro n b m cipher w₁ ⟨hw₁, hseen⟩ hd - hmid - - hentry
  have hown : (⟨some r, some n⟩ : Hold).own = some n := rfl
  -- from the drawing of the identifier to the end the thread owns one entry
  refine gwp_of_wp (R := fun x w' => Importing K z i source sk kek ⟨some r, some n⟩ w' ∧
    ∀ m', x = .ok m' → m' = m ∧ Filed P z n m cipher w') ?_ ?_
  · rw [wp_bind]
    refine wp_mono _ ?_ (writeEntry_life hown hw₁ hd)
    rintro (e | u) w₂ ⟨hw₂, hf₂⟩
    · exact ⟨hw₂, fun _ hm => by cases hm⟩
    dsimp only
    rw [wp_bind, wp_when]
    refine ⟨fun _ => ?_, fun _ => ⟨hw₂, fun m' hm' => ⟨(Except.ok.inj hm').symm, hf₂ rfl⟩⟩⟩
    refine wp_mono _ ?_ (moveSource_life hown hsk hw₂ (hf₂ rfl))
    rintro (e | u) w₃ ⟨hw₃, hf₃⟩
    · exact ⟨hw₃, fun _ hm => by cases hm⟩
    · exact ⟨hw₃, fun m' hm' => ⟨(Except.ok.inj hm').symm, hf₃ rfl⟩⟩
  · rintro x w' ⟨hw', hx⟩
    refine ⟨rfl, hw', fun m' hm' => ⟨n, rfl, ?_⟩⟩
    obtain ⟨rfl, hf⟩ := hx m' hm'
    refine ⟨b, cipher, hmid, hseen, fun known hk => ?_, fun hid => ⟨hf.data hid, hf.text hid⟩⟩
    obtain rfl : kek = known := (hw'.key r rfl).symm.trans ((hw'.held r rfl).1 known hk)
    exact hentry (haes kek hk)

/-- Leaving a stretch is no business of other threads. -/
theorem mem_left {marks : List (ℕ × Stretch)} {t : Stretch} {j : ℕ} (hj : j ≠ i) (s : Stretch) :
    (j, s) ∈ marks.erase (i, t) ↔ (j, s) ∈ marks :=
  List.mem_erase_of_ne fun he => hj (congrArg Prod.fst he)

/-- The thread of an import. -/
theorem importHolding_life (haes : ∀ kek ∈ K, P.aes.Correct) (hsk : sk.dir ≠ vaultDir P)
    {mimeType : Text} {moveFile : Bool} {gs : ℕ → Hold} (hw : Alive P K z Seen gs w)
    (hs : w.fs.resolve source = some sk) :
    (importHolding P i source mimeType moveFile).gwp (living P K z Seen i) (fun _ _ _ => True)
      Hold.nothing w := by
  change (match LockManager.kek w with
    | none => return ()
    | some kek => do
      Program.modify (World.entered (i, .batch))
      Program.handle (VaultRepository.importFile P source mimeType kek moveFile) fun r =>
        Program.modify fun w => World.left (i, .batch) (World.imported source r w) : App Unit).gwp
      _ _ _ w
  -- without an open session nothing happens
  rcases hk : LockManager.kek w with - | r
  · trivial
  obtain ⟨hkek, hlt⟩ := hw.session r (AuthService.kek_eq_some.mp hk).2
  dsimp only
  rw [gwp_bind, gwp_modify]
  have hheld : Held K i ⟨some r, none⟩ (World.entered (i, .batch) w) := by
    rintro _ ⟨⟩
    exact ⟨hkek, hlt, List.mem_cons_self⟩
  refine ⟨⟨some r, none⟩, ?_, ?_⟩
  · refine ⟨⟨rfl, id, fun _ => id, le_rfl, le_rfl, fun _ => id⟩, fun _ _ _ _ => rfl, id,
      fun j hj s => ?_, hheld, .inl rfl, fun _ _ _ => spares_of_files rfl,
      fun _ _ _ => fades_of_files rfl, .inl rfl⟩
    refine List.mem_cons.trans (or_iff_right fun he => hj (congrArg Prod.fst he))
  dsimp only
  rw [gwp_handle]
  have himporting : Importing K z i source sk (w.heap r) ⟨some r, none⟩
      (World.entered (i, .batch) w) := by
    refine ⟨hw.zone, hheld, ?_, hs⟩
    rintro _ ⟨⟩
    rfl
  refine gwp_mono _ ?_ (importFile_life haes hsk himporting)
  rintro x γ w₁ ⟨-, -, hx⟩
  rw [gwp_modify]
  refine ⟨Hold.nothing, ?_, trivial⟩
  cases x with
  | error e =>
    exact ⟨⟨rfl, id, fun _ => id, le_rfl, le_rfl, fun _ => id⟩, fun _ _ _ _ => rfl, id,
      fun j hj s => mem_left hj s, held_nothing, .inr (.inl rfl),
      fun _ _ _ => spares_of_files rfl, fun _ _ _ => fades_of_files rfl, .inl rfl⟩
  | ok m =>
    -- the end is recorded, and the entry is nobody's own any more
    obtain ⟨n, hn, hstored⟩ := hx m rfl
    exact ⟨⟨rfl, id, fun _ => id, le_rfl, le_rfl, fun _ => id⟩, fun _ _ _ _ => rfl, id,
      fun j hj s => mem_left hj s, held_nothing, .inr (.inl rfl),
      fun _ _ _ => spares_of_files rfl, fun _ _ _ => fades_of_files rfl,
      .inr ⟨n, source, m, rfl, hn, rfl, hstored⟩⟩

end Importing

/-! ## Runs -/

section Sound

variable {K : Option Bytes} {z : Zone} {Seen : File → Bytes → Prop} {w₀ : World}

/-- A thread that holds nothing meets what is asked of it. -/
theorem gwp_of_keeps {p : App Unit} {w : World} {i : ℕ}
    (hp : p.Keeps (idly P K z Seen i) (KeyStored K)) (hw : KeyStored K w) :
    p.gwp (living P K z Seen i) (fun _ _ _ => True) Hold.nothing w :=
  gwp_of_wp (hp w hw) fun _ _ _ => trivial

theorem sound_life (haes : ∀ kek ∈ K, P.aes.Correct) (hK : ∀ kek ∈ K, kek.length = 32)
    {H : World → Prop} (hH : ∀ w, H w → ∀ f b, w.fs.read f = some b → Seen f b) :
    ((life P).during H).GhostSound (fun i _ => living P K z Seen i) Hold.nothing
      (Alive P K z Seen) fun _ _ _ _ => True where
  allow _ _ _ w _ _ _ h := ⟨h.2, fun f b _ hb => hH w h.1 f b hb⟩
  deliver _ _ _ _ _ _ _ h := h
  rely_refl i _ γ w := .refl i γ w
  rely_trans _ _ _ _ _ _ h h' := h.trans h'
  compat _ _ _ _ _ _ _ _ hij h hg := h.compat hg hij
  inv _ _ _ _ _ _ h hg := h.step hg
  start i a gs w _ h ha := by
    have hmodify {f : World → World} (hb : Beside w (f w)) : (Program.modify f : App Unit).gwp
        (living P K z Seen i) (fun _ _ _ => True) Hold.nothing w :=
      ⟨Hold.nothing, guarantee_beside held_nothing hb, trivial⟩
    cases a with
    | main => exact gwp_of_keeps (main_keeps hK) h.storage
    | unlock => exact gwp_of_keeps (Keeps.bind (unlock_keeps hK) fun _ => Keeps.ret _) h.storage
    | lock => exact ⟨Hold.nothing, guarantee_locked ha, trivial⟩
    | extendSession =>
      refine hmodify ?_
      unfold AuthService.extended
      split <;> constructor <;> rfl
    | importFile source mimeType moveFile =>
      obtain ⟨sk, hs, hsk⟩ := ha
      exact importHolding_life haes hsk h hs
    | exportClear id => exact gwp_of_keeps (exportHolding_keeps id) h.storage
    | deleteById id => exact gwp_of_keeps (deleteById_keeps id) h.storage
    | listAll => exact gwp_of_keeps (Keeps.bind listAll_keeps fun _ => Keeps.ret _) h.storage
    | tick now =>
      refine hmodify ?_
      constructor <;> rfl
  post _ _ _ _ _ _ _ := trivial
  crash _ _ w' h hw := by
    obtain rfl : w' = restarted _ := hw
    exact h.restarted

/-- The process starts without a key in memory. -/
theorem alive_start (hkey : KeyStored K w₀) (hclosed : w₀.auth._kek = none)
    (himports : w₀.record.imports = []) : Alive P K w₀.zone Seen (fun _ => Hold.nothing) w₀ where
  zone := rfl
  storage := hkey
  session r hr := by cases hclosed.symm.trans hr
  held _ _ hr := nomatch hr
  drawn _ _ hn := nomatch hn
  distinct _ _ _ hn := nomatch hn
  stored source m hm := by
    rw [himports] at hm
    cases hm

/-- What has been recorded stays so. -/
theorem Guarantee.imported {γ γ' : Hold} {w w' : World} {i : ℕ} {x : File × VaultFileMeta}
    (hg : Guarantee P K z Seen i γ γ' w w') (hx : x ∈ w.record.imports) :
    x ∈ w'.record.imports := by
  rcases hg.imports with hr | ⟨n, source, m, hr, -⟩
  · exact hr ▸ hx
  · rw [hr]
    exact List.mem_cons_of_mem _ hx

/-- What has been recorded, with the files of its entry. -/
structure Pinned (P : Platform) (n : ℕ) (source : File) (m : VaultFileMeta) (cipher text : Bytes)
    (w : World) : Prop where
  imported : (source, m) ∈ w.record.imports
  data : Has P n (dataKey P (P.uuid n)) cipher w
  text : Has P n (metaKey P (P.uuid n)) text w

/-- An entry that has been recorded is nobody's own any more. -/
theorem fades_step {gs : ℕ → Hold} {γ' : Hold} {w w' : World} {j : ℕ} {source : File}
    {m : VaultFileMeta} (h : Alive P K z Seen gs w) (hg : Guarantee P K z Seen j (gs j) γ' w w')
    (hm : (source, m) ∈ w.record.imports) : Fades P m.id w w' := by
  obtain ⟨n, hlt, hfree, b, c, hid, -⟩ := h.stored source m hm
  rw [hid]
  exact hg.fades _ (P.uuid_plain n).1 (hg.ne_own hlt (hfree j))

theorem Pinned.step {gs : ℕ → Hold} {γ' : Hold} {w w' : World} {j n : ℕ} {source : File}
    {m : VaultFileMeta} {cipher text : Bytes} (hid : m.id = P.uuid n) (h : Alive P K z Seen gs w)
    (hg : Guarantee P K z Seen j (gs j) γ' w w') (hp : Pinned P n source m cipher text w) :
    Pinned P n source m cipher text w' := by
  have hspares : Spares P (P.uuid n) w w' := by
    obtain ⟨n', hlt, hfree, b, c, hid', -⟩ := h.stored source m hp.imported
    obtain rfl : n = n' := P.uuid_injective (hid.symm.trans hid')
    exact hg.files _ (P.uuid_plain n).1 (hg.ne_own hlt (hfree j))
  refine ⟨hg.imported hp.imported, fun hu => ?_, fun hu => ?_⟩
  · exact (hspares hu).1.trans (hp.data (hg.toPersists.undeleted hu))
  · exact (hspares hu).2.trans (hp.text (hg.toPersists.undeleted hu))

end Sound

end Life

open Life

section Exports

variable {K : Option Bytes} {kek : Bytes} {w₀ : World} {source : File} {m : VaultFileMeta}

/-- The threads of a run that starts with a closed session. -/
theorem ok_of_steps {Seen : File → Bytes → Prop} {H : World → Prop}
    (haes : ∀ kek ∈ K, P.aes.Correct) (hK : ∀ kek ∈ K, kek.length = 32) (hkey : KeyStored K w₀)
    (hclosed : w₀.auth._kek = none) (himports : w₀.record.imports = [])
    (hH : ∀ w, H w → ∀ f b, w.fs.read f = some b → Seen f b) {c : ((life P).during H).Config}
    (hc : System.Reachable _ w₀ c) : ∃ gs, System.GhostOk (fun i _ => living P K w₀.zone Seen i)
      Hold.nothing (Alive P K w₀.zone Seen) (fun _ _ _ _ => True) gs c :=
  (sound_life haes hK hH).reachable (alive_start hkey hclosed himports) hc

/-- A run is one in which every world may be looked at. -/
theorem steps_anywhere {c₁ c₂ : (life P).Config} (h : (life P).Steps c₁ c₂) :
    ((life P).during fun _ => True).Steps (c₁.during _) (c₂.during _) :=
  System.steps_during h fun _ _ _ => trivial

/-- **What an import has returned can be exported** in every later session, with the contents that
its source had at a moment before the import returned, as long as its entry has not been deleted. -/
theorem imported_exports (haes : P.aes.Correct) (hK : kek.length = 32)
    (hkey : w₀.storage = some (Base64.encode kek)) (hclosed : w₀.auth._kek = none)
    (himports : w₀.record.imports = []) {c : (life P).Config} (hc : System.Reachable _ w₀ c)
    (hm : (source, m) ∈ c.world.record.imports) :
    ∃ b c₁, System.Reachable _ w₀ c₁ ∧ System.Steps _ c₁ c ∧ c₁.world.fs.read source = some b ∧
      ∀ c', System.Steps _ c c' → Undeleted P m.id c'.world →
        ∀ r, LockManager.kek c'.world = some r → c'.world.heap r = kek ∧
          (VaultRepository.exportClear P m.id r).Returns (faultless P) c'.world b := by
  have hstored : KeyStored (some kek) w₀ := by
    rintro _ ⟨⟩
    exact hkey
  have hlength : ∀ kek' ∈ some kek, kek'.length = 32 := by
    rintro _ ⟨⟩
    exact hK
  -- up to the result every reading took place in a world of the run
  let H (w : World) : Prop := ∃ c₁, System.Reachable _ w₀ c₁ ∧ (life P).Steps c₁ c ∧ c₁.world = w
  have hrun := System.steps_during (H := H) hc fun c₁ h₁ h₂ => ⟨c₁, h₁, h₂, rfl⟩
  have hH : ∀ w, H w → ∀ f b, w.fs.read f = some b → ∃ w, H w ∧ w.fs.read f = some b :=
    fun w hw f b hb => ⟨w, hw, hb⟩
  obtain ⟨gs, hok⟩ := ok_of_steps (fun _ _ => haes) hlength hstored hclosed himports hH hrun
  obtain ⟨n, -, -, b, cipher, hid, ⟨_, ⟨c₁, h₁, h₂, rfl⟩, hb⟩, hE, hfiles⟩ :=
    hok.inv.stored source m hm
  refine ⟨b, c₁, h₁, h₂, hb, fun c' hc' hundeleted r hr => ?_⟩
  rw [hid] at hundeleted ⊢
  -- from the result on nobody but a deletion changes the entry
  have hall : ∀ w : World, True → ∀ f b, w.fs.read f = some b → True := fun _ _ _ _ _ => trivial
  have hany {c : (life P).Config} (h : System.Reachable _ w₀ c) :=
    ok_of_steps (fun _ _ => haes) hlength hstored hclosed himports hall (steps_anywhere h)
  obtain ⟨gs₁, hok₁⟩ := hany hc
  obtain ⟨gs₂, hok₂⟩ := hany (hc.trans hc')
  have hpin : Pinned P n source m cipher (metaBytes w₀.zone m) c'.world :=
    (sound_life (fun _ _ => haes) hlength hall).keeps hok₁ (steps_anywhere hc')
      (K := Pinned P n source m cipher _)
      (fun j _ gs γ' w w' h hg hp => hp.step hid h hg)
      (fun gs w w' _ hw hp => by
        obtain rfl : w' = restarted w := hw
        exact ⟨hp.imported, hp.data, hp.text⟩)
      ⟨hm, fun hu => (hfiles hu).1, fun hu => (hfiles hu).2⟩
  have hheap : c'.world.heap r = kek :=
    (hok₂.inv.session r (AuthService.kek_eq_some.mp hr).2).1 kek rfl
  have hzone : c'.world.zone = w₀.zone := hok₂.inv.zone
  refine ⟨hheap, VaultRepository.exportClear_returns (by rw [hheap, hK]) (P.uuid_plain n).1
    (P.uuid_plain n).2 ?_⟩
  rw [hheap, hzone]
  exact ⟨m, cipher, hE kek rfl, hpin.text hundeleted, hpin.data hundeleted⟩

/-- **An entry never changes, and never comes back**: once its import has returned, each of its
files is as it was at any earlier moment since, or it is gone for good. -/
theorem entries_only_vanish (hclosed : w₀.auth._kek = none) (himports : w₀.record.imports = [])
    {c : (life P).Config} (hc : System.Reachable _ w₀ c)
    (hm : (source, m) ∈ c.world.record.imports) {c₁ c₂ : (life P).Config}
    (hc₁ : System.Steps _ c c₁) (hc₂ : System.Steps _ c₁ c₂) {k : Key} (hk : HalfOf P m.id k) :
    c₂.world.fs.files k = c₁.world.fs.files k ∨ c₂.world.fs.files k = none := by
  have hall : ∀ w : World, True → ∀ f b, w.fs.read f = some b → True := fun _ _ _ _ _ => trivial
  -- whichever key the device stores
  have hS := sound_life (P := P) (K := none) (z := w₀.zone) nofun nofun hall
  have hany {c : (life P).Config} (h : System.Reachable _ w₀ c) :=
    ok_of_steps (K := none) nofun nofun nofun hclosed himports hall (steps_anywhere h)
  -- the result stays in the record
  obtain ⟨gs, hok⟩ := hany hc
  have hm₁ : (source, m) ∈ c₁.world.record.imports :=
    hS.keeps hok (steps_anywhere hc₁) (K := fun w => (source, m) ∈ w.record.imports)
      (fun j _ gs γ' w w' h hg hm => hg.imported hm)
      (fun gs w w' _ hw hm => by
        obtain rfl : w' = restarted w := hw
        exact hm) hm
  obtain ⟨gs₁, hok₁⟩ := hany (hc.trans hc₁)
  let T (w : World) : Prop := Fades P m.id c₁.world w ∧ (source, m) ∈ w.record.imports
  have hfades : T c₂.world :=
    hS.keeps hok₁ (steps_anywhere hc₂) (K := T)
      (fun j _ gs γ' w w' h hg hp => ⟨hp.1.trans (fades_step h hg hp.2), hg.imported hp.2⟩)
      (fun gs w w' _ hw hp => by
        obtain rfl : w' = restarted w := hw
        exact hp)
      ⟨fades_of_files rfl, hm₁⟩
  exact hfades.1 k hk

end Exports

/-! ## Imports in a session -/

/-- A device that stores a key, before the first start. -/
def lockedWorld : World :=
  { World.sample [] [1] with storage := some (Base64.encode (List.replicate 32 2)) }

/-- The application starts, the user is recognised and imports the file. -/
def importedLife (w : World) : (life (.sample .marked)).Config :=
  (life (.sample .marked)).play usual [.main, .unlock, .importFile .sample ['t'] true] 0 (.idle w)

theorem truthful_usual (op : Op) : Truthful op (usual op) := by
  cases op <;> first | exact .inl rfl | trivial

/-- Threads that the others leave alone may run to their ends. -/
theorem steps_life {as : List LifeAction} {i : ℕ} {c : (life (.sample .marked)).Config}
    (hfree : ∀ j, i ≤ j → c.threads j = none)
    (hp : (life (.sample .marked)).Playable usual as i c) :
    System.Steps _ c ((life (.sample .marked)).play usual as i c) :=
  System.steps_play (fun _ => truthful_usual) (fun _ _ _ => trivial) hfree hp

theorem reachable_importedLife : System.Reachable _ lockedWorld (importedLife lockedWorld) := by
  refine steps_life (fun _ _ => rfl) ⟨trivial, trivial, ?_, trivial⟩
  exact ⟨⟨["home".toList], "a".toList⟩, by decide +kernel, by decide⟩

/-- The record of an import of the file, as it is computed. -/
theorem exists_of_imports {c : (life (.sample .marked)).Config}
    (h : c.world.record.imports.map (fun x => (x.1, x.2.id)) = [(File.sample, ['u'])]) :
    ∃ m : VaultFileMeta, m.id = ['u'] ∧ (File.sample, m) ∈ c.world.record.imports := by
  obtain ⟨⟨source, m⟩, hx, he⟩ := List.map_eq_singleton_iff.mp h
  obtain ⟨rfl, hid⟩ := Prod.mk.inj he
  exact ⟨m, hid, by rw [hx]; exact List.mem_singleton.mpr rfl⟩

theorem imported_exports_importedLife : ∃ (m : VaultFileMeta) (b : Bytes)
    (c₁ : (life (.sample .marked)).Config), System.Reachable _ lockedWorld c₁ ∧
      System.Steps _ c₁ (importedLife lockedWorld) ∧ c₁.world.fs.read File.sample = some b ∧
      ∀ c', System.Steps _ (importedLife lockedWorld) c' →
        Undeleted (.sample .marked) m.id c'.world →
        ∀ r, LockManager.kek c'.world = some r → c'.world.heap r = List.replicate 32 2 ∧
          (VaultRepository.exportClear (.sample .marked) m.id r).Returns
            (faultless (.sample .marked)) c'.world b := by
  obtain ⟨m, -, hm⟩ := exists_of_imports (c := importedLife lockedWorld) (by decide +kernel)
  exact ⟨m, imported_exports AesGcm.marked_correct (by decide) rfl rfl rfl
    reachable_importedLife hm⟩

/-- The first session of an installation: nothing is stored before the application starts. -/
def firstWorld : World := World.sample [] [1]

theorem reachable_firstLife : System.Reachable _ firstWorld (importedLife firstWorld) := by
  refine steps_life (fun _ _ => rfl) ⟨trivial, trivial, ?_, trivial⟩
  exact ⟨⟨["home".toList], "a".toList⟩, by decide +kernel, by decide⟩

/-- The entry has been deleted, by a path that leaves the vault and comes back. -/
def deletedLife : (life (.sample .marked)).Config :=
  (life (.sample .marked)).play usual [.deleteById "../vault/u".toList] 3 (importedLife firstWorld)

theorem entries_only_vanish_deletedLife :
    ((importedLife firstWorld).world.fs.files (dataKey (.sample .marked) ['u'])).isSome = true ∧
      deletedLife.world.fs.files (dataKey (.sample .marked) ['u']) = none ∧
        ∀ k, HalfOf (.sample .marked) ['u'] k →
          deletedLife.world.fs.files k = (importedLife firstWorld).world.fs.files k ∨
            deletedLife.world.fs.files k = none := by
  refine ⟨by decide +kernel, by decide +kernel, fun k hk => ?_⟩
  obtain ⟨m, hid, hm⟩ := exists_of_imports (c := importedLife firstWorld) (by decide +kernel)
  have hdeleted : System.Steps _ (importedLife firstWorld) deletedLife := by
    refine steps_life (fun j hj => ?_) ⟨trivial, trivial⟩
    obtain ⟨j, rfl⟩ := Nat.exists_eq_add_of_le hj
    exact (Function.update_of_ne (by omega) ..).trans ((Function.update_of_ne (by omega) ..).trans
      (Function.update_of_ne (by omega) ..))
  exact entries_only_vanish rfl rfl reachable_firstLife hm .refl hdeleted (hid ▸ hk)

end CajaSegura
