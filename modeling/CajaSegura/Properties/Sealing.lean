import CajaSegura.Async.Ghost
import CajaSegura.Async.Rights
import CajaSegura.Main
import CajaSegura.Platform.Sample
import CajaSegura.Properties.Disposal
import Mathlib.Data.Finset.Card

/-!
# What is sealed

The screens are at work while somebody else changes the files of the device, any call may fail and
the process may die. What the cipher has been given, what has been written and what has been shared
follow from who has drawn which random bytes. Which key the device stores may be known (`some key`)
or not (`none`).

## Main definitions

* `sealing`: the runs
* `Use`: an encryption, by the random bytes that it has used up
* `Purse`: the ghost state of a thread, which says what it may still use
* `Sealing.Secured`: the invariant

## Main results

* `Sealing.Secured.step`: the invariant is kept by every step of a thread
* `Sealing.Accounts.nonces`, `Sealing.Accounts.keys`: nonces and drawn keys are used once
* `Sealing.Accounts.imported_of_unseals`: what opens under the stored key has been imported
-/

namespace CajaSegura

open Codec Async
open Program hiding bind

variable {P : Platform}

/-! ## The runs -/

/-- Somebody else has changed the files or the time zone. -/
def tampered (fs : Fs) (zone : Zone) (w : World) : World := { w with fs := fs, zone := zone }

/-- What happens to the application, and to what somebody else can change. -/
inductive SealAction
  | main
  | enterHome
  | enterSettings
  | screen (a : ScreenAction)
  | tamper (fs : Fs) (zone : Zone)

def SealAction.program (P : Platform) (self : ℕ) : SealAction → App Unit
  | .main => CajaSegura.main P
  | .enterHome => HomeScreen.initState P self
  | .enterSettings => SettingsScreen.initState self
  | .screen a => a.program P self
  | .tamper fs zone => Program.modify (tampered fs zone)

/-- The exports of the home screen that have been called, and those that have ended. -/
def calledExports (w : World) : ℕ :=
  w.record.calls.countP fun c => c.name = "exportClear".toList

def endedExports (w : World) : ℕ := w.record.replies.countP fun r => r.call = .exportClear

/-- Every export that has been called has ended, or no handler is at work that may export. -/
def Unexporting (w : World) : Prop :=
  endedExports w = calledExports w ∨
    ∀ i, (i, .handler) ∈ w.record.running → (i, .batch) ∈ w.record.running

/-- What a lock leaves of a key. -/
def zeroKey : Bytes := List.replicate 32 0

/-- What anybody can know: what a lock leaves of a key, and what has been encrypted under that. -/
def Knowable (log : List Encryption) (key : Bytes) : Prop :=
  key = zeroKey ∨ ∃ nonce, ⟨zeroKey, nonce, key⟩ ∈ log

/-- What has opened under a key has been encrypted under it, or anybody can know the key. -/
def Opened (log : List Encryption) (key clear : Bytes) : Prop :=
  Knowable log key ∨ ∃ nonce, ⟨key, nonce, clear⟩ ∈ log

/-- A box is opened, and nobody has forged it. -/
def Unforged (P : Platform) (w : World) (op : Op) : Prop :=
  ∀ box key clear, op = .decrypt box key → P.aes.decrypt (w.keyBytes key) box = some clear →
    Opened w.record.encryptions (w.keyBytes key) clear

/-- The runs. If they are told the truth, the secure storage does not misreport the key. If they are
guarded, no box is opened that somebody has forged, and the application is not paused while it
exports. -/
def sealing (P : Platform) (told guarded : Prop) : System (device P) where
  Action := SealAction
  program := SealAction.program P
  enabled w a := guarded → a = .screen (.lifecycle true) → Unexporting w
  allow w op o := (told → Truthful op o) ∧ (guarded → Unforged P w op)
  deliver _ _ _ := True
  crash w w' := w' = restarted w

/-! ## Random bytes and what they are used for -/

/-- What a thread may still do with random bytes that it has drawn: encrypt contents under a key,
wrap that key, and encrypt with a nonce. -/
inductive Permit
  | contents (dek : ℕ)
  | wrapping (dek : ℕ)
  | nonce (iv : ℕ)

/-- Where the random bytes begin. -/
def Permit.start : Permit → ℕ
  | contents dek => dek
  | wrapping dek => dek
  | nonce iv => iv

def Permit.length : Permit → ℕ
  | contents _ => 32
  | wrapping _ => 32
  | nonce _ => 12

theorem Permit.length_pos (t : Permit) : 0 < t.length := by
  cases t <;> exact Nat.succ_pos _

/-- An encryption, of contents or of a key under the key `kek`. -/
inductive Use
  | contents (dek iv : ℕ) (b : Bytes)
  | wrapping (kek : Bytes) (dek iv : ℕ)

/-- The random bytes of the nonce. -/
def Use.iv : Use → ℕ
  | contents _ iv _ => iv
  | wrapping _ _ iv => iv

def Use.permits : Use → List Permit
  | contents dek iv _ => [.contents dek, .nonce iv]
  | wrapping _ dek iv => [.wrapping dek, .nonce iv]

theorem Use.nodup_permits (u : Use) : u.permits.Nodup := by
  cases u <;> simp [Use.permits]

def Use.encryption (P : Platform) : Use → Encryption
  | contents dek iv b => ⟨CryptoService.drawn P dek 32, CryptoService.drawn P iv 12, b⟩
  | wrapping kek dek iv => ⟨kek, CryptoService.drawn P iv 12, CryptoService.drawn P dek 32⟩

/-- The box of an encryption as it is stored. -/
def Encryption.box (P : Platform) (e : Encryption) : Bytes :=
  (P.aes.encrypt e.key e.nonce e.clear).concat

/-- What a thread may still use, the buffer from which it exports, and the stretches that it is
in. -/
structure Purse where
  permits : Set Permit
  key : Option Ref
  marks : Stretch → ℕ

def Purse.empty : Purse := ⟨∅, none, fun _ => 0⟩

/-- The exports of the thread that have not ended. -/
def Purse.exports (γ : Purse) : ℕ := if γ.key.isSome then 1 else 0

namespace Sealing

/-- What has opened under a key that has opened under the stored one. -/
def Unseals (log : List Encryption) (key d : Bytes) : Prop :=
  ∃ dek, Opened log key dek ∧ Opened log dek d

/-- The contents of a file that was picked before. -/
def Imported (H : World → Prop) (b : Bytes) : Prop :=
  ∃ w files path, H w ∧ ⟨.pickFiles, .ok (some files)⟩ ∈ w.record.answers ∧ some path ∈ files ∧
    w.fs.read (File.ofPath path) = some b

/-- The first file of those that were picked, as the picture of a background is. -/
def PickedFirst (w : World) (f : File) : Prop :=
  ∃ path files, f = File.ofPath path ∧
    ⟨.pickFiles, .ok (some (some path :: files))⟩ ∈ w.record.answers

/-- What may be written: nothing, the box of an encryption, or metadata with the box of a key. -/
def Written (P : Platform) (log : List Encryption) (b : Bytes) : Prop :=
  b = [] ∨ (∃ e ∈ log, b = e.box P) ∨
    ∃ m z, b = metaBytes z m ∧ ∃ e ∈ log, m.dekWrappedB64 = Base64.encode (e.box P)

section Runs

variable (P) (F : Prop) (K : Option Bytes) (H : World → Prop) (i : ℕ)

/-- Contents have been imported, and keys are wrapped under the known key or what a lock leaves of
it. -/
def Proper : Use → Prop
  | .contents _ _ b => Imported H b
  | .wrapping kek _ _ => ∀ key ∈ K, kek = key ∨ kek = zeroKey

/-- An answered call shares what opens under the known key, writes what may be written, and copies
what has been picked. -/
structure Lawful (w : World) (a : Sigma Outcome) : Prop where
  shared : F → ∀ d name mimeType, a.1 = .shareXFiles d name mimeType →
    ∀ key ∈ K, Unseals w.record.encryptions key d
  written : ∀ f b, a.1 = .writeAsBytes f b → Written P w.record.encryptions b
  copied : ∀ f t, a.1 = .copy f t → PickedFirst w f

/-- A buffer with the known key, or with what a lock leaves of it. -/
def KeyLike (r : Ref) (w : World) : Prop :=
  r < w.allocated ∧ ∀ key ∈ K, w.heap r = key ∨ w.heap r = zeroKey

/-- The thread is in the stretches it knows of, and the buffer from which it exports has the known
key. -/
structure Standing (γ : Purse) (w : World) : Prop where
  marks : ∀ s, w.record.running.count (i, s) = γ.marks s
  key : F → ∀ r, γ.key = some r →
    (∀ key ∈ K, w.heap r = key) ∧ r < w.allocated ∧ γ.marks .handler ≠ 0 ∧ γ.marks .batch = 0

/-- What stays and what grows, whoever takes a step. -/
structure Grows (w w' : World) : Prop where
  storage : KeyStored K w → KeyStored K w'
  drawn : w.drawn ≤ w'.drawn
  allocated : w.allocated ≤ w'.allocated
  keys : ∀ r, KeyLike K r w → KeyLike K r w'
  session : Keyed K w → Keyed K w'
  answers : ∀ a ∈ w.record.answers, a ∈ w'.record.answers
  log : ∀ e ∈ w.record.encryptions, e ∈ w'.record.encryptions

/-- What the other threads may do. -/
structure Rely (γ : Purse) (w w' : World) : Prop extends Grows K w w' where
  heap : F → ∀ r, γ.key = some r → w'.heap r = w.heap r
  marks : ∀ s, w'.record.running.count (i, s) = w.record.running.count (i, s)

/-- Random bytes are drawn, and permits for them are new. -/
structure Drawing (s s' : Set Permit) (w w' : World) : Prop where
  log : w'.record.encryptions = w.record.encryptions
  permits : ∀ t ∈ s', t ∈ s ∨ t.start = w.drawn ∧ t.start + t.length = w'.drawn

/-- An encryption uses up its permits. -/
structure Spending (s s' : Set Permit) (w w' : World) (u : Use) : Prop where
  proper : Proper K H u
  drawn : w'.drawn = w.drawn
  log : w'.record.encryptions = u.encryption P :: w.record.encryptions
  spent : ∀ t ∈ u.permits, t ∈ s
  permits : ∀ t ∈ s', t ∈ s ∧ t ∉ u.permits

/-- What a step of a thread may do. -/
structure Guarantee (γ γ' : Purse) (w w' : World) : Prop extends Grows K w w' where
  heap : F → ¬ Unexporting w → ∀ r < w.allocated, w'.heap r = w.heap r
  others : ∀ j, j ≠ i → ∀ s, w'.record.running.count (j, s) = w.record.running.count (j, s)
  standing : Standing F K i γ' w'
  lawful : ∀ a ∈ w'.record.answers, a ∈ w.record.answers ∨ Lawful P F K w' a
  permits : Drawing γ.permits γ'.permits w w' ∨ ∃ u, Spending P K H γ.permits γ'.permits w w' u
  exports : γ'.exports + endedExports w' + calledExports w ≤
    γ.exports + endedExports w + calledExports w'

def sealer : GhostDiscipline (device P) Purse where
  allow w op o := ((∀ key ∈ K, Truthful op o) ∧ (F → Unforged P w op)) ∧ H w
  deliver _ _ _ := True
  rely := Rely F K i
  guarantee := Guarantee P F K H i

/-- The encryptions of a run since `n` random bytes had been drawn, and the permits that were issued
for them. -/
structure Accounts (n : ℕ) (held : ℕ → Set Permit) (w : World) (issued : Set Permit)
    (uses : List Use) : Prop where
  rights : Rights issued held (uses.flatMap Use.permits)
  drawn : n ≤ w.drawn
  bounds : ∀ t ∈ issued, n ≤ t.start ∧ t.start + t.length ≤ w.drawn
  apart : ∀ t ∈ issued, ∀ u ∈ issued, t.start = u.start ∧ t.length = u.length ∨
    t.start + t.length ≤ u.start ∨ u.start + u.length ≤ t.start
  log : w.record.encryptions = uses.map (Use.encryption P)
  proper : ∀ u ∈ uses, Proper K H u

/-- The invariant. -/
structure Secured (n : ℕ) (gs : ℕ → Purse) (w : World) : Prop where
  storage : KeyStored K w
  session : Keyed K w
  standing : ∀ i, Standing F K i (gs i) w
  lawful : ∀ a ∈ w.record.answers, Lawful P F K w a
  accounts : ∃ issued uses, Accounts P K H n (fun i => (gs i).permits) w issued uses
  exports : ∃ s : Finset ℕ, (∀ i, (gs i).key.isSome → i ∈ s) ∧
    s.card + endedExports w ≤ calledExports w

end Runs

section Together

variable {F : Prop} {K : Option Bytes} {H : World → Prop} {i j n : ℕ} {γ γ' : Purse} {gs : ℕ → Purse}
  {w w' w'' : World} {log log' : List Encryption} {a : Sigma Outcome}

theorem Written.mono (h : ∀ e ∈ log, e ∈ log') {b : Bytes} (hb : Written P log b) :
    Written P log' b := by
  rcases hb with rfl | ⟨e, he, rfl⟩ | ⟨m, z, rfl, e, he, hm⟩
  · exact .inl rfl
  · exact .inr (.inl ⟨e, h e he, rfl⟩)
  · exact .inr (.inr ⟨m, z, rfl, e, h e he, hm⟩)

theorem Opened.mono (h : ∀ e ∈ log, e ∈ log') {key d : Bytes} (hd : Opened log key d) :
    Opened log' key d := by
  rcases hd with (rfl | ⟨nonce, hmem⟩) | ⟨nonce, hmem⟩
  · exact .inl (.inl rfl)
  · exact .inl (.inr ⟨nonce, h _ hmem⟩)
  · exact .inr ⟨nonce, h _ hmem⟩

theorem Unseals.mono (h : ∀ e ∈ log, e ∈ log') {key d : Bytes} (hd : Unseals log key d) :
    Unseals log' key d := by
  obtain ⟨dek, hdek, hd⟩ := hd
  exact ⟨dek, Opened.mono h hdek, Opened.mono h hd⟩

theorem Lawful.mono (hg : Grows K w w') (ha : Lawful P F K w a) : Lawful P F K w' a where
  shared hF d n m hd key hkey := Unseals.mono hg.log (ha.shared hF d n m hd key hkey)
  written f b hb := (ha.written f b hb).mono hg.log
  copied f t hf := by
    obtain ⟨path, files, he, hmem⟩ := ha.copied f t hf
    exact ⟨path, files, he, hg.answers _ hmem⟩

theorem Grows.refl (w : World) : Grows K w w :=
  ⟨id, le_rfl, le_rfl, fun _ => id, id, fun _ => id, fun _ => id⟩

theorem Grows.trans (h : Grows K w w') (h' : Grows K w' w'') : Grows K w w'' where
  storage hk := h'.storage (h.storage hk)
  drawn := h.drawn.trans h'.drawn
  allocated := h.allocated.trans h'.allocated
  keys r hr := h'.keys r (h.keys r hr)
  session hs := h'.session (h.session hs)
  answers a ha := h'.answers a (h.answers a ha)
  log e he := h'.log e (h.log e he)

theorem Rely.refl (i : ℕ) (γ : Purse) (w : World) : Rely F K i γ w w :=
  ⟨.refl w, fun _ _ _ => rfl, fun _ => rfl⟩

theorem Rely.trans (h : Rely F K i γ w w') (h' : Rely F K i γ w' w'') : Rely F K i γ w w'' where
  toGrows := h.toGrows.trans h'.toGrows
  heap hF r hr := (h'.heap hF r hr).trans (h.heap hF r hr)
  marks s := (h'.marks s).trans (h.marks s)

theorem Standing.rely (h : Standing F K i γ w) (hr : Rely F K i γ w w') : Standing F K i γ w' where
  marks s := (hr.marks s).trans (h.marks s)
  key hF r hk := by
    obtain ⟨hK, hlt, hmarks⟩ := h.key hF r hk
    refine ⟨fun key hkey => ?_, hlt.trans_le hr.allocated, hmarks⟩
    exact (hr.heap hF r hk).trans (hK key hkey)

/-- A thread that exports is at work, and in no batch. -/
theorem Standing.exporting (h : Standing F K i γ w) (hF : F) {r : Ref} (hr : γ.key = some r) :
    (i, Stretch.handler) ∈ w.record.running ∧ (i, Stretch.batch) ∉ w.record.running := by
  obtain ⟨-, -, hhandler, hbatch⟩ := h.key hF r hr
  rw [← h.marks] at hhandler hbatch
  exact ⟨List.count_pos_iff.mp (Nat.pos_of_ne_zero hhandler), List.count_eq_zero.mp hbatch⟩

/-- An export is noticed. -/
theorem Secured.not_unexporting (h : Secured P F K H n gs w) (hF : F) {r : Ref}
    (hr : (gs j).key = some r) : ¬ Unexporting w := by
  rintro (hended | hnone)
  · obtain ⟨s, hs, hcard⟩ := h.exports
    have hj : j ∈ s := hs j (by rw [hr]; rfl)
    have hpos := Finset.card_pos.mpr ⟨j, hj⟩
    omega
  · obtain ⟨hhandler, hbatch⟩ := (h.standing j).exporting hF hr
    exact hbatch (hnone j hhandler)

/-- What one thread does the others may rely on. -/
theorem Secured.compat (h : Secured P F K H n gs w) (hg : Guarantee P F K H i (gs i) γ' w w')
    (hij : i ≠ j) : Rely F K j (gs j) w w' where
  toGrows := hg.toGrows
  heap hF r hr := hg.heap hF (h.not_unexporting hF hr) r ((h.standing j).key hF r hr).2.1
  marks := hg.others j (Ne.symm hij)

/-- Random bytes are drawn behind all those that permits are for. -/
theorem Accounts.draw {held : ℕ → Set Permit} {issued : Set Permit} {uses : List Use}
    (h : Accounts P K H n held w issued uses) {s : Set Permit} (hle : w.drawn ≤ w'.drawn)
    (hd : Drawing (held i) s w w') :
    Accounts P K H n (Function.update held i s) w'
      (issued ∪ {t | t.start = w.drawn ∧ t.start + t.length = w'.drawn}) uses where
  rights := by
    refine h.rights.issue (fun t ht hold => ?_) hd.permits
    have hlt := (h.bounds t hold).2
    have hpos := t.length_pos
    have hstart : t.start = w.drawn := ht.1
    omega
  drawn := h.drawn.trans hle
  bounds t ht := by
    rcases ht with ht | ⟨hstart, hend⟩
    · exact ⟨(h.bounds t ht).1, (h.bounds t ht).2.trans hle⟩
    · exact ⟨hstart ▸ h.drawn, hend.le⟩
  apart t ht u hu := by
    rcases ht with ht | ⟨ht, ht'⟩
    · rcases hu with hu | ⟨hu, -⟩
      · exact h.apart t ht u hu
      · exact .inr (.inl ((h.bounds t ht).2.trans hu.ge))
    · rcases hu with hu | ⟨hu, hu'⟩
      · exact .inr (.inr ((h.bounds u hu).2.trans ht.ge))
      · exact .inl ⟨ht.trans hu.symm, by omega⟩
  log := hd.log.trans h.log
  proper := h.proper

theorem Accounts.spend {held : ℕ → Set Permit} {issued : Set Permit} {uses : List Use}
    (h : Accounts P K H n held w issued uses) {s : Set Permit} {u : Use}
    (hs : Spending P K H (held i) s w w' u) :
    Accounts P K H n (Function.update held i s) w' issued (u :: uses) where
  rights := h.rights.spend u.nodup_permits hs.spent hs.permits
  drawn := hs.drawn ▸ h.drawn
  bounds t ht := hs.drawn ▸ h.bounds t ht
  apart := h.apart
  log := by rw [hs.log, h.log, List.map_cons]
  proper v hv := by
    rcases List.mem_cons.mp hv with rfl | hv
    · exact hs.proper
    · exact h.proper v hv

/-- What one thread holds after a step, and the others before. -/
theorem permits_update (gs : ℕ → Purse) (i : ℕ) (γ' : Purse) :
    (fun j => (Function.update gs i γ' j).permits) =
      Function.update (fun j => (gs j).permits) i γ'.permits := by
  funext j
  by_cases hj : j = i
  · subst hj
    simp only [Function.update_self]
  · simp only [Function.update_of_ne hj]

/-- The threads that export, after a step of one. -/
theorem exports_update {s : Finset ℕ} (hs : ∀ j, (gs j).key.isSome → j ∈ s) (i : ℕ) (γ' : Purse) :
    ∃ s' : Finset ℕ, (∀ j, (Function.update gs i γ' j).key.isSome → j ∈ s') ∧
      s'.card + (gs i).exports ≤ s.card + γ'.exports := by
  have hother {s' : Finset ℕ} (hsub : ∀ j ∈ s, j ≠ i → j ∈ s') (hi : γ'.key.isSome → i ∈ s')
      (j : ℕ) (hj : (Function.update gs i γ' j).key.isSome) : j ∈ s' := by
    by_cases hji : j = i
    · subst hji
      rw [Function.update_self] at hj
      exact hi hj
    · rw [Function.update_of_ne hji] at hj
      exact hsub j (hs j hj) hji
  unfold Purse.exports
  by_cases hi : (gs i).key.isSome
  · have hmem := hs i hi
    by_cases hi' : γ'.key.isSome
    · refine ⟨s, hother (fun j hj _ => hj) fun _ => hmem, ?_⟩
      rw [if_pos hi, if_pos hi']
    · refine ⟨s.erase i, hother (fun j hj hji => Finset.mem_erase.mpr ⟨hji, hj⟩)
        fun h => absurd h hi', ?_⟩
      rw [if_pos hi, if_neg hi', Finset.card_erase_add_one hmem, Nat.add_zero]
  · by_cases hi' : γ'.key.isSome
    · refine ⟨insert i s, hother (fun j hj _ => Finset.mem_insert_of_mem hj)
        fun _ => Finset.mem_insert_self i s, ?_⟩
      rw [if_neg hi, if_pos hi']
      exact Finset.card_insert_le i s
    · refine ⟨s, hother (fun j hj _ => hj) fun h => absurd h hi', ?_⟩
      rw [if_neg hi, if_neg hi']

/-- **Every step** of a thread keeps the invariant. -/
theorem Secured.step (h : Secured P F K H n gs w) (hg : Guarantee P F K H i (gs i) γ' w w') :
    Secured P F K H n (Function.update gs i γ') w' where
  storage := hg.storage h.storage
  session := hg.session h.session
  standing j := by
    by_cases hj : j = i
    · subst hj
      rw [Function.update_self]
      exact hg.standing
    · rw [Function.update_of_ne hj]
      exact (h.standing j).rely (h.compat hg (Ne.symm hj))
  lawful a ha := by
    rcases hg.lawful a ha with hold | hnew
    · exact (h.lawful a hold).mono hg.toGrows
    · exact hnew
  accounts := by
    obtain ⟨issued, uses, hacc⟩ := h.accounts
    rw [permits_update]
    rcases hg.permits with hd | ⟨u, hs⟩
    · exact ⟨_, uses, hacc.draw hg.drawn hd⟩
    · exact ⟨issued, u :: uses, hacc.spend hs⟩
  exports := by
    obtain ⟨s, hs, hcard⟩ := h.exports
    obtain ⟨s', hs', hcard'⟩ := exports_update hs i γ'
    refine ⟨s', hs', ?_⟩
    have hbalance := hg.exports
    omega

/-- A restart forgets the threads and the key in memory. -/
theorem Secured.restarted (h : Secured P F K H n gs w) :
    Secured P F K H n (fun _ => Purse.empty) (restarted w) where
  storage := h.storage
  session _ hr := nomatch hr
  standing _ := ⟨fun _ => rfl, fun _ _ hr => nomatch hr⟩
  lawful a ha := ⟨(h.lawful a ha).shared, (h.lawful a ha).written, (h.lawful a ha).copied⟩
  accounts := by
    obtain ⟨issued, uses, hacc⟩ := h.accounts
    exact ⟨issued, uses, hacc.rights.lose fun _ => Set.empty_subset _, hacc.drawn, hacc.bounds,
      hacc.apart, hacc.log, hacc.proper⟩
  exports := by
    obtain ⟨s, -, hcard⟩ := h.exports
    refine ⟨∅, fun _ hi => absurd hi Bool.false_ne_true, ?_⟩
    rw [Finset.card_empty, Nat.zero_add]
    exact (Nat.le_add_left _ _).trans hcard

end Together

/-! ## What the log says -/

section Log

/-- Random bytes drawn in a run do not repeat, and are neither the stored key nor zeros. -/
structure Unrepeated (P : Platform) (K : Bytes) (n m : ℕ) : Prop where
  nonces : ∀ i j, n ≤ i → i + 12 ≤ j → j + 12 ≤ m →
    CryptoService.drawn P i 12 ≠ CryptoService.drawn P j 12
  keys : ∀ i j, n ≤ i → i + 32 ≤ j → j + 32 ≤ m →
    CryptoService.drawn P i 32 ≠ CryptoService.drawn P j 32
  secret : ∀ i, n ≤ i → i + 32 ≤ m →
    CryptoService.drawn P i 32 ≠ K ∧ CryptoService.drawn P i 32 ≠ zeroKey

variable {F : Prop} {K : Bytes} {H : World → Prop} {n : ℕ} {w : World} {held : ℕ → Set Permit}
  {issued : Set Permit} {uses : List Use} {u v : Use}

theorem Accounts.issued_of_mem (h : Accounts P (some K) H n held w issued uses) (hu : u ∈ uses)
    {t : Permit} (ht : t ∈ u.permits) : t ∈ issued :=
  h.rights.spent_issued t (List.mem_flatMap.mpr ⟨u, hu, ht⟩)

/-- Two keys drawn for uses are the same bytes only if they were drawn together. -/
theorem Accounts.dek_eq (h : Accounts P (some K) H n held w issued uses)
    (hr : Unrepeated P K n w.drawn) {t t' : Permit} (ht : t ∈ issued) (ht' : t' ∈ issued) (hl : t.length = 32)
    (hl' : t'.length = 32)
    (he : CryptoService.drawn P t.start 32 = CryptoService.drawn P t'.start 32) :
    t.start = t'.start := by
  have hb := h.bounds t ht
  have hb' := h.bounds t' ht'
  rcases h.apart t ht t' ht' with ⟨hs, -⟩ | hle | hle
  · exact hs
  · exact absurd he (hr.keys _ _ hb.1 (hl ▸ hle) (hl' ▸ hb'.2))
  · exact absurd he.symm (hr.keys _ _ hb'.1 (hl' ▸ hle) (hl ▸ hb.2))

theorem Accounts.dek_secret (h : Accounts P (some K) H n held w issued uses)
    (hr : Unrepeated P K n w.drawn) {t : Permit} (ht : t ∈ issued) (hl : t.length = 32) :
    CryptoService.drawn P t.start 32 ≠ K ∧ CryptoService.drawn P t.start 32 ≠ zeroKey :=
  hr.secret _ (h.bounds t ht).1 (hl ▸ (h.bounds t ht).2)

/-- **No nonce is used twice.** -/
theorem Accounts.nonces (h : Accounts P (some K) H n held w issued uses)
    (hr : Unrepeated P K n w.drawn) : (w.record.encryptions.map Encryption.nonce).Nodup := by
  have hiv (u : Use) : Permit.nonce u.iv ∈ u.permits := by
    cases u <;> simp [Use.permits, Use.iv]
  have hnonce (u : Use) : (u.encryption P).nonce = CryptoService.drawn P u.iv 12 := by
    cases u <;> rfl
  rw [h.log, List.map_map, List.Nodup, List.pairwise_map]
  refine (List.nodup_flatMap.mp h.rights.once).2.imp_of_mem fun {u v} hu hv hd he => ?_
  have hu' := h.issued_of_mem hu (hiv u)
  have hv' := h.issued_of_mem hv (hiv v)
  have he' : CryptoService.drawn P u.iv 12 = CryptoService.drawn P v.iv 12 := by
    rw [← hnonce, ← hnonce]
    exact he
  rcases h.apart _ hu' _ hv' with ⟨hs, -⟩ | hle | hle
  · -- the same random bytes would have been used by both
    have hsame : Permit.nonce u.iv = Permit.nonce v.iv := congrArg _ hs
    exact hd (hiv u) (hsame ▸ hiv v)
  · exact hr.nonces _ _ (h.bounds _ hu').1 hle (h.bounds _ hv').2 he'
  · exact hr.nonces _ _ (h.bounds _ hv').1 hle (h.bounds _ hu').2 he'.symm

/-- **A key that is drawn encrypts once.** -/
theorem Accounts.keys (h : Accounts P (some K) H n held w issued uses) (hr : Unrepeated P K n w.drawn)
    {e e' : Encryption} (he : e ∈ w.record.encryptions) (he' : e' ∈ w.record.encryptions)
    (hkey : e.key = e'.key) : e = e' ∨ e.key = K ∨ e.key = zeroKey := by
  rw [h.log] at he he'
  obtain ⟨u, hu, rfl⟩ := List.mem_map.mp he
  obtain ⟨v, hv, rfl⟩ := List.mem_map.mp he'
  cases u with
  | wrapping kek dek iv => exact .inr (h.proper _ hu K rfl)
  | contents dek iv b =>
    have hdek := h.issued_of_mem hu (t := .contents dek) (by simp [Use.permits])
    cases v with
    | wrapping kek dek' iv' =>
      obtain rfl : CryptoService.drawn P dek 32 = kek := hkey
      exact .inr (h.proper _ hv K rfl)
    | contents dek' iv' b' =>
      have hdek' := h.issued_of_mem hv (t := .contents dek') (by simp [Use.permits])
      obtain rfl : dek = dek' := h.dek_eq hr hdek hdek' rfl rfl hkey
      refine .inl (congrArg _ (h.rights.eq_of_spent hu hv (t := .contents dek) ?_ ?_)) <;>
        simp [Use.permits]

/-- What the log has under a key that is drawn has been imported. -/
theorem Accounts.contents_of_mem (h : Accounts P (some K) H n held w issued uses) {key nonce b : Bytes}
    (hmem : ⟨key, nonce, b⟩ ∈ w.record.encryptions) (hK : key ≠ K) (hzero : key ≠ zeroKey) :
    Imported H b := by
  rw [h.log] at hmem
  obtain ⟨u, hu, he⟩ := List.mem_map.mp hmem
  cases u with
  | contents dek iv b' =>
    obtain rfl : b' = b := congrArg Encryption.clear he
    exact h.proper _ hu
  | wrapping kek dek iv =>
    obtain rfl : kek = key := congrArg Encryption.key he
    exact absurd (h.proper _ hu K rfl) (not_or.mpr ⟨hK, hzero⟩)

/-- What the log has under the stored key is a key of 32 random bytes. -/
theorem Accounts.wrapping_of_mem (h : Accounts P (some K) H n held w issued uses)
    (hr : Unrepeated P K n w.drawn) {kek nonce dek : Bytes} (hkek : kek = K ∨ kek = zeroKey)
    (hmem : ⟨kek, nonce, dek⟩ ∈ w.record.encryptions) :
    ∃ d iv, Use.wrapping kek d iv ∈ uses ∧ dek = CryptoService.drawn P d 32 := by
  rw [h.log] at hmem
  obtain ⟨u, hu, he⟩ := List.mem_map.mp hmem
  cases u with
  | contents d iv b =>
    obtain rfl : CryptoService.drawn P d 32 = kek := congrArg Encryption.key he
    have hdek := h.issued_of_mem hu (t := .contents d) (by simp [Use.permits])
    have hsecret := h.dek_secret hr hdek rfl
    exact absurd hkek (not_or.mpr hsecret)
  | wrapping k d iv =>
    obtain rfl : k = kek := congrArg Encryption.key he
    exact ⟨d, iv, hu, (congrArg Encryption.clear he).symm⟩

/-- **What opens under the stored key has been imported**, whoever has written the files. -/
theorem Accounts.imported_of_unseals (h : Accounts P (some K) H n held w issued uses)
    (hr : Unrepeated P K n w.drawn) (hK : K ≠ zeroKey) {d : Bytes}
    (hd : Unseals w.record.encryptions K d) : Imported H d := by
  obtain ⟨dek, hdek, hd⟩ := hd
  -- nobody can know the stored key
  have hsecret : ¬ Knowable w.record.encryptions K := by
    rintro (hzero | ⟨nonce, hmem⟩)
    · exact hK hzero
    · obtain ⟨d, iv, hu, he⟩ := h.wrapping_of_mem hr (.inr rfl) hmem
      have hdek := h.issued_of_mem hu (t := .wrapping d) (by simp [Use.permits])
      exact (h.dek_secret hr hdek rfl).1 he.symm
  obtain ⟨nonce, hmem⟩ := hdek.resolve_left hsecret
  obtain ⟨p, iv, hu, rfl⟩ := h.wrapping_of_mem hr (.inl rfl) hmem
  have hdek := h.issued_of_mem hu (t := .wrapping p) (by simp [Use.permits])
  obtain ⟨hne, hne'⟩ := h.dek_secret hr hdek rfl
  -- a key that is wrapped under the stored key has not been wrapped under what a lock leaves
  have hsecret' : ¬ Knowable w.record.encryptions (CryptoService.drawn P p 32) := by
    rintro (hzero | ⟨nonce, hmem⟩)
    · exact hne' hzero
    · obtain ⟨p', iv', hv, he⟩ := h.wrapping_of_mem hr (.inr rfl) hmem
      have hdek' := h.issued_of_mem hv (t := .wrapping p') (by simp [Use.permits])
      obtain rfl : p = p' := h.dek_eq hr hdek hdek' rfl rfl he
      have hsame := h.rights.eq_of_spent hu hv (t := .wrapping p) (by simp [Use.permits])
        (by simp [Use.permits])
      exact hK (Use.wrapping.inj hsame).1
  obtain ⟨nonce', hmem'⟩ := hd.resolve_left hsecret'
  exact h.contents_of_mem hmem' hne hne'

end Log

end Sealing

end CajaSegura
