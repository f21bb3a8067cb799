import CajaSegura.Properties.Recovery

/-!
# What a failed import leaves in the vault

An import any of whose calls may throw, with writes that may be cut, where the cleaning works.

## Main definitions

* `undoes`: any call may throw, except those by which the files of the entry are cleaned up
* `HalfWritten`: the contents of the entry were written, in part at least, and the metadata not
* `Touched`: a call that removes the source took effect

## Main results

* `VaultRepository.importFile_restores_iff`: an import that throws leaves the vault as it was unless
  the entry is half written, or the source was in the vault and has been touched
-/

namespace CajaSegura

open Codec Async
open Program hiding bind

variable {P : Platform}

/-- The looks and deletions by which the files of the entry `id` are cleaned up work. -/
def Cleans (P : Platform) (id : Text) : (op : Op) → Outcome op → Prop
  | .fileExists f, o => f = dataFileOf (vaultDir P) id ∨ f = metaFileOf (vaultDir P) id → o = none
  | .delete f, o => f = dataFileOf (vaultDir P) id ∨ f = metaFileOf (vaultDir P) id → o = .done
  | _, _ => True

/-- A program that runs alone, any of whose other calls may fail. -/
def undoes (P : Platform) (id : Text) : Discipline (device P) where
  allow _ := Cleans P id
  deliver := fun _ _ _ => True
  rely := TimePasses
  guarantee := fun _ _ => True

theorem alone_undoes (id : Text) (w₀ : World) : Alone (undoes P id) (Stays w₀) True :=
  alone_of_timePasses w₀ (fun _ _ h => h) (fun _ _ _ => trivial) (fun _ => trivial)
    fun _ _ _ _ => .inr trivial

theorem alters_undoes {id : Text} {J : World → Prop} {w : World}
    (S : (Key → Option Bytes) → Prop) : Alters (undoes P id) J w S :=
  fun _ _ _ _ _ _ _ => trivial

/-! ## The removal of the source -/

/-- Calls by which a source is removed that take effect on it. -/
inductive Touches (source : File) : Sigma Outcome → Prop
  | delete : Touches source ⟨.delete source, DeleteOutcome.done⟩
  | rename (t : File) : Touches source ⟨.rename source t, (none : Option DartError)⟩
  | write (b : Bytes) (o : WriteOutcome) (ho : ∀ e, o ≠ .fails e) :
      Touches source ⟨.writeAsBytes source b, o⟩

def Touched (source : File) (l : List (Sigma Outcome)) : Prop := ∃ a ∈ l, Touches source a

theorem touched_cons {source : File} {a : Sigma Outcome} {l : List (Sigma Outcome)} :
    Touched source (a :: l) ↔ Touches source a ∨ Touched source l := by
  simp [Touched]

theorem touched_append {source : File} {l l' : List (Sigma Outcome)} :
    Touched source (l ++ l') ↔ Touched source l ∨ Touched source l' := by
  simp only [Touched, List.mem_append, or_and_right, exists_or]

/-- Since `w₁`, where the source holds `b`, the calls `l` have been made to remove it: it holds `b`
until one of them touches it, and then never again. -/
structure Handled (w₁ : World) (source : File) (sk : Key) (b : Bytes) (l : List (Sigma Outcome))
    (w : World) : Prop where
  stays : Stays w₁ w
  dirs : ∀ p, w₁.fs.dirs p = true → w.fs.dirs p = true
  uuids : w.uuids = w₁.uuids
  changes : w.changes = l ++ w₁.changes
  calls : ∀ a ∈ l, OfSource source a.1
  others : ∀ k, k ≠ sk → (∀ now, k ≠ tempKey sk now) → w.fs.files k = w₁.fs.files k
  kept : ¬ Touched source l → w.fs.files = w₁.fs.files
  moved : Touched source l → w.fs.files sk ≠ some b

/-- A source that can be removed. -/
structure Removable (w₁ : World) (source : File) (sk : Key) (b : Bytes) : Prop where
  resolve : w₁.fs.resolve source = some sk
  files : w₁.fs.files sk = some b
  ne_nil : b ≠ []

variable {w₁ w : World} {source : File} {sk : Key} {b : Bytes} {l : List (Sigma Outcome)}

theorem Handled.refl : Handled w₁ source sk b [] w₁ where
  stays := ⟨rfl, rfl⟩
  dirs _ := id
  uuids := rfl
  changes := rfl
  calls := nofun
  others _ _ _ := rfl
  kept _ := rfl
  moved := by simp [Touched]

/-- A stretch that changes no file. -/
theorem Handled.calm {w' : World} (h : Handled w₁ source sk b l w) (hs : Stays w w')
    (hc : w.Calm w') : Handled w₁ source sk b l w' where
  stays := ⟨hs.heap.trans h.stays.heap, hs.zone.trans h.stays.zone⟩
  dirs p hp := hc.dirs p (h.dirs p hp)
  uuids := hc.uuids.trans h.uuids
  changes := hc.changes.trans h.changes
  calls := h.calls
  others k hk ht := (congrFun hc.files k).trans (h.others k hk ht)
  kept hn := hc.files.trans (h.kept hn)
  moved ht := by
    rw [hc.files]
    exact h.moved ht

/-- What a call of the removal makes of the files, by whether it touches the source. -/
structure Effect (sk : Key) (b : Bytes) (touches : Prop) (files files' : Key → Option Bytes) :
    Prop where
  others : ∀ k, k ≠ sk → (∀ now, k ≠ tempKey sk now) → files' k = files k
  kept : files sk = some b → ¬ touches → files' = files
  moved : files sk = some b → touches → files' sk ≠ some b
  gone : files sk ≠ some b → files' sk ≠ some b

theorem Handled.answered (h : Handled w₁ source sk b l w) (hR : Removable w₁ source sk b) {op : Op}
    (hop : OfSource source op) (hm : op.Mutates) (o : Outcome op)
    (he : Effect sk b (Touches source ⟨op, o⟩) w.fs.files (w.exec P op o).2.fs.files) :
    Handled w₁ source sk b (⟨op, o⟩ :: l) (w.exec P op o).2 where
  stays := by
    have ho := World.outside_exec P w op o
    exact ⟨ho.heap.trans h.stays.heap, ho.zone.trans h.stays.zone⟩
  dirs p hp := World.dirs_exec w op o p (h.dirs p hp)
  uuids := (World.outside_exec P w op o).uuids.trans h.uuids
  changes := by rw [World.changes_exec w hm, h.changes, List.cons_append]
  calls := List.forall_mem_cons.mpr ⟨hop, h.calls⟩
  others k hk ht := (he.others k hk ht).trans (h.others k hk ht)
  kept hn := by
    rw [touched_cons, not_or] at hn
    have hfiles := h.kept hn.2
    have hb : w.fs.files sk = some b := by rw [hfiles, hR.files]
    exact (he.kept hb hn.1).trans hfiles
  moved ht := by
    by_cases hb : w.fs.files sk = some b
    · rw [touched_cons] at ht
      exact he.moved hb (ht.resolve_right fun ht => h.moved ht hb)
    · exact he.gone hb

theorem effect_delete {fs : Fs} (hs : fs.resolve source = some sk) (o : DeleteOutcome) :
    Effect sk b (Touches source ⟨.delete source, o⟩) fs.files (fs.onDelete source o).2.files := by
  have hfiles := fs.onDelete_files source o
  have hends (hb : fs.files sk = some b) := (Fs.onDelete_of_resolve hs hb o).2
  generalize (fs.onDelete source o).2.files = files' at hfiles hends
  constructor
  · intro k hk _
    rcases hfiles with hf | ⟨-, k', hk', hf⟩
    · rw [hf]
    · obtain rfl : sk = k' := Option.some.inj (hs.symm.trans hk')
      rw [hf, Function.update_of_ne hk]
  · intro hb hn
    rcases hends hb with ⟨rfl, -, -⟩ | ⟨hf, -⟩
    · exact absurd .delete hn
    · exact hf
  · intro hb ht
    rcases hends hb with ⟨-, -, hf⟩ | ⟨-, ⟨e, rfl, -⟩ | ⟨rfl, -⟩⟩
    · rw [hf, Function.update_self]
      simp
    · cases ht
    · cases ht
  · intro hb
    rcases hfiles with hf | ⟨-, k', hk', hf⟩
    · rw [hf]
      exact hb
    · obtain rfl : sk = k' := Option.some.inj (hs.symm.trans hk')
      rw [hf, Function.update_self]
      simp

theorem effect_rename {fs : Fs} (hs : fs.resolve source = some sk) (now : Instant)
    (o : Option DartError) :
    Effect sk b (Touches source ⟨.rename source (VaultRepository.tempFileOf source now), o⟩) fs.files
      (fs.onRename source (VaultRepository.tempFileOf source now) o).2.files := by
  have ht := resolve_temp hs now
  have hfiles := fs.onRename_files source (VaultRepository.tempFileOf source now) o
  have hends (hb : fs.files sk = some b) := (Fs.onRename_of_resolve hs ht rfl hb o).2
  have hne : sk ≠ tempKey sk now := (tempKey_ne_self sk now).symm
  generalize (fs.onRename source (VaultRepository.tempFileOf source now) o).2.files = files'
    at hfiles hends
  constructor
  · intro k hk hkt
    rcases hfiles with hf | ⟨-, k', c, hk', -, t, hkt', hf⟩
    · rw [hf]
    · obtain rfl : sk = k' := Option.some.inj (hs.symm.trans hk')
      obtain rfl : tempKey sk now = t := Option.some.inj (ht.symm.trans hkt')
      rw [hf, Function.update_of_ne (hkt now), Function.update_of_ne hk]
  · intro hb hn
    rcases hends hb with ⟨rfl, -, -⟩ | ⟨e, -, -, hf⟩
    · exact absurd (.rename _) hn
    · exact hf
  · intro hb ht
    rcases hends hb with ⟨-, -, hf⟩ | ⟨e, rfl, -, -⟩
    · rw [hf, Function.update_of_ne hne, Function.update_self]
      simp
    · cases ht
  · intro hb
    rcases hfiles with hf | ⟨-, k', c, hk', -, t, hkt', hf⟩
    · rw [hf]
      exact hb
    · obtain rfl : sk = k' := Option.some.inj (hs.symm.trans hk')
      obtain rfl : tempKey sk now = t := Option.some.inj (ht.symm.trans hkt')
      rw [hf, Function.update_of_ne hne, Function.update_self]
      simp

theorem effect_overwrite {fs : Fs} (hs : fs.resolve source = some sk) (hne : b ≠ [])
    (o : WriteOutcome) :
    Effect sk b (Touches source ⟨.writeAsBytes source [], o⟩) fs.files
      (fs.onWrite source [] o).2.files := by
  have hfiles := fs.onWrite_files source [] o
  have hends (hb : fs.files sk = some b) :=
    (Fs.onWrite_of_resolve hs (fs.parent sk (by simp [hb])).1 [] o).2
  generalize (fs.onWrite source [] o).2.files = files' at hfiles hends
  constructor
  · intro k hk _
    rcases hfiles with hf | ⟨-, k', c, hk', -, hf⟩
    · rw [hf]
    · obtain rfl : sk = k' := Option.some.inj (hs.symm.trans hk')
      rw [hf, Function.update_of_ne hk]
  · intro hb hn
    rcases hends hb with ⟨rfl, -, -⟩ | ⟨e, -, ⟨-, hf⟩ | ⟨n, rfl, -⟩⟩
    · exact absurd (.write _ _ nofun) hn
    · exact hf
    · exact absurd (.write _ _ nofun) hn
  · intro hb ht
    rcases hends hb with ⟨-, -, hf⟩ | ⟨e, -, ⟨rfl, -⟩ | ⟨n, -, hf⟩⟩
    · rw [hf, Function.update_self]
      simpa using hne.symm
    · cases ht with
      | write _ _ ho => exact absurd rfl (ho e)
    · rw [hf, Function.update_self, List.take_nil]
      simpa using hne.symm
  · intro hb
    rcases hfiles with hf | ⟨-, k', c, hk', hc, hf⟩
    · rw [hf]
      exact hb
    · obtain rfl : sk = k' := Option.some.inj (hs.symm.trans hk')
      obtain rfl : c = [] := List.prefix_nil.mp hc
      rw [hf, Function.update_self]
      simpa using hne.symm

/-- A deletion under the temporary name, when the source is no longer what it was. -/
theorem effect_deleteTemp {fs : Fs} (hs : fs.resolve source = some sk) (hb : fs.files sk ≠ some b)
    (now : Instant) (o : DeleteOutcome) :
    Effect sk b (Touches source ⟨.delete (VaultRepository.tempFileOf source now), o⟩) fs.files
      (fs.onDelete (VaultRepository.tempFileOf source now) o).2.files := by
  have ht := resolve_temp hs now
  have hfiles := fs.onDelete_files (VaultRepository.tempFileOf source now) o
  have hne : sk ≠ tempKey sk now := (tempKey_ne_self sk now).symm
  generalize (fs.onDelete (VaultRepository.tempFileOf source now) o).2.files = files' at hfiles
  refine ⟨?_, fun h => absurd h hb, fun h => absurd h hb, fun _ => ?_⟩
  · intro k hk hkt
    rcases hfiles with hf | ⟨-, k', hk', hf⟩
    · rw [hf]
    · obtain rfl : tempKey sk now = k' := Option.some.inj (ht.symm.trans hk')
      rw [hf, Function.update_of_ne (hkt now)]
  · rcases hfiles with hf | ⟨-, k', hk', hf⟩
    · rw [hf]
      exact hb
    · obtain rfl : tempKey sk now = k' := Option.some.inj (ht.symm.trans hk')
      rw [hf, Function.update_of_ne hne]
      exact hb

/-- The source is being removed; if `t`, it has been touched. -/
def Handling (w₁ : World) (source : File) (sk : Key) (b : Bytes) (t : Prop) (w : World) : Prop :=
  ∃ l, Handled w₁ source sk b l w ∧ (t → Touched source l)

/-- The calls of a removal: the temporary name is deleted only after the source was touched. -/
def OfRemoval (source : File) (t : Prop) (op : Op) : Prop :=
  ¬ op.Mutates ∨ OfSource source op ∧
    ∀ now, op = .delete (VaultRepository.tempFileOf source now) → t

theorem Handled.exec (h : Handled w₁ source sk b l w) (hR : Removable w₁ source sk b) {t : Prop}
    (ht : t → Touched source l) {op : Op} (hop : OfRemoval source t op) (o : Outcome op) :
    Handling w₁ source sk b t (w.exec P op o).2 := by
  have hs : w.fs.resolve source = some sk := Fs.resolve_mono h.dirs hR.resolve
  rcases hop with hm | ⟨hop, hdt⟩
  · have hq := World.quiet_exec (P := P) w hm o
    exact ⟨l, h.calm ⟨hq.heap, hq.zone⟩ hq.toCalm, ht⟩
  · have hm : op.Mutates := by cases hop <;> trivial
    refine ⟨⟨op, o⟩ :: l, h.answered hR hop hm o ?_, fun h => touched_cons.mpr (.inr (ht h))⟩
    cases hop with
    | delete => exact effect_delete hs o
    | rename now => exact effect_rename hs now o
    | overwrite => exact effect_overwrite hs hR.ne_nil o
    | deleteTemp now => exact effect_deleteTemp hs (h.moved (ht (hdt now rfl))) now o

theorem Handled.passes {w' : World} (h : Handled w₁ source sk b l w) (ht : TimePasses w w') :
    Handled w₁ source sk b l w' := by
  have hs := ht.still
  exact h.calm ⟨hs.heap, hs.zone⟩ ht.calm

variable {id : Text} {α : Type}

/-- A program that makes calls of a removal only goes on with it. -/
theorem keeps_of_within (hR : Removable w₁ source sk b) {t : Prop} {p : App α}
    (hp : p.Within (OfRemoval source t) fun _ _ => False) :
    p.Keeps (undoes P id) (Handling w₁ source sk b t) := by
  apply hp.keeps
  · rintro w w' ⟨l, h, ht⟩ hr
    exact ⟨l, h.passes hr, ht⟩
  · exact fun _ _ _ h => h.elim
  · rintro op hop w o ⟨l, h, ht⟩ -
    exact ⟨trivial, h.exec hR ht hop o⟩

namespace VaultRepository

theorem keeps_renameAndDelete (hR : Removable w₁ source sk b) :
    (renameAndDelete source).Keeps (undoes P id) (Handling w₁ source sk b False) := by
  rintro w ⟨l, h, -⟩
  unfold renameAndDelete
  rw [wp_bind, wp_get]
  generalize w.now = now
  dsimp only
  rw [wp_bind, wp_call]
  intro w₂ h₂ o _
  refine ⟨trivial, fun w₃ h₃ _ => ?_⟩
  have hop : OfSource source (.rename source (tempFileOf source now)) := .rename now
  have hs : w₂.fs.resolve source = some sk := Fs.resolve_mono (h.passes h₂).dirs hR.resolve
  have hw₃ := ((h.passes h₂).answered (P := P) hR hop trivial o (effect_rename hs now o)).passes h₃
  -- only a rename that has succeeded makes way for the deletion under the other name
  cases o with
  | some e => exact ⟨_, hw₃, False.elim⟩
  | none =>
    -- the file has its other name, which may be deleted
    have hmoved : Handling w₁ source sk b True w₃ :=
      ⟨_, hw₃, fun _ => touched_cons.mpr (.inl (.rename _))⟩
    have hrest : (do
        call (.delete (tempFileOf source now))
        let there : Bool ← call (.fileExists (tempFileOf source now))
        when there (throw (.exception "Archivo temporal aún existe después de eliminación".toList))
          : App Unit).Within (OfRemoval source True) fun _ _ => False := by
      refine Within.bind (within_call.mpr (.inr ⟨.deleteTemp now, fun _ _ => trivial⟩)) fun _ => ?_
      exact Within.bind (within_call.mpr (.inl fun h => h)) fun _ => within_when trivial
    generalize (w₂.exec P (.rename source (tempFileOf source now)) none).1 = r
    cases r with
    | error e => exact ⟨_, hw₃, False.elim⟩
    | ok a =>
      refine wp_mono _ ?_ (keeps_of_within hR hrest w₃ hmoved)
      rintro _ w' ⟨l', h', -⟩
      exact ⟨l', h', False.elim⟩

theorem keeps_deleteSource (hR : Removable w₁ source sk b) :
    (deleteSource source).Keeps (undoes P id) (Handling w₁ source sk b False) := by
  have hcall {op : Op} (hm : ¬ op.Mutates) :
      (call op).Keeps (undoes P id) (Handling w₁ source sk b False) :=
    keeps_of_within hR (within_call.mpr (.inl hm))
  have hdelete : OfRemoval source False (.delete source) :=
    .inr ⟨.delete, fun now h => tempFileOf_ne_self source now (by simpa using h.symm)⟩
  have hwhen {p : App Unit} (hp : p.Keeps (undoes P id) (Handling w₁ source sk b False))
      (c : Bool) : (when c p).Keeps (undoes P id) (Handling w₁ source sk b False) := by
    cases c with
    | false => exact .ret ()
    | true => exact hp
  -- the attempts to see that the file is gone only look and wait
  have hverify (attempts : List ℕ) : ∀ still, (verifyDeleted source still attempts).Within
      (OfRemoval source False) fun _ _ => False := by
    induction attempts with
    | nil => exact fun _ => trivial
    | cons a as ih =>
      intro still
      refine Within.bind (within_call.mpr (.inl fun h => h)) fun _ => ?_
      refine Within.bind (within_call.mpr (.inl fun h => h)) fun there => ?_
      cases there with
      | true => exact ih true
      | false => trivial
  have hoverwrite : (overwriteAndDelete source).Within (OfRemoval source False) fun _ _ => False := by
    refine Within.bind (within_call.mpr (.inr ⟨.overwrite, fun _ h => by cases h⟩)) fun _ => ?_
    refine Within.bind (within_call.mpr hdelete) fun _ => ?_
    exact Within.bind (within_call.mpr (.inl fun h => h)) fun _ => within_when trivial
  have hcheck : (checkReadable source).Within (OfRemoval source False) fun _ _ => False :=
    Within.tryCatch (Within.bind (within_call.mpr (.inl fun h => h)) fun _ => trivial) fun _ => trivial
  unfold deleteSource
  refine .bind (hcall fun h => h) fun there => hwhen ?_ there
  refine .bind (hcall fun h => h) fun _ => .bind (keeps_of_within hR hcheck) fun _ => ?_
  refine .bind (keeps_of_within hR (within_call.mpr hdelete)) fun _ => ?_
  refine .bind (keeps_of_within hR (hverify _ _)) fun still => hwhen ?_ still
  refine .tryCatch (keeps_renameAndDelete hR) fun _ => ?_
  exact .tryCatch (keeps_of_within hR hoverwrite) fun _ => .fail _

/-! ## The files of the entry -/

/-- The two writes of an entry, the later first. -/
def wrote (P : Platform) (id : Text) (cipher text : Bytes) : List (Sigma Outcome) :=
  [⟨.writeAsBytes (metaFileOf (vaultDir P) id) text, WriteOutcome.done⟩,
    ⟨.writeAsBytes (dataFileOf (vaultDir P) id) cipher, WriteOutcome.done⟩]

/-- The two deletions of an entry, the later first. -/
def erased (P : Platform) (id : Text) : List (Sigma Outcome) :=
  [⟨.delete (metaFileOf (vaultDir P) id), DeleteOutcome.done⟩,
    ⟨.delete (dataFileOf (vaultDir P) id), DeleteOutcome.done⟩]

/-- How the two writes of an entry end, and what they leave. -/
inductive EntryWrites (P : Platform) (id : Text) (cipher text : Bytes)
    (files : Key → Option Bytes) :
    Except DartError Unit → List (Sigma Outcome) → (Key → Option Bytes) → Prop
  | untouched (e : DartError) : EntryWrites P id cipher text files (.error e)
      [⟨.writeAsBytes (dataFileOf (vaultDir P) id) cipher, WriteOutcome.fails e⟩] files
  | cut (e : DartError) (n : ℕ) : EntryWrites P id cipher text files (.error e)
      [⟨.writeAsBytes (dataFileOf (vaultDir P) id) cipher, WriteOutcome.cut n e⟩]
      (Function.update files (dataKey P id) (some (cipher.take n)))
  | half (e : DartError) (o : WriteOutcome) (ho : o ≠ .done) (files' : Key → Option Bytes)
      (hd : files' (dataKey P id) = some cipher) : EntryWrites P id cipher text files (.error e)
      [⟨.writeAsBytes (metaFileOf (vaultDir P) id) text, o⟩,
        ⟨.writeAsBytes (dataFileOf (vaultDir P) id) cipher, WriteOutcome.done⟩] files'
  | done : EntryWrites P id cipher text files (.ok ()) (wrote P id cipher text)
      (written P id cipher text files)

/-- The contents were written, in part at least, and the metadata not. -/
def HalfWritten (P : Platform) (id : Text) (l : List (Sigma Outcome)) : Prop :=
  (∃ c o, (∀ e, o ≠ .fails e) ∧ ⟨.writeAsBytes (dataFileOf (vaultDir P) id) c, o⟩ ∈ l) ∧
    ∀ t, ⟨.writeAsBytes (metaFileOf (vaultDir P) id) t, WriteOutcome.done⟩ ∉ l

theorem writeEntry_ends {w₀ w : World} (hw : Stays w₀ w) (hid : '/' ∉ id)
    (hvault : w.fs.dirs (vaultDir P) = true) (m : VaultFileMeta) (cipher : Bytes) :
    (writeEntry m cipher (dataFileOf (vaultDir P) id) (metaFileOf (vaultDir P) id)).wp
      (undoes P id) (fun r w' => ∃ l, After (Stays w₀) w l w'.fs.files w' ∧
        EntryWrites P id cipher (metaBytes w₀.zone m) w.fs.files r l w'.fs.files) w := by
  have hJ := alone_undoes (P := P) id w₀
  unfold writeEntry
  rw [wp_bind]
  refine wp_mono _ ?_ (writeAsBytes_wp hJ hw (resolve_data w.fs hid) hvault (alters_undoes _))
  rintro r w₁ ⟨o, ha, he⟩
  have h₁ := (After.refl hw).answered ha rfl
  -- the first write is done, refused or cut
  rcases he with ⟨rfl, rfl, hf₁⟩ | ⟨e, rfl, ⟨rfl, hf₁⟩ | ⟨n, rfl, hf₁⟩⟩
  · dsimp only
    rw [wp_bind, wp_get]
    dsimp only
    rw [h₁.keeps.zone]
    refine wp_mono _ ?_ (writeAsBytes_wp hJ h₁.keeps (resolve_meta w₁.fs hid) (h₁.dirs _ hvault)
      (alters_undoes _))
    rintro r w₂ ⟨o', ha', he'⟩
    refine ⟨_, h₁.answered ha' rfl, ?_⟩
    rcases he' with ⟨rfl, rfl, hf₂⟩ | ⟨e, rfl, ⟨rfl, hf₂⟩ | ⟨n, rfl, hf₂⟩⟩
    · rw [hf₂, hf₁]
      exact .done
    · refine .half e (.fails e) nofun _ ?_
      rw [hf₂, hf₁, Function.update_self]
    · refine .half e (.cut n e) nofun _ ?_
      rw [hf₂, Function.update_of_ne (dataKey_ne_metaKey id id), hf₁, Function.update_self]
  · refine ⟨_, h₁, ?_⟩
    rw [hf₁]
    exact .untouched e
  · refine ⟨_, h₁, ?_⟩
    rw [hf₁]
    exact .cut e n

section Cleaning

variable {w₀ w₂ : World} {f : File} {k : Key} {c : Bytes} {files : Key → Option Bytes}

/-- The cleaning looks for a file of the entry. -/
theorem look_entry (hf : f = dataFileOf (vaultDir P) id ∨ f = metaFileOf (vaultDir P) id)
    (hk : ∀ fs : Fs, fs.resolve f = some k) (h : After (Stays w₀) w l files w₂)
    (hc : files k = some c) : (call (.fileExists f)).wp (undoes P id)
      (fun r w' => r = .ok true ∧ After (Stays w₀) w l files w') w₂ := by
  have hop : ¬ Op.Mutates (.fileExists f) := fun h => h
  apply (alone_undoes (P := P) id w₀).wp_call hop h.keeps
  intro w₃ o hw₃ hc₃ ho w₄ hw₄ hc₄
  obtain rfl : o = none := ho hf
  refine ⟨?_, h.calm hw₄ hc₄⟩
  have hread := Fs.read_of_resolve (hk w₃.fs)
  rw [hc₃.files, h.files, hc] at hread
  exact congrArg (fun b => Except.ok (Option.isSome b)) hread

/-- The cleaning deletes it. -/
theorem erase_entry (hf : f = dataFileOf (vaultDir P) id ∨ f = metaFileOf (vaultDir P) id)
    (hk : ∀ fs : Fs, fs.resolve f = some k) (h : After (Stays w₀) w l files w₂)
    (hc : files k = some c) : (when true (call (.delete f))).wp (undoes P id)
      (fun r w' => r = .ok () ∧ After (Stays w₀) w (⟨.delete f, DeleteOutcome.done⟩ :: l)
        (Function.update files k none) w') w₂ := by
  have hJ := alone_undoes (P := P) id w₀
  refine wp_mono _ ?_ (delete_wp hJ h.keeps (hk w₂.fs) (h.files ▸ hc) (alters_undoes _))
  rintro r w₃ ⟨o, ha, he⟩
  obtain ⟨w₄, ho⟩ := ha.allow
  obtain rfl : o = .done := ho hf
  rcases he with ⟨-, rfl, hf₃⟩ | ⟨-, ⟨e, h, -⟩ | ⟨h, -⟩⟩
  · exact ⟨rfl, h.answered ha (by rw [hf₃, h.files])⟩
  · cases h
  · cases h

/-- The cleaning removes both files. -/
theorem cleanUp_erases (hid : '/' ∉ id) {cipher text : Bytes}
    (h : After (Stays w₀) w l files w₂) (hd : files (dataKey P id) = some cipher)
    (hm : files (metaKey P id) = some text) :
    (cleanUp (dataFileOf (vaultDir P) id) (metaFileOf (vaultDir P) id)).wp (undoes P id)
      (fun r w' => r = .ok () ∧ After (Stays w₀) w
        (erased P id ++ l)
        (Function.update (Function.update files (dataKey P id) none) (metaKey P id) none) w')
      w₂ := by
  have hd' (fs : Fs) := resolve_data (P := P) fs hid
  have hm' (fs : Fs) := resolve_meta (P := P) fs hid
  have hm₁ : Function.update files (dataKey P id) none (metaKey P id) = some text := by
    rw [Function.update_of_ne (dataKey_ne_metaKey id id).symm, hm]
  unfold cleanUp
  rw [wp_tryCatch, wp_bind]
  refine wp_mono _ ?_ (look_entry (.inl rfl) hd' h hd)
  rintro _ w₃ ⟨rfl, h₃⟩
  dsimp only
  rw [wp_bind]
  refine wp_mono _ ?_ (erase_entry (.inl rfl) hd' h₃ hd)
  rintro _ w₄ ⟨rfl, h₄⟩
  dsimp only
  rw [wp_bind]
  refine wp_mono _ ?_ (look_entry (.inr rfl) hm' h₄ hm₁)
  rintro _ w₅ ⟨rfl, h₅⟩
  refine wp_mono _ ?_ (erase_entry (.inr rfl) hm' h₅ hm₁)
  rintro _ w₆ ⟨rfl, h₆⟩
  exact ⟨rfl, h₆⟩

end Cleaning

/-! ## The import -/

/-- The files of the vault are as they were. -/
def Restored (P : Platform) (w w' : World) : Prop :=
  ∀ k, k.dir = vaultDir P → w'.fs.files k = w.fs.files k

/-- The source is a file of the vault. -/
def InVault (P : Platform) (w : World) (source : File) : Prop :=
  ∃ k, w.fs.resolve source = some k ∧ k.dir = vaultDir P

/-- What the calls since `w` have left, by what they were. -/
def Restores (P : Platform) (source : File) (id : Text) (w : World) {α : Type}
    (r : Except DartError α) (w' : World) : Prop :=
  ∃ l, w'.changes = l ++ w.changes ∧ ((∀ e, r = .error e → Restored P w w') ↔
    ¬ HalfWritten P id l ∧
      ¬ (InVault P w source ∧ Touched source l ∧ Erased (dataFileOf (vaultDir P) id) l))

section Removed

variable {w₀ w₂ : World} {cipher text : Bytes}

/-- Calls on the files of the entry do not touch a source that is neither of them. -/
theorem not_touched_of_entry (hS : Source P w₀ source sk b id)
    (hl : ∀ a ∈ l, OfEntry P id a.1) : ¬ Touched source l := by
  rintro ⟨a, ha, ht⟩
  obtain ⟨f, hf, hop⟩ := hl a ha
  have hne : source ≠ f := by
    rcases hf with rfl | rfl
    · exact hS.ne_files.1
    · exact hS.ne_files.2
  rcases hop with ⟨c, hop⟩ | hop <;> cases ht <;> cases hop <;> exact hne rfl

/-- The calls that touch the source are those of its removal. -/
theorem touched_around (hS : Source P w₀ source sk b id) :
    Touched source (erased P id ++ l ++ wrote P id cipher text) ↔ Touched source l := by
  have herased : ¬ Touched source (erased P id) := not_touched_of_entry hS
    (List.forall_mem_cons.mpr ⟨⟨_, .inr rfl, .inr rfl⟩,
      List.forall_mem_singleton.mpr ⟨_, .inl rfl, .inr rfl⟩⟩)
  have hwrote : ¬ Touched source (wrote P id cipher text) := not_touched_of_entry hS
    (List.forall_mem_cons.mpr ⟨⟨_, .inr rfl, .inl ⟨_, rfl⟩⟩,
      List.forall_mem_singleton.mpr ⟨_, .inl rfl, .inl ⟨_, rfl⟩⟩⟩)
  rw [touched_append, touched_append, or_iff_left hwrote, or_iff_right herased]

/-- Without its entry the vault is as before the import, unless the source is in it and has been
touched. -/
theorem restored_iff_untouched (h : Handled w₁ source sk b l w) (hS : Source P w₀ source sk b id)
    (hfresh : w₀.fs.files (dataKey P id) = none ∧ w₀.fs.files (metaKey P id) = none)
    (hf : w₁.fs.files = written P id cipher text w₀.fs.files)
    (hclean : w₂.fs.files =
      Function.update (Function.update w.fs.files (dataKey P id) none) (metaKey P id) none) :
    Restored P w₀ w₂ ↔ ¬ (sk.dir = vaultDir P ∧ Touched source l) := by
  -- where the removal has left a file alone
  have hback {k : Key} (hk : w.fs.files k = w₁.fs.files k) : w₂.fs.files k = w₀.fs.files k := by
    rw [hclean]
    by_cases hkm : k = metaKey P id
    · rw [hkm, Function.update_self, hfresh.2]
    by_cases hkd : k = dataKey P id
    · rw [hkd, Function.update_of_ne (dataKey_ne_metaKey id id), Function.update_self, hfresh.1]
    · rw [Function.update_of_ne hkm, Function.update_of_ne hkd, hk, hf, written_of_ne hkd hkm]
  constructor
  · rintro hr ⟨hdir, ht⟩
    refine h.moved ht ?_
    rw [← hS.files, ← hr sk hdir, hclean, Function.update_of_ne hS.ne_meta,
      Function.update_of_ne hS.ne_data]
  · intro hn k hk
    by_cases ht : Touched source l
    · have hne : sk.dir ≠ vaultDir P := fun hdir => hn ⟨hdir, ht⟩
      refine hback (h.others k ?_ fun now => ?_)
      · rintro rfl
        exact hne hk
      · rintro rfl
        exact hne hk
    · exact hback (congrFun (h.kept ht) k)

end Removed

theorem restores_of_files {e : DartError} {w w' : World} {α : Type}
    (hf : w'.fs.files = w.fs.files) (hc : w'.changes = w.changes) :
    Restores P source id w (.error e : Except DartError α) w' := by
  refine ⟨[], hc, iff_of_true (fun _ _ k _ => congrFun hf k) ⟨?_, ?_⟩⟩
  · rintro ⟨⟨c, o, -, h⟩, -⟩
    cases h
  · rintro ⟨-, -, h⟩
    cases h

/-- The removal of the source and, when it fails, of the entry. -/
theorem moveSource_restores {w w₁ : World} {cipher text : Bytes} (hS : Source P w source sk b id)
    (hfresh : w.fs.files (dataKey P id) = none ∧ w.fs.files (metaKey P id) = none)
    (hw₁ : Stays w w₁) (hd : ∀ p, w.fs.dirs p = true → w₁.fs.dirs p = true)
    (hf : w₁.fs.files = written P id cipher text w.fs.files)
    (hl : w₁.changes = wrote P id cipher text ++ w.changes) :
    (moveSource source (dataFileOf (vaultDir P) id) (metaFileOf (vaultDir P) id)).wp (undoes P id)
      (Restores P source id w) w₁ := by
  have hsk : w₁.fs.files sk = some b := by
    rw [hf, written_of_ne hS.ne_data hS.ne_meta, hS.files]
  have hR : Removable w₁ source sk b := ⟨Fs.resolve_mono hd hS.resolve, hsk, hS.ne_nil⟩
  unfold moveSource
  rw [wp_tryCatch]
  refine wp_mono _ ?_ (keeps_deleteSource hR w₁ ⟨[], .refl, False.elim⟩)
  rintro r w₂ ⟨l', h₂, -⟩
  have hinVault : InVault P w source ↔ sk.dir = vaultDir P := by
    unfold InVault
    rw [hS.resolve]
    simp
  have hwhole (l₂ : List (Sigma Outcome)) : ¬ HalfWritten P id (l₂ ++ wrote P id cipher text) :=
    fun h => h.2 text (List.mem_append_right _ List.mem_cons_self)
  cases r with
  -- the import succeeds, and there is nothing to restore
  | ok a =>
    refine ⟨l' ++ wrote P id cipher text, by rw [h₂.changes, hl, List.append_assoc],
      iff_of_true (fun _ he => nomatch he) ⟨hwhole l', ?_⟩⟩
    rintro ⟨-, -, he⟩
    rcases List.mem_append.mp he with he | he
    · exact hS.not_erased h₂.calls (.inl he)
    · simp [wrote] at he
  | error e =>
    have hdata₂ := h₂.others (dataKey P id) hS.ne_data.symm
      fun now => (tempKey_ne_dataKey sk now id).symm
    have hmeta₂ := h₂.others (metaKey P id) hS.ne_meta.symm
      fun now => (tempKey_ne_metaKey sk now id).symm
    have hafter : After (Stays w) w₁ l' w₂.fs.files w₂ :=
      ⟨⟨h₂.stays.heap.trans hw₁.heap, h₂.stays.zone.trans hw₁.zone⟩, h₂.dirs, h₂.uuids, h₂.changes,
        rfl⟩
    have hdata : w₂.fs.files (dataKey P id) = some cipher := by
      rw [hdata₂, hf, written, Function.update_of_ne (dataKey_ne_metaKey id id),
        Function.update_self]
    have hmeta : w₂.fs.files (metaKey P id) = some text := by
      rw [hmeta₂, hf, written, Function.update_self]
    dsimp only
    rw [wp_bind]
    refine wp_mono _ ?_ (cleanUp_erases hS.plain hafter hdata hmeta)
    rintro _ w₃ ⟨rfl, h₃⟩
    have herased : Erased (dataFileOf (vaultDir P) id)
        (erased P id ++ l' ++ wrote P id cipher text) := by
      simp [Erased, erased]
    refine ⟨erased P id ++ l' ++ wrote P id cipher text, ?_, ?_⟩
    · rw [h₃.changes, hl]
      simp only [List.append_assoc]
    · rw [hinVault, touched_around hS, and_iff_right (hwhole _)]
      simp only [herased, and_true, ← restored_iff_untouched h₂ hS hfresh hf h₃.files]
      exact ⟨fun h => h _ rfl, fun h _ _ => h⟩

/-- Writes of an entry that fail leave the vault as it was if none of them took effect. -/
theorem restores_of_writes {w w₁ w₂ : World}
    (hfresh : w.fs.files (dataKey P id) = none ∧ w.fs.files (metaKey P id) = none)
    (hf₁ : w₁.fs.files = w.fs.files) (hc₁ : w₁.changes = w.changes) {cipher text : Bytes}
    {e : DartError}
    (he : EntryWrites P id cipher text w₁.fs.files (.error e) l w₂.fs.files)
    (hc : w₂.changes = l ++ w₁.changes) {α : Type} :
    Restores P source id w (.error e : Except DartError α) w₂ := by
  refine ⟨l, hc.trans (by rw [hc₁]), ?_⟩
  -- the contents are there, and the metadata have not been written
  have hhalf {c : Bytes} (hd : w₂.fs.files (dataKey P id) = some c) (hl : HalfWritten P id l) :
      (∀ e', (Except.error e : Except DartError α) = .error e' → Restored P w w₂) ↔
        ¬ HalfWritten P id l ∧
          ¬ (InVault P w source ∧ Touched source l ∧ Erased (dataFileOf (vaultDir P) id) l) := by
    refine iff_of_false (fun h => ?_) fun h => h.1 hl
    have hr := h e rfl (dataKey P id) rfl
    rw [hd, hfresh.1] at hr
    cases hr
  generalize hf₂ : w₂.fs.files = files₂ at he
  cases he with
  -- the first write is refused
  | untouched =>
    refine iff_of_true (fun _ _ k _ => by rw [hf₂, hf₁]) ⟨?_, ?_⟩
    · rintro ⟨⟨c, o, ho, hmem⟩, -⟩
      simp only [List.mem_singleton] at hmem
      cases hmem
      exact ho e rfl
    · rintro ⟨-, -, hmem⟩
      simp [Erased] at hmem
  -- it is cut, and nothing is written after it
  | cut _ n =>
    refine hhalf (c := cipher.take n) ?_
      ⟨⟨cipher, .cut n e, by rintro e ⟨⟩, List.mem_singleton_self _⟩, ?_⟩
    · rw [hf₂, Function.update_self]
    · simp
  | half _ o ho _ hd =>
    refine hhalf (c := cipher) (by rw [hf₂, hd]) ⟨⟨cipher, .done, by rintro e ⟨⟩, by simp⟩, ?_⟩
    have hne : metaFileOf (vaultDir P) id ≠ dataFileOf (vaultDir P) id := by
      simp [metaFileOf, dataFileOf]
    simp [ho.symm, hne]

/-- **An import that throws** leaves the files of the vault as they were, except when the contents
of the entry were written and its metadata were not, or when the source was itself a file of the
vault and was touched before the entry was removed again. -/
theorem importFile_restores_iff (haes : P.aes.Correct) {w w' : World} {kek : Ref} {source : File}
    (hfresh : w.fs.files (dataKey P (P.uuid w.uuids)) = none ∧
      w.fs.files (metaKey P (P.uuid w.uuids)) = none) {mimeType : Text} {moveFile : Bool}
    {r : Except DartError VaultFileMeta}
    (hc : (importFile P source mimeType kek moveFile).Completes (undoes P (P.uuid w.uuids)) w r w') :
    ∃ l, w'.changes = l ++ w.changes ∧
      ((∀ e, r = .error e → ∀ k, k.dir = vaultDir P → w'.fs.files k = w.fs.files k) ↔
        ¬ HalfWritten P (P.uuid w.uuids) l ∧ ¬ (InVault P w source ∧ Touched source l ∧
          Erased (dataFileOf (vaultDir P) (P.uuid w.uuids)) l)) := by
  have hD := alone_undoes (P := P) (P.uuid w.uuids) w
  refine wp_completes (D := undoes P (P.uuid w.uuids))
    (Q := Restores P source (P.uuid w.uuids) w) ?_ hc
  -- an import that is rejected has not written anything
  by_cases hreject : w.fs.read source = none ∨ w.fs.read source = some [] ∨ (w.heap kek).length ≠ 32
  case pos =>
    refine wp_mono _ ?_ (importFile_rejects_wp hD (fun _ _ h => h) (n := (w.heap kek).length)
      (fun w' h => by rw [h.heap]) ⟨rfl, rfl⟩ hreject)
    rintro _ w₁ ⟨⟨e, rfl⟩, -, hf, -, hl⟩
    exact restores_of_files hf hl
  simp only [not_or, not_not] at hreject
  obtain ⟨hread, hempty, hkek⟩ := hreject
  obtain ⟨b, hb⟩ := Option.ne_none_iff_exists'.mp hread
  have hne : b ≠ [] := by
    rintro rfl
    exact hempty hb
  obtain ⟨sk, hS⟩ := Source.of_fresh hb hne hfresh
  apply importFile_prepare hD haes hkek (fun w' _ _ _ h _ => congrFun h.heap kek)
    (fun w' h => (congrFun h.heap kek) ▸ hkek) ⟨rfl, rfl⟩ hS.resolve hS.files hne
    (fun _ _ => trivial)
  · exact fun _ e w₁ _ hf _ hl => restores_of_files hf hl
  · rintro m cipher w₁ hw₁ hp hE -
    rw [wp_bind]
    refine wp_mono _ ?_ (writeEntry_ends hw₁ hS.plain hp.vault m cipher)
    rintro (e | a) w₂ ⟨l, h₂, he⟩
    · exact restores_of_writes hfresh hp.files hp.changes he h₂.changes
    · generalize hf₂ : w₂.fs.files = files₂ at he
      cases he
      rw [hp.files] at hf₂
      have hl₂ := h₂.changes
      rw [hp.changes] at hl₂
      have hd₂ : ∀ p, w.fs.dirs p = true → w₂.fs.dirs p = true := fun p h => h₂.dirs p (hp.dirs p h)
      dsimp only
      -- after both writes only the move of the source can fail
      cases moveFile with
      | false =>
        refine ⟨_, hl₂, iff_of_true (by rintro e ⟨⟩) ⟨?_, ?_⟩⟩
        · exact fun h => h.2 _ List.mem_cons_self
        · rintro ⟨-, -, he⟩
          simp [wrote, Erased] at he
      | true =>
        rw [wp_bind]
        refine wp_mono _ ?_ (moveSource_restores hS hfresh h₂.keeps hd₂ hf₂ hl₂)
        rintro (e | a) w₃ ⟨l, hl, h⟩
        · exact ⟨l, hl, Iff.trans ⟨fun hr _ _ => hr e rfl, fun hr _ _ => hr e rfl⟩ h⟩
        · exact ⟨l, hl, iff_of_true (by rintro e ⟨⟩) (h.mp (by rintro e ⟨⟩))⟩

/-- The metadata of the entry cannot be written. -/
def metadataFail : (op : Op) → Outcome op
  | .writeAsBytes f _ =>
    if f = metaFileOf (vaultDir (.sample .marked)) ['u'] then .fails (.exception []) else .done
  | op => usual op

/-- The run of an import that is broken off between its two writes. -/
def halfImport : Except DartError VaultFileMeta × World :=
  (importFile (.sample .marked) .sample ['t'] 0 false).run (device (.sample .marked))
    (fun _ => metadataFail) 0 (.sample (List.replicate 32 2) [1])

theorem halfImport_completes :
    (importFile (.sample .marked) .sample ['t'] 0 false).Completes (undoes (.sample .marked) ['u'])
      (.sample (List.replicate 32 2) [1]) halfImport.1 halfImport.2 := by
  have hallow : ∀ op, Cleans (.sample .marked) ['u'] op (metadataFail op) := by
    intro op
    cases op with
    | fileExists f => exact fun _ => rfl
    | delete f => exact fun _ => rfl
    | _ => trivial
  exact completes_run (D := undoes _ _) (fun w => ⟨w.now, rfl⟩) (fun _ _ => hallow)
    (fun _ _ _ => trivial) _ 0 _

/-- The import throws and the contents are in the vault. -/
theorem importFile_leaves_half :
    (importFile (.sample .marked) .sample ['t'] 0 false).Completes (undoes (.sample .marked) ['u'])
        (.sample (List.replicate 32 2) [1]) halfImport.1 halfImport.2 ∧
      (∃ e, halfImport.1 = .error e) ∧
      ¬ Restored (.sample .marked) (.sample (List.replicate 32 2) [1]) halfImport.2 := by
  refine ⟨halfImport_completes, ?_, fun h => ?_⟩
  · have herror : halfImport.1.toOption.isSome = false := by decide +kernel
    cases hr : halfImport.1 with
    | error e => exact ⟨e, rfl⟩
    | ok m => simp [hr, Except.toOption] at herror
  · have hdata := h (dataKey (.sample .marked) ['u']) rfl
    have hsome : (halfImport.2.fs.files (dataKey (.sample .marked) ['u'])).isSome = true := by
      decide +kernel
    rw [hdata] at hsome
    cases hsome

theorem importFile_restores_iff_halfImport :
    ∃ l, halfImport.2.changes = l ++ [] ∧
      ((∀ e, halfImport.1 = .error e → ∀ k, k.dir = vaultDir (.sample .marked) →
          halfImport.2.fs.files k = (World.sample (List.replicate 32 2) [1]).fs.files k) ↔
        ¬ HalfWritten (.sample .marked) ['u'] l ∧
          ¬ (InVault (.sample .marked) (.sample (List.replicate 32 2) [1]) .sample ∧
            Touched .sample l ∧ Erased (dataFileOf (vaultDir (.sample .marked)) ['u']) l)) :=
  importFile_restores_iff AesGcm.marked_correct ⟨by decide, by decide⟩ halfImport_completes

end VaultRepository

end CajaSegura
