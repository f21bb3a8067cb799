import CajaSegura.Platform.Rules

/-!
# Calls on files

## Main definitions

* `Alone`: an assertion for a program beside which nobody touches the files
* `Alters`: the changes of the files that a discipline grants the program
* `Answered`: a call that can change files has been answered

## Main results

* `Alone.look`: a call that changes no file
* `Alone.alter`: a call that changes files
* `writeAsBytes_wp`, `delete_wp`, `rename_wp`: what such a call leaves, for each of its outcomes
-/

namespace CajaSegura

open Codec Async
open Program hiding bind

variable {P : Platform}

/-! ## Files that are where their paths lead -/

/-- What a write of `b` to the file `k` makes of the files. -/
def WriteEnds (files : Key → Option Bytes) (k : Key) (b : Bytes) (o : WriteOutcome)
    (r : Except DartError Unit) (files' : Key → Option Bytes) : Prop :=
  (o = .done ∧ r = .ok () ∧ files' = Function.update files k (some b)) ∨
    ∃ e, r = .error e ∧ (o = .fails e ∧ files' = files ∨
      ∃ n, o = .cut n e ∧ files' = Function.update files k (some (b.take n)))

/-- A write to a file of a directory that exists. -/
theorem Fs.onWrite_of_resolve {fs : Fs} {f : File} {k : Key} (h : fs.resolve f = some k)
    (hd : fs.dirs k.dir = true) (b : Bytes) (o : WriteOutcome) :
    (fs.onWrite f b o).2.dirs = fs.dirs ∧
      WriteEnds fs.files k b o (fs.onWrite f b o).1 (fs.onWrite f b o).2.files := by
  have hk := And.intro hd (Fs.plain_of_resolve h)
  have hw (b : Bytes) : fs.write f b = some (fs.put k b hk) := by
    rw [Fs.write, h]
    exact dif_pos hk
  cases o with
  | done =>
    rw [Fs.onWrite, hw]
    exact ⟨rfl, .inl ⟨rfl, rfl, rfl⟩⟩
  | fails e => exact ⟨rfl, .inr ⟨e, rfl, .inl ⟨rfl, rfl⟩⟩⟩
  | cut n e =>
    rw [Fs.onWrite, hw]
    exact ⟨rfl, .inr ⟨e, rfl, .inr ⟨n, rfl, rfl⟩⟩⟩

/-- What a deletion of the file `k` makes of the files. -/
def DeleteEnds (files : Key → Option Bytes) (k : Key) (o : DeleteOutcome)
    (r : Except DartError Unit) (files' : Key → Option Bytes) : Prop :=
  (o = .done ∧ r = .ok () ∧ files' = Function.update files k none) ∨
    files' = files ∧ ((∃ e, o = .fails e ∧ r = .error e) ∨ o = .keeps ∧ r = .ok ())

/-- A deletion of a file that is there. -/
theorem Fs.onDelete_of_resolve {fs : Fs} {f : File} {k : Key} {b : Bytes}
    (h : fs.resolve f = some k) (hb : fs.files k = some b) (o : DeleteOutcome) :
    (fs.onDelete f o).2.dirs = fs.dirs ∧
      DeleteEnds fs.files k o (fs.onDelete f o).1 (fs.onDelete f o).2.files := by
  cases o with
  | done =>
    have hr : fs.remove f = some (fs.erase k) := by
      rw [Fs.remove, h]
      simp [hb]
    rw [Fs.onDelete, hr]
    exact ⟨rfl, .inl ⟨rfl, rfl, rfl⟩⟩
  | fails e => exact ⟨rfl, .inr ⟨rfl, .inl ⟨e, rfl, rfl⟩⟩⟩
  | keeps => exact ⟨rfl, .inr ⟨rfl, .inr ⟨rfl, rfl⟩⟩⟩

/-- What renaming the file `k` to `k'` makes of the files. -/
def RenameEnds (files : Key → Option Bytes) (k k' : Key) (o : Option DartError)
    (r : Except DartError Unit) (files' : Key → Option Bytes) : Prop :=
  (o = none ∧ r = .ok () ∧
      files' = Function.update (Function.update files k none) k' (files k)) ∨
    ∃ e, o = some e ∧ r = .error e ∧ files' = files

/-- A file that is there is given another name of its directory. -/
theorem Fs.onRename_of_resolve {fs : Fs} {f t : File} {k k' : Key} {b : Bytes}
    (h : fs.resolve f = some k) (ht : fs.resolve t = some k') (hdir : k'.dir = k.dir)
    (hb : fs.files k = some b) (o : Option DartError) :
    (fs.onRename f t o).2.dirs = fs.dirs ∧
      RenameEnds fs.files k k' o (fs.onRename f t o).1 (fs.onRename f t o).2.files := by
  cases o with
  | none =>
    have hd : (fs.erase k).dirs k'.dir = true ∧ Plain k'.name := by
      refine ⟨?_, Fs.plain_of_resolve ht⟩
      rw [hdir]
      exact (fs.parent k (by simp [hb])).1
    have hw : (fs.erase k).write t b = some ((fs.erase k).put k' b hd) := by
      have hdirs : ∀ p, fs.dirs p = true → (fs.erase k).dirs p = true := fun _ => id
      rw [Fs.write, Fs.resolve_mono hdirs ht]
      simp [hd]
    have hr : fs.rename f t = some ((fs.erase k).put k' b hd) := by
      rw [Fs.rename, Fs.read_of_resolve h, hb, Fs.remove, h]
      simp [hb, hw]
    rw [Fs.onRename, hr]
    refine ⟨rfl, .inl ⟨rfl, rfl, ?_⟩⟩
    rw [hb]
    rfl
  | some e => exact ⟨rfl, .inr ⟨e, rfl, rfl, rfl⟩⟩

/-! ## Files that may not be there -/

/-- A call touches at most the file that its path leads to. -/
theorem Fs.onDelete_files (fs : Fs) (f : File) (o : DeleteOutcome) :
    (fs.onDelete f o).2.files = fs.files ∨ o = .done ∧ ∃ k, fs.resolve f = some k ∧
      (fs.onDelete f o).2.files = Function.update fs.files k none := by
  cases o with
  | done =>
    cases hr : fs.resolve f with
    | none =>
      refine .inl ?_
      rw [Fs.onDelete, Fs.remove, hr]
      rfl
    | some k =>
      cases hb : fs.files k with
      | none =>
        refine .inl ?_
        rw [Fs.onDelete, Fs.remove, hr]
        simp only [hb, Option.map_none]
        rfl
      | some b => 
        rcases Fs.onDelete_of_resolve hr hb .done with ⟨-, ⟨-, -, hf⟩ | ⟨hf, -⟩⟩
        · exact .inr ⟨rfl, k, rfl, hf⟩
        · exact .inl hf
  | fails e => exact .inl rfl
  | keeps => exact .inl rfl

theorem Fs.onWrite_files (fs : Fs) (f : File) (b : Bytes) (o : WriteOutcome) :
    (fs.onWrite f b o).2.files = fs.files ∨ (∀ e, o ≠ .fails e) ∧ ∃ k s, fs.resolve f = some k ∧
      s <+: b ∧ (fs.onWrite f b o).2.files = Function.update fs.files k (some s) := by
  have hcommit (t : Bytes) (ht : t <+: b) : (fs.commit f (fs.write f t)).2.files = fs.files ∨
      ∃ k s, fs.resolve f = some k ∧ s <+: b ∧
        (fs.commit f (fs.write f t)).2.files = Function.update fs.files k (some s) := by
    unfold Fs.write
    cases hr : fs.resolve f with
    | none => exact .inl rfl
    | some k =>
      by_cases hk : fs.dirs k.dir = true ∧ Plain k.name
      · simp only [dif_pos hk]
        exact .inr ⟨k, t, rfl, ht, rfl⟩
      · simp only [dif_neg hk]
        exact .inl rfl
  cases o with
  | done => exact (hcommit b List.prefix_rfl).imp id fun h => ⟨nofun, h⟩
  | fails e => exact .inl rfl
  | cut n e => exact (hcommit _ (List.take_prefix n b)).imp id fun h => ⟨nofun, h⟩

theorem Fs.onRename_files (fs : Fs) (f t : File) (o : Option DartError) :
    (fs.onRename f t o).2.files = fs.files ∨ o = none ∧ ∃ k b, fs.resolve f = some k ∧
      fs.files k = some b ∧ ∃ k', fs.resolve t = some k' ∧ (fs.onRename f t o).2.files =
        Function.update (Function.update fs.files k none) k' (some b) := by
  cases o with
  | some e => exact .inl rfl
  | none =>
    cases hr : fs.read f with
    | none =>
      refine .inl ?_
      rw [Fs.onRename, Fs.rename, hr]
      rfl
    | some b =>
      obtain ⟨k, hk, hb⟩ := Option.bind_eq_some_iff.mp hr
      have hrm : fs.remove f = some (fs.erase k) := by
        rw [Fs.remove, hk]
        simp [hb]
      rw [Fs.onRename, Fs.rename, hr]
      simp only [hrm, Option.bind_some]
      have hdirs : (fs.erase k).dirs = fs.dirs := rfl
      have he := Fs.resolve_congr hdirs t
      unfold Fs.write
      rw [he]
      -- the name leads nowhere, or no file can be there
      cases ht : fs.resolve t with
      | none => exact .inl rfl
      | some k' =>
        by_cases hk' : (fs.erase k).dirs k'.dir = true ∧ Plain k'.name
        · simp only [dif_pos hk']
          exact .inr ⟨trivial, k, b, hk, hb, k', rfl, rfl⟩
        · simp only [dif_neg hk']
          exact .inl rfl

/-- A copy is made of a file that is there, into a directory that exists. -/
theorem Fs.onCopy_ends (fs : Fs) (f t : File) (o : Option DartError) :
    (∃ e, fs.onCopy f t o = (.error e, fs)) ∨ o = none ∧ ∃ b k fs', fs.read f = some b ∧
      fs.resolve t = some k ∧ fs'.dirs = fs.dirs ∧ fs'.files = Function.update fs.files k (some b) ∧
      fs.onCopy f t o = (.ok (), fs') := by
  cases o with
  | some e => exact .inl ⟨e, rfl⟩
  | none =>
    cases hb : fs.read f with
    | none => exact .inl ⟨_, by rw [Fs.onCopy, hb]; rfl⟩
    | some b =>
      cases hk : fs.resolve t with
      | none => exact .inl ⟨_, by rw [Fs.onCopy, hb, Option.bind_some, Fs.write, hk]; rfl⟩
      | some k =>
        by_cases hd : fs.dirs k.dir = true ∧ Plain k.name
        · refine .inr ⟨rfl, b, k, fs.put k b hd, rfl, rfl, rfl, rfl, ?_⟩
          rw [Fs.onCopy, hb, Option.bind_some, Fs.write, hk]
          simp only [dif_pos hd]
          rfl
        · refine .inl ⟨.fileSystem "Cannot open file".toList f.path, ?_⟩
          rw [Fs.onCopy, hb, Option.bind_some, Fs.write, hk]
          simp only [dif_neg hd]
          rfl

/-! ## Directories -/

theorem Fs.dirs_write {fs fs' : Fs} {f : File} {b : Bytes} (h : fs.write f b = some fs') :
    fs'.dirs = fs.dirs := by
  unfold Fs.write at h
  split at h
  · split at h
    · cases h
      rfl
    · cases h
  · cases h

theorem Fs.dirs_remove {fs fs' : Fs} {f : File} (h : fs.remove f = some fs') :
    fs'.dirs = fs.dirs := by
  unfold Fs.remove at h
  split at h
  · obtain ⟨_, -, rfl⟩ := Option.map_eq_some_iff.mp h
    rfl
  · cases h

theorem Fs.dirs_rename {fs fs' : Fs} {f t : File} (h : fs.rename f t = some fs') :
    fs'.dirs = fs.dirs := by
  unfold Fs.rename at h
  split at h
  · obtain ⟨fs₁, h₁, h₂⟩ := Option.bind_eq_some_iff.mp h
    exact (dirs_write h₂).trans (dirs_remove h₁)
  · cases h

theorem Fs.dirs_copy {fs fs' : Fs} {f t : File}
    (h : ((fs.read f).bind fun b => fs.write t b) = some fs') : fs'.dirs = fs.dirs := by
  obtain ⟨b, -, h⟩ := Option.bind_eq_some_iff.mp h
  exact dirs_write h

theorem Fs.dirs_commit {fs : Fs} {f : File} {fs' : Option Fs}
    (h : ∀ fs₁, fs' = some fs₁ → fs₁.dirs = fs.dirs) : (fs.commit f fs').2.dirs = fs.dirs := by
  cases fs' with
  | none => rfl
  | some fs₁ => exact h fs₁ rfl

/-- No call removes a directory. -/
theorem World.dirs_exec (w : World) (op : Op) (o : Outcome op) (p : Path)
    (hp : w.fs.dirs p = true) : (w.exec P op o).2.fs.dirs p = true := by
  by_cases hm : op.Mutates
  case neg => exact (World.quiet_exec w hm o).dirs p hp
  suffices h : (w.exec P op o).2.fs.dirs = w.fs.dirs by rw [h, hp]
  cases op with
  | writeAsBytes f b =>
    cases o with
    | done => exact Fs.dirs_commit fun _ => Fs.dirs_write
    | fails e => rfl
    | cut n e => exact Fs.dirs_commit fun _ => Fs.dirs_write
  | delete f =>
    cases o with
    | done => exact Fs.dirs_commit fun _ => Fs.dirs_remove
    | fails e => rfl
    | keeps => rfl
  | rename f t =>
    cases o with
    | none => exact Fs.dirs_commit fun _ => Fs.dirs_rename
    | some e => rfl
  | copy f t =>
    cases o with
    | none => exact Fs.dirs_commit fun _ => Fs.dirs_copy
    | some e => rfl
  | storageWrite v => cases o <;> rfl
  | storageDelete => cases o <;> rfl
  | backgroundWrite v => cases o <;> rfl
  | backgroundDelete => cases o <;> rfl
  | getPreferences => cases o <;> rfl
  | setPreference k v => rcases o with e | (_ | _) <;> rfl
  | removePreference k => rcases o with e | (_ | _) <;> rfl
  | _ => exact absurd hm id

/-! ## Programs that are alone with the files -/

/-- The files are changed, and the answers are now these. -/
def World.refile (w : World) (fs : Fs) (as : List (Sigma Outcome)) : World :=
  { w with fs := fs, record := { w.record with answers := as } }

/-- A write that is done, to a file of a directory that exists. -/
theorem World.exec_write {w : World} {f : File} {k : Key} (hf : w.fs.resolve f = some k)
    (hd : w.fs.dirs k.dir = true) (b : Bytes) : ∃ fs : Fs, fs.dirs = w.fs.dirs ∧
      fs.files = Function.update w.fs.files k (some b) ∧
      w.exec P (.writeAsBytes f b) .done =
        (.ok (), w.refile fs (⟨.writeAsBytes f b, .done⟩ :: w.record.answers)) := by
  obtain ⟨hdirs, hends⟩ := Fs.onWrite_of_resolve hf hd b .done
  rcases hends with ⟨-, hr, hfiles⟩ | ⟨e, -, ⟨ho, -⟩ | ⟨n, ho, -⟩⟩
  · exact ⟨_, hdirs, hfiles, congrArg (·, _) hr⟩
  · cases ho
  · cases ho

/-- A deletion that is done, of a file that may be there. -/
theorem World.exec_delete {w : World} {f : File} {k : Key} (hf : w.fs.resolve f = some k) :
    ∃ (r : Except DartError Unit) (fs : Fs), fs.dirs = w.fs.dirs ∧
      fs.files = Function.update w.fs.files k none ∧ (r = .ok () ↔ w.fs.files k ≠ none) ∧
      w.exec P (.delete f) .done = (r, w.refile fs (⟨.delete f, .done⟩ :: w.record.answers)) := by
  cases hb : w.fs.files k with
  | some b =>
    obtain ⟨hdirs, ⟨-, hr, hfiles⟩ | ⟨-, ⟨e, ho, -⟩ | ⟨ho, -⟩⟩⟩ := Fs.onDelete_of_resolve hf hb .done
    · exact ⟨_, _, hdirs, hfiles, iff_of_true hr nofun, rfl⟩
    · cases ho
    · cases ho
  | none =>
    have hsame : Function.update w.fs.files k none = w.fs.files :=
      Function.update_eq_self_iff.mpr hb.symm
    have hremove : w.fs.remove f = none := by
      rw [Fs.remove, hf]
      simp only [hb, Option.map_none]
    refine ⟨.error (.fileSystem "Cannot open file".toList f.path), w.fs, rfl, hsame.symm,
      iff_of_false nofun (not_not.mpr rfl), ?_⟩
    simp only [World.exec, World.effect, World.onFiles, Fs.onDelete, hremove, Fs.commit]
    rfl

/-- An assertion for a program beside which nobody touches the files; the errors of its calls are
due to outcomes for which `F` holds. -/
structure Alone (D : Discipline (device P)) (J : World → Prop) (F : Prop) : Prop
    extends Steady D J where
  draw : ∀ w, J w → D.guarantee w { w with uuids := w.uuids + 1 } ∧
    J { w with uuids := w.uuids + 1 }
  files : ∀ w fs as, J w → J (w.refile fs as)
  fault : ∀ w op o, D.allow w op o → Good w op o ∨ F

theorem Alone.mono {D : Discipline (device P)} {J : World → Prop} {F F' : Prop} (h : Alone D J F)
    (hF : F → F') : Alone D J F' where
  toSteady := h.toSteady
  draw := h.draw
  files := h.files
  fault w op o ho := (h.fault w op o ho).imp_right hF

/-- The buffers and the time zone are those of `w₀`. -/
structure Stays (w₀ w : World) : Prop where
  heap : w.heap = w₀.heap
  zone : w.zone = w₀.zone

/-- While nothing but time passes, a program is alone with the files. -/
theorem alone_of_timePasses {D : Discipline (device P)} {F : Prop} (w₀ : World)
    (hr : ∀ w w', D.rely w w' → TimePasses w w') (hq : ∀ w w', w.Quiet w' → D.guarantee w w')
    (hd : ∀ w, D.guarantee w { w with uuids := w.uuids + 1 })
    (hf : ∀ w op o, D.allow w op o → Good w op o ∨ F) : Alone D (Stays w₀) F where
  rely w w' h ht := by
    refine ⟨?_, (hr w w' ht).calm⟩
    obtain ⟨t, rfl⟩ := hr w w' ht
    exact ⟨h.heap, h.zone⟩
  quiet w w' h hq' := ⟨hq _ _ hq', hq'.heap.trans h.heap, hq'.zone.trans h.zone⟩
  draw w h := ⟨hd _, h.heap, h.zone⟩
  files w fs as h := ⟨h.heap, h.zone⟩
  fault := hf

/-- The calls on files that change none of them. -/
def Op.Looks : Op → Prop
  | .supportDirectory | .dirExists _ | .dirCreate _ | .fileExists _ | .stat _ => True
  | .readAsBytes _ | .encrypt .. | .decrypt .. => True
  | _ => False

theorem Op.Looks.not_mutates {op : Op} (h : op.Looks) : ¬ op.Mutates := by
  cases op <;> first | exact id | exact absurd h id

/-- Such a call that does not work throws. -/
theorem Op.Looks.error {op : Op} (h : op.Looks) {w : World} {o : Outcome op} (ho : ¬ Good w op o) :
    ∃ e, (w.exec P op o).1 = .error e := by
  cases op with
  | supportDirectory => cases o with
    | none => exact absurd rfl ho
    | some e => exact ⟨e, rfl⟩
  | dirExists d => cases o with
    | none => exact absurd rfl ho
    | some e => exact ⟨e, rfl⟩
  | dirCreate d => cases o with
    | none => exact absurd rfl ho
    | some e => exact ⟨e, rfl⟩
  | fileExists f => cases o with
    | none => exact absurd rfl ho
    | some e => exact ⟨e, rfl⟩
  | stat f => cases o with
    | none => exact absurd rfl ho
    | some e => exact ⟨e, rfl⟩
  | readAsBytes f => cases o with
    | none => exact absurd rfl ho
    | some e => exact ⟨e, rfl⟩
  | encrypt c k n => cases o with
    | none => exact absurd rfl ho
    | some e => exact ⟨e, rfl⟩
  | decrypt b k => cases o with
    | none => exact absurd rfl ho
    | some e => exact ⟨e, rfl⟩
  | _ => exact absurd h id

theorem alone_faultless (w₀ : World) : Alone (faultless P) (Stays w₀) False :=
  alone_of_timePasses w₀ (fun _ _ => id) (fun _ _ _ => trivial) (fun _ => trivial) fun _ _ _ => .inl

/-- A call that changes no file, or the return of a function of the application. -/
def Op.Harmless (op : Op) : Prop := op = .hop ∨ op.Looks

/-- The calls by which files are looked at, and the directory of the vault is made. -/
def Op.Sees : Op → Prop
  | .supportDirectory | .dirExists _ | .dirCreate _ | .fileExists _ | .stat _ => True
  | .readAsBytes _ => True
  | _ => False

theorem Op.Sees.looks {op : Op} (h : op.Sees) : op.Looks := by
  cases op <;> first | exact trivial | exact absurd h id

/-- A kind of calls that contains those. -/
structure Seeing (A : Op → Prop) : Prop where
  sees : ∀ op, op.Sees → A op
  hop : A .hop

theorem seeing_harmless : Seeing Op.Harmless where
  sees _ h := .inr h.looks
  hop := .inl rfl

theorem live_faultless : (faultless P).Live Op.Harmless := by
  refine ⟨?_, fun _ _ _ _ => trivial, fun w => ⟨w.now, rfl⟩⟩
  rintro w op (rfl | h)
  · exact ⟨(), trivial⟩
  · cases op <;> first | exact absurd h id | exact ⟨none, rfl⟩

variable {D : Discipline (device P)} {J : World → Prop} {F : Prop}

/-- A call that changes no file, by what it returns when it works. -/
theorem Alone.look (hJ : Alone D J F) {op : Op} (hop : op.Looks) {w : World} (hw : J w)
    {R : Reply op → World → Prop}
    (h : ∀ w₁ o, J w₁ → w.Calm w₁ → D.allow w₁ op o → Good w₁ op o →
      ∃ a, (w₁.exec P op o).1 = .ok a ∧ ∀ w₂, (w₁.exec P op o).2.Calm w₂ → R a w₂) :
    (call op).wp D (Leads J F w R) w := by
  apply hJ.call_leads hop.not_mutates hw
  intro w₁ o hw₁ hc₁ ho
  by_cases hgood : Good w₁ op o
  · obtain ⟨a, ha, hR⟩ := h w₁ o hw₁ hc₁ ho hgood
    rw [ha]
    refine ⟨fun b hb => ?_, fun e he => nomatch he⟩
    cases hb
    exact hR
  · obtain ⟨e, he⟩ := hop.error (P := P) hgood
    rw [he]
    exact ⟨fun a ha => (nomatch ha), fun _ _ => (hJ.fault _ _ _ ho).resolve_left hgood⟩

/-- The reply of a call that looks whether a file is there. -/
theorem fileExists_wp (hJ : Alone D J F) {w : World} (hw : J w) {f : File} {k : Key}
    (hf : w.fs.resolve f = some k) :
    (call (.fileExists f)).wp D (Leads J F w fun b _ => b = (w.fs.files k).isSome) w := by
  apply hJ.look (by trivial) hw
  rintro w₁ o _ hc _ rfl
  refine ⟨_, rfl, fun _ _ => ?_⟩
  rw [Fs.read_of_resolve (Fs.resolve_mono hc.dirs hf), hc.files]

theorem readAsBytes_wp (hJ : Alone D J F) {w : World} (hw : J w) {f : File} {k : Key} {b : Bytes}
    (hf : w.fs.resolve f = some k) (hb : w.fs.files k = some b) :
    (call (.readAsBytes f)).wp D (Leads J F w fun a _ => a = b) w := by
  apply hJ.look (by trivial) hw
  rintro w₁ o _ hc _ rfl
  refine ⟨b, ?_, fun _ _ => rfl⟩
  have hr : w₁.fs.read f = some b := by
    rw [Fs.read_of_resolve (Fs.resolve_mono hc.dirs hf), hc.files, hb]
  simp [World.exec, World.effect, World.readFile, hr]

theorem when_false {b : Bool} {p : App Unit} {w : World} (hb : b = false) (hw : J w) :
    (when b p).wp D (Leads J F w fun _ _ => True) w := by
  subst hb
  exact Leads.pure hw trivial

/-- Only the clock and the record of the answers have changed. -/
structure World.Still (w w' : World) : Prop where
  fs : w'.fs = w.fs
  uuids : w'.uuids = w.uuids
  heap : w'.heap = w.heap
  zone : w'.zone = w.zone
  changes : w'.changes = w.changes

theorem World.Still.trans {w₁ w₂ w₃ : World} (h : w₁.Still w₂) (h' : w₂.Still w₃) : w₁.Still w₃ :=
  ⟨h'.fs.trans h.fs, h'.uuids.trans h.uuids, h'.heap.trans h.heap, h'.zone.trans h.zone,
    h'.changes.trans h.changes⟩

theorem World.Still.calm {w w' : World} (h : w.Still w') : w.Calm w' :=
  ⟨congrArg Fs.files h.fs, fun p hp => by rw [h.fs, hp], h.uuids, h.changes⟩

theorem TimePasses.still {w w' : World} (h : TimePasses w w') : w.Still w' := by
  obtain ⟨t, rfl⟩ := h
  constructor <;> rfl

/-- A look at a file while nothing but time passes. -/
theorem fileExists_still (hJ : Steady D J) (hr : ∀ w w', D.rely w w' → TimePasses w w') {w : World}
    (hw : J w) (f : File) : (call (.fileExists f)).wp D (fun r w' => J w' ∧ w.Still w' ∧
      ((∃ e, r = .error e) ∨ r = .ok (w.fs.read f).isSome)) w := by
  rw [wp_call]
  intro w₁ h₁ o ho
  have hs₁ := (hr _ _ h₁).still
  have hop : ¬ Op.Mutates (.fileExists f) := id
  have hq := World.quiet_exec (P := P) w₁ hop o
  obtain ⟨hg, hj⟩ := hJ.quiet _ _ (hJ.rely _ _ hw h₁).1 hq
  have hfs : (w₁.exec P (.fileExists f) o).2.fs = w₁.fs := by cases o <;> rfl
  have hs₂ : w₁.Still (w₁.exec P (.fileExists f) o).2 := ⟨hfs, hq.uuids, hq.heap, hq.zone, hq.changes⟩
  refine ⟨hg, fun w₂ h₂ _ => ⟨(hJ.rely _ _ hj h₂).1,
    (hs₁.trans hs₂).trans (hr _ _ h₂).still, ?_⟩⟩
  cases o with
  | none =>
    refine .inr ?_
    rw [← hs₁.fs]
    rfl
  | some e => exact .inl ⟨e, rfl⟩

/-- The return of a function of the application while nothing but time passes. -/
theorem awaited_still (hJ : Steady D J) (hr : ∀ w w', D.rely w w' → TimePasses w w') {w : World}
    (hw : J w) {α : Type} (a : α) : (awaited (pure a)).wp D (fun r w' => J w' ∧ w.Still w' ∧
      r = .ok a) w := by
  rw [wp_awaited, wp_pure, wp_call]
  intro w₁ h₁ o ho
  have hs₁ := (hr _ _ h₁).still
  have hop : ¬ Op.Mutates .hop := id
  have hq := World.quiet_exec (P := P) w₁ hop o
  obtain ⟨hg, hj⟩ := hJ.quiet _ _ (hJ.rely _ _ hw h₁).1 hq
  have hs₂ : w₁.Still (w₁.exec P .hop o).2 := ⟨rfl, hq.uuids, hq.heap, hq.zone, hq.changes⟩
  exact ⟨hg, fun w₂ h₂ _ => ⟨(hJ.rely _ _ hj h₂).1, (hs₁.trans hs₂).trans (hr _ _ h₂).still, rfl⟩⟩

/-! ## Calls that change files -/

/-- The discipline grants the program the changes of the files to those in `S`. -/
def Alters (D : Discipline (device P)) (J : World → Prop) (w : World)
    (S : (Key → Option Bytes) → Prop) : Prop :=
  ∀ w₁ fs as, J w₁ → w.Calm w₁ → fs.dirs = w₁.fs.dirs → S fs.files →
    D.guarantee w₁ (w₁.refile fs as)

/-- A call that can change files has been answered with the outcome `o`. -/
structure Answered (D : Discipline (device P)) (J : World → Prop) (w : World) (op : Op)
    (o : Outcome op) (w' : World) : Prop where
  allow : ∃ w₁, D.allow w₁ op o
  keeps : J w'
  dirs : ∀ p, w.fs.dirs p = true → w'.fs.dirs p = true
  uuids : w'.uuids = w.uuids
  changes : w'.changes = ⟨op, o⟩ :: w.changes

/-- A call that changes nothing but files, by its replies and the files it leaves. -/
theorem Alone.alter (hJ : Alone D J F) (op : Op) (hop : op.Mutates) {w : World} (hw : J w)
    {S : (Key → Option Bytes) → Prop} (hg : Alters D J w S)
    (R : (o : Outcome op) → Except DartError (Reply op) → (Key → Option Bytes) → Prop)
    (h : ∀ w₁ o, w.Calm w₁ → ∃ x : Except DartError (Reply op) × Fs,
      w₁.effect P op o = w₁.onFiles x ∧ x.2.dirs = w₁.fs.dirs ∧ S x.2.files ∧ R o x.1 x.2.files) :
    (call op).wp D (fun r w' => ∃ o, Answered D J w op o w' ∧ R o r w'.fs.files) w := by
  apply hJ.wp_mutate hw
  intro w₁ o hw₁ hc₁ ho
  obtain ⟨x, hx, hd, hS, hR⟩ := h w₁ o hc₁
  have hch := World.changes_exec (P := P) w₁ hop o
  have hexec : w₁.exec P op o = (x.1, w₁.refile x.2 (⟨op, o⟩ :: w₁.record.answers)) := by
    unfold World.exec
    rw [hx]
    rfl
  rw [hexec] at hch ⊢
  refine ⟨⟨hg w₁ _ _ hw₁ hc₁ hd hS, hJ.files _ _ _ hw₁⟩, fun w₂ hw₂ hc₂ => ⟨o, ?_, ?_⟩⟩
  · refine ⟨⟨w₁, ho⟩, hw₂, fun p hp => hc₂.dirs p ?_, hc₂.uuids.trans hc₁.uuids, ?_⟩
    · exact (congrFun hd p).trans (hc₁.dirs p hp)
    · rw [hc₂.changes, hch, hc₁.changes]
  · rw [hc₂.files]
    exact hR

/-- What a discipline asks of a write. -/
def Writes (D : Discipline (device P)) (J : World → Prop) (w : World) (k : Key) (b : Bytes) :
    Prop :=
  Alters D J w fun files => files = w.fs.files ∨
    ∃ s, s <+: b ∧ files = Function.update w.fs.files k (some s)

theorem writeAsBytes_wp (hJ : Alone D J F) {w : World} (hw : J w) {f : File} {k : Key} {b : Bytes}
    (hf : w.fs.resolve f = some k) (hd : w.fs.dirs k.dir = true) (hg : Writes D J w k b) :
    (call (.writeAsBytes f b)).wp D (fun r w' => ∃ o, Answered D J w (.writeAsBytes f b) o w' ∧
      WriteEnds w.fs.files k b o r w'.fs.files) w := by
  apply hJ.alter (.writeAsBytes f b) trivial hw hg (WriteEnds w.fs.files k b)
  intro w₁ o hc
  refine ⟨w₁.fs.onWrite f b o, rfl, ?_⟩
  obtain ⟨hdirs, hends⟩ := Fs.onWrite_of_resolve (Fs.resolve_mono hc.dirs hf) (hc.dirs _ hd) b o
  rw [hc.files] at hends
  refine ⟨hdirs, ?_, hends⟩
  rcases hends with ⟨-, -, hfiles⟩ | ⟨e, -, ⟨-, hfiles⟩ | ⟨n, -, hfiles⟩⟩
  · exact .inr ⟨b, List.prefix_rfl, hfiles⟩
  · exact .inl hfiles
  · exact .inr ⟨_, List.take_prefix n b, hfiles⟩

/-- What a discipline asks of a deletion. -/
def Deletes (D : Discipline (device P)) (J : World → Prop) (w : World) (k : Key) : Prop :=
  Alters D J w fun files => files = w.fs.files ∨ files = Function.update w.fs.files k none

theorem delete_wp (hJ : Alone D J F) {w : World} (hw : J w) {f : File} {k : Key} {b : Bytes}
    (hf : w.fs.resolve f = some k) (hb : w.fs.files k = some b) (hg : Deletes D J w k) :
    (call (.delete f)).wp D (fun r w' => ∃ o, Answered D J w (.delete f) o w' ∧
      DeleteEnds w.fs.files k o r w'.fs.files) w := by
  apply hJ.alter (.delete f) trivial hw hg (DeleteEnds w.fs.files k)
  intro w₁ o hc
  refine ⟨w₁.fs.onDelete f o, rfl, ?_⟩
  obtain ⟨hdirs, hends⟩ :=
    Fs.onDelete_of_resolve (Fs.resolve_mono hc.dirs hf) (hc.files ▸ hb) o
  rw [hc.files] at hends
  refine ⟨hdirs, ?_, hends⟩
  rcases hends with ⟨-, -, hfiles⟩ | ⟨hfiles, -⟩
  · exact .inr hfiles
  · exact .inl hfiles

/-- What a discipline asks of a change of names. -/
def Renames (D : Discipline (device P)) (J : World → Prop) (w : World) (k k' : Key) : Prop :=
  Alters D J w fun files => files = w.fs.files ∨
    files = Function.update (Function.update w.fs.files k none) k' (w.fs.files k)

theorem rename_wp (hJ : Alone D J F) {w : World} (hw : J w) {f t : File} {k k' : Key} {b : Bytes}
    (hf : w.fs.resolve f = some k) (ht : w.fs.resolve t = some k') (hdir : k'.dir = k.dir)
    (hb : w.fs.files k = some b) (hg : Renames D J w k k') :
    (call (.rename f t)).wp D (fun r w' => ∃ o, Answered D J w (.rename f t) o w' ∧
      RenameEnds w.fs.files k k' o r w'.fs.files) w := by
  apply hJ.alter (.rename f t) trivial hw hg (RenameEnds w.fs.files k k')
  intro w₁ o hc
  refine ⟨w₁.fs.onRename f t o, rfl, ?_⟩
  obtain ⟨hdirs, hends⟩ := Fs.onRename_of_resolve (Fs.resolve_mono hc.dirs hf)
    (Fs.resolve_mono hc.dirs ht) hdir (hc.files ▸ hb) o
  rw [hc.files] at hends
  refine ⟨hdirs, ?_, hends⟩
  rcases hends with ⟨-, -, hfiles⟩ | ⟨e, -, -, hfiles⟩
  · exact .inr hfiles
  · exact .inl hfiles

/-! ## Stretches that change files -/

/-- A moment at which the calls `l` have been answered since `w₀` and the files are `files`. -/
structure After (J : World → Prop) (w₀ : World) (l : List (Sigma Outcome))
    (files : Key → Option Bytes) (w : World) : Prop where
  keeps : J w
  dirs : ∀ p, w₀.fs.dirs p = true → w.fs.dirs p = true
  uuids : w.uuids = w₀.uuids
  changes : w.changes = l ++ w₀.changes
  files : w.fs.files = files

variable {w₀ w w' : World} {l : List (Sigma Outcome)} {files files' : Key → Option Bytes}

theorem After.refl (hw : J w) : After J w [] w.fs.files w := ⟨hw, fun _ => id, rfl, rfl, rfl⟩

theorem After.calm (h : After J w₀ l files w) (hw' : J w') (hc : w.Calm w') :
    After J w₀ l files w' :=
  ⟨hw', fun p hp => hc.dirs p (h.dirs p hp), hc.uuids.trans h.uuids, hc.changes.trans h.changes,
    hc.files.trans h.files⟩

theorem After.answered {op : Op} {o : Outcome op} (h : After J w₀ l files w)
    (ha : Answered D J w op o w') (hf : w'.fs.files = files') :
    After J w₀ (⟨op, o⟩ :: l) files' w' :=
  ⟨ha.keeps, fun p hp => ha.dirs p (h.dirs p hp), ha.uuids.trans h.uuids,
    by rw [ha.changes, h.changes, List.cons_append], hf⟩

end CajaSegura
