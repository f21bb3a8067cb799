import CajaSegura.Platform.Sample
import CajaSegura.Services.MoveRules

/-!
# Moving a file into the vault

An import that moves its source, under every sequence of outcomes of its calls on files.

## Main definitions

* `moves`: any call on files may throw without effect, and a deletion may leave the file
* `Recoverable`: the contents are in the source, under a temporary name or in the vault
* `Lost`: the source was emptied without having been renamed, and the entry was erased

## Main results

* `VaultRepository.importFile_recoverable_iff`: the contents are recoverable unless `Lost`
-/

namespace CajaSegura

open Codec Async
open Program hiding bind

variable {P : Platform}

/-! ## The disciplines -/

/-- Calls on files may throw without effect and a deletion may leave the file; looking whether a
file is there works. -/
def FailsWhole : (op : Op) → Outcome op → Prop
  | .fileExists _, o => o = none
  | .writeAsBytes .., o => ∀ n e, o ≠ .cut n e
  | _, _ => True

/-- A program that runs alone, any of whose calls on files may fail. -/
def moves (P : Platform) : Discipline (device P) where
  allow _ := FailsWhole
  deliver := fun _ _ _ => True
  rely := TimePasses
  guarantee := fun _ _ => True

theorem moves_moves (w₀ : World) : Moves (moves P) (Stays w₀) True where
  toAlone := alone_of_timePasses w₀ (fun _ _ => id) (fun _ _ _ => trivial) (fun _ => trivial)
    fun _ _ _ _ => .inr trivial
  free _ _ := trivial
  looks _ _ _ := id
  whole _ _ _ n e h := h n e rfl

/-! ## Recoverable contents -/

/-- The contents `b` of a source can be had again after the calls `l`. -/
def Recoverable (P : Platform) (source : File) (kek : Ref) (id : Text) (b : Bytes)
    (l : List (Sigma Outcome)) (w : World) : Prop :=
  w.fs.read source = some b ∨ (∃ t, RenamedTo source t l ∧ w.fs.read t = some b) ∨
    (VaultRepository.exportClear P id kek).Returns (faultless P) w b

/-- The source was emptied, never renamed, and a file of the entry was erased. -/
def Lost (P : Platform) (source : File) (id : Text) (l : List (Sigma Outcome)) : Prop :=
  Overwrote source l ∧ (∀ t, ¬ RenamedTo source t l) ∧
    (Erased (dataFileOf (vaultDir P) id) l ∨ Erased (metaFileOf (vaultDir P) id) l)

/-- The calls by which the files of an entry are written and erased. -/
def OfEntry (P : Platform) (id : Text) (op : Op) : Prop :=
  ∃ f, (f = dataFileOf (vaultDir P) id ∨ f = metaFileOf (vaultDir P) id) ∧
    ((∃ b, op = .writeAsBytes f b) ∨ op = .delete f)

variable {source : File} {sk : Key} {id : Text} {l l' : List (Sigma Outcome)}

/-- The two writes of an import are on the files of its entry. -/
theorem ofEntry_of_writes {cipher text : Bytes} (hl : ∀ a ∈ l,
    a.1 = .writeAsBytes (dataFileOf (vaultDir P) id) cipher ∨
      a.1 = .writeAsBytes (metaFileOf (vaultDir P) id) text) : ∀ a ∈ l, OfEntry P id a.1 := by
  intro a ha
  rcases hl a ha with h | h
  · exact ⟨_, .inl rfl, .inl ⟨_, h⟩⟩
  · exact ⟨_, .inr rfl, .inl ⟨_, h⟩⟩

/-- Calls on the files of an entry neither empty nor rename another file. -/
theorem not_overwrote_of_entry (hs : source ≠ dataFileOf (vaultDir P) id ∧
    source ≠ metaFileOf (vaultDir P) id) (hl : ∀ a ∈ l, OfEntry P id a.1) :
    ¬ Overwrote source l ∧ ∀ t, ¬ RenamedTo source t l := by
  constructor
  · intro h
    obtain ⟨f, hf, ⟨b, ho⟩ | ho⟩ := hl _ h
    · obtain ⟨rfl, -⟩ : source = f ∧ [] = b := by simpa using ho
      exact hf.elim hs.1 hs.2
    · cases ho
  · intro t h
    obtain ⟨f, hf, ⟨b, ho⟩ | ho⟩ := hl _ h <;> cases ho

/-- The removal of a source erases no file of an entry to which it does not belong. -/
theorem not_erased_of_source {f : File} {fs : Fs} {k : Key} (hs : fs.resolve source = some sk)
    (hf : fs.resolve f = some k) (hne : k ≠ sk) (htemp : ∀ now, tempKey sk now ≠ k)
    (hl : ∀ a ∈ l, OfSource source a.1) : ¬ Erased f l := by
  intro h
  have hof : OfSource source (.delete f) := hl _ h
  cases hof with
  | delete => exact hne (Option.some.inj (hf.symm.trans hs))
  | deleteTemp now => exact htemp now (Option.some.inj ((resolve_temp hs now).symm.trans hf))

/-- A file with contents that is none of the files of an entry. -/
structure Source (P : Platform) (w : World) (source : File) (sk : Key) (b : Bytes) (id : Text) :
    Prop where
  resolve : w.fs.resolve source = some sk
  files : w.fs.files sk = some b
  ne_nil : b ≠ []
  plain : '/' ∉ id
  id_ne_nil : id ≠ []
  ne_data : sk ≠ dataKey P id
  ne_meta : sk ≠ metaKey P id

/-- The contents are recoverable after the calls since `w` unless these have lost them. -/
def Fares (P : Platform) (source : File) (kek : Ref) (id : Text) (b : Bytes) (w w' : World) :
    Prop :=
  ∃ l, w'.changes = l ++ w.changes ∧
    (Recoverable P source kek id b l w' ↔ ¬ Lost P source id l)

variable {w w' : World} {kek : Ref} {b : Bytes}

/-- The files of an entry that is not there yet are other files than the source. -/
theorem Source.of_fresh (hb : w.fs.read source = some b) (hne : b ≠ [])
    (hfresh : w.fs.files (dataKey P (P.uuid w.uuids)) = none ∧
      w.fs.files (metaKey P (P.uuid w.uuids)) = none) :
    ∃ sk, Source P w source sk b (P.uuid w.uuids) := by
  obtain ⟨sk, hs, hb⟩ := Option.bind_eq_some_iff.mp hb
  refine ⟨sk, hs, hb, hne, (P.uuid_plain _).1, (P.uuid_plain _).2, ?_, ?_⟩
  · rintro rfl
    cases hb.symm.trans hfresh.1
  · rintro rfl
    cases hb.symm.trans hfresh.2

theorem Source.ne_files (hS : Source P w source sk b id) :
    source ≠ dataFileOf (vaultDir P) id ∧ source ≠ metaFileOf (vaultDir P) id := by
  constructor
  · rintro rfl
    exact hS.ne_data (Option.some.inj (hS.resolve.symm.trans (resolve_data w.fs hS.plain)))
  · rintro rfl
    exact hS.ne_meta (Option.some.inj (hS.resolve.symm.trans (resolve_meta w.fs hS.plain)))

/-- The removal of the source erases no file of the entry. -/
theorem Source.not_erased (hS : Source P w source sk b id)
    (hl : ∀ a ∈ l, OfSource source a.1) :
    ¬ (Erased (dataFileOf (vaultDir P) id) l ∨ Erased (metaFileOf (vaultDir P) id) l) := by
  rintro (h | h)
  · exact not_erased_of_source hS.resolve (resolve_data w.fs hS.plain) hS.ne_data.symm
      (fun now => tempKey_ne_dataKey sk now id) hl h
  · exact not_erased_of_source hS.resolve (resolve_meta w.fs hS.plain) hS.ne_meta.symm
      (fun now => tempKey_ne_metaKey sk now id) hl h

/-- The source is as it was. -/
theorem Source.fares_kept (hS : Source P w source sk b id)
    (hd : ∀ p, w.fs.dirs p = true → w'.fs.dirs p = true) (hf : w'.fs.files sk = some b)
    (hl : w'.changes = l ++ w.changes) (hw : ¬ Overwrote source l) :
    Fares P source kek id b w w' := by
  refine ⟨l, hl, iff_of_true (.inl ?_) fun h => hw h.1⟩
  rw [Fs.read_of_resolve (Fs.resolve_mono hd hS.resolve), hf]

/-- The contents are under the temporary name. -/
theorem Source.fares_renamed (hS : Source P w source sk b id)
    (hd : ∀ p, w.fs.dirs p = true → w'.fs.dirs p = true) {now : Instant}
    (hf : w'.fs.files (tempKey sk now) = some b) (hl : w'.changes = l ++ w.changes)
    (hr : RenamedTo source (VaultRepository.tempFileOf source now) l) :
    Fares P source kek id b w w' := by
  refine ⟨l, hl, iff_of_true (.inr (.inl ⟨_, hr, ?_⟩)) fun h => h.2.1 _ hr⟩
  rw [Fs.read_of_resolve (Fs.resolve_mono hd (resolve_temp hS.resolve now)), hf]

/-- The entry is in the vault. -/
theorem Source.fares_imported (hS : Source P w source sk b id) (hkek : (w'.heap kek).length = 32)
    (hf : Holds P (w'.heap kek) w'.zone w'.fs.files id b) (hl : w'.changes = l ++ w.changes)
    (he : ¬ (Erased (dataFileOf (vaultDir P) id) l ∨ Erased (metaFileOf (vaultDir P) id) l)) :
    Fares P source kek id b w w' := by
  refine ⟨l, hl, iff_of_true (.inr (.inr ?_)) fun h => he h.2.2⟩
  exact VaultRepository.exportClear_returns hkek hS.plain hS.id_ne_nil hf

/-- The source is empty, has no other name, and a file of the entry is gone. -/
theorem Source.fares_lost (hS : Source P w source sk b id) (hkek : (w'.heap kek).length = 32)
    (hd : ∀ p, w.fs.dirs p = true → w'.fs.dirs p = true) (hf : w'.fs.files sk = some [])
    (hgone : w'.fs.files (dataKey P id) = none ∨ w'.fs.files (metaKey P id) = none)
    (hl : w'.changes = l ++ w.changes) (hlost : Lost P source id l) :
    Fares P source kek id b w w' := by
  refine ⟨l, hl, iff_of_false ?_ fun h => h hlost⟩
  rintro (h | ⟨t, ht, -⟩ | h)
  · rw [Fs.read_of_resolve (Fs.resolve_mono hd hS.resolve), hf] at h
    exact hS.ne_nil (Option.some.inj h).symm
  · exact hlost.2.1 t ht
  · exact h.not_throws (VaultRepository.exportClear_throws hkek hS.plain hgone.symm)

namespace VaultRepository

/-- The removal of the source and, when it fails, of the entry. -/
theorem moveSource_fares (hS : Source P w source sk b id) {w₁ : World} (hw₁ : Stays w w₁)
    (hkek : (w.heap kek).length = 32)
    (hd : ∀ p, w.fs.dirs p = true → w₁.fs.dirs p = true) (hf : w₁.fs.files sk = some b)
    (h : Holds P (w.heap kek) w.zone w₁.fs.files id b)
    (hl : w₁.changes = l ++ w.changes) (hle : ∀ a ∈ l, OfEntry P id a.1)
    (hln : ¬ (Erased (dataFileOf (vaultDir P) id) l ∨ Erased (metaFileOf (vaultDir P) id) l)) :
    (moveSource source (dataFileOf (vaultDir P) id) (metaFileOf (vaultDir P) id)).wp (moves P)
      (fun _ w' => Fares P source kek id b w w') w₁ := by
  have hD : Moves (moves P) (Stays w) True := moves_moves w
  have hs : w₁.fs.resolve source = some sk := Fs.resolve_mono hd hS.resolve
  have hdir : w₁.fs.dirs sk.dir = true := (w₁.fs.parent sk (by simp [hf])).1
  have hentry {files' : Key → Option Bytes} (hd : files' (dataKey P id) = w₁.fs.files (dataKey P id))
      (hm : files' (metaKey P id) = w₁.fs.files (metaKey P id)) :
      Holds P (w.heap kek) w.zone files' id b := by
    obtain ⟨m, cipher, hE, hmeta, hdata⟩ := h
    exact ⟨m, cipher, hE, hm.trans hmeta, hd.trans hdata⟩
  unfold moveSource
  rw [wp_tryCatch]
  refine wp_mono _ ?_ (deleteSource_wp hD (.refl hw₁) hs hdir hf)
  rintro r w₂ ⟨l', hl', hr, h₂⟩
  rw [List.append_nil] at h₂
  have hdata := hr.of_ne hS.ne_data.symm fun now => (tempKey_ne_dataKey sk now id).symm
  have hmeta := hr.of_ne hS.ne_meta.symm fun now => (tempKey_ne_metaKey sk now id).symm
  have hdirs₂ : ∀ p, w.fs.dirs p = true → w₂.fs.dirs p = true := fun p hp => h₂.dirs p (hd p hp)
  have hheap (w' : World) (hw' : Stays w w') : (w'.heap kek).length = 32 := by
    rw [hw'.heap, hkek]
  -- what the removal and the writes have done, whatever the cleaning adds
  have hlog {l₂ : List (Sigma Outcome)} (hl₂ : ∀ a ∈ l₂, OfEntry P id a.1) :
      (Overwrote source (l₂ ++ l' ++ l) ↔ Overwrote source l') ∧
      (∀ t, RenamedTo source t (l₂ ++ l' ++ l) ↔ RenamedTo source t l') ∧
      (Erased (dataFileOf (vaultDir P) id) (l₂ ++ l' ++ l) ∨
          Erased (metaFileOf (vaultDir P) id) (l₂ ++ l' ++ l) ↔
        Erased (dataFileOf (vaultDir P) id) l₂ ∨ Erased (metaFileOf (vaultDir P) id) l₂) := by
    have h₁ := not_overwrote_of_entry hS.ne_files hle
    have h₂ := not_overwrote_of_entry hS.ne_files hl₂
    have h₃ := hS.not_erased hl'
    unfold Overwrote RenamedTo Erased at *
    simp only [List.mem_append]
    grind
  have hchanges {l₂ : List (Sigma Outcome)} {w' : World} (h' : w'.changes = l₂ ++ l' ++ w₁.changes) :
      w'.changes = l₂ ++ l' ++ l ++ w.changes := by
    rw [h', hl, List.append_assoc _ l]
  cases r with
  -- the move has succeeded, and the entry is as it was written
  | ok a =>
    dsimp only
    have hl₂ : w₂.changes = [] ++ l' ++ l ++ w.changes := hchanges h₂.changes
    have hnil : ∀ a ∈ ([] : List (Sigma Outcome)), OfEntry P id a.1 := nofun
    obtain ⟨-, -, her⟩ := hlog hnil
    refine hS.fares_imported (hheap w₂ h₂.keeps) ?_ hl₂ ?_
    · rw [h₂.keeps.heap, h₂.keeps.zone]
      exact hentry hdata hmeta
    · exact her.not.mpr (by simp [Erased])
  | error e =>
    obtain ⟨m, cipher, -, hbm, hbd⟩ := h
    dsimp only
    rw [wp_bind]
    refine wp_mono _ ?_ (cleanUp_wp hD h₂ (resolve_data w₁.fs hS.plain) (resolve_meta w₁.fs hS.plain)
      (dataKey_ne_metaKey id id) (hdata.trans hbd) (hmeta.trans hbm))
    rintro _ w₃ ⟨rfl, l₂, hclean, h₃⟩
    have hl₂ : ∀ a ∈ l₂, OfEntry P id a.1 := fun a ha =>
      (hclean.calls a ha).elim (fun h => ⟨_, .inl rfl, .inr h⟩) fun h => ⟨_, .inr rfl, .inr h⟩
    have hl₃ := hchanges h₃.changes
    obtain ⟨ho, hren, her⟩ := hlog hl₂
    have hdirs₃ : ∀ p, w.fs.dirs p = true → w₃.fs.dirs p = true := fun p hp =>
      h₃.dirs p (hd p hp)
    have hsk := hclean.others sk hS.ne_data hS.ne_meta
    generalize w₂.fs.files = files₂ at hr hdata hmeta hclean hsk
    cases hr with
    -- the source still has its contents
    | kept _ hl => exact hS.fares_kept hdirs₃ (hsk.trans hf) hl₃ (ho.not.mpr hl.overwrote)
    -- it is empty, so all depends on the entry that is being cleaned up
    | emptied _ hw hn =>
      rw [Function.update_self] at hsk
      by_cases he : Erased (dataFileOf (vaultDir P) id) l₂ ∨ Erased (metaFileOf (vaultDir P) id) l₂
      · exact hS.fares_lost (hheap w₃ h₃.keeps) hdirs₃ hsk (hclean.erased he) hl₃
          ⟨ho.mpr hw, fun t => (hren t).not.mpr (hn t), her.mpr he⟩
      · refine hS.fares_imported (hheap w₃ h₃.keeps) ?_ hl₃ (her.not.mpr he)
        rw [h₃.keeps.heap, h₃.keeps.zone, hclean.untouched he]
        exact hentry hdata hmeta
    -- the contents are left under the temporary name
    | renamed _ now c ht =>
      refine hS.fares_renamed hdirs₃ ?_ hl₃ ((hren _).mpr ((ht _).mpr rfl))
      rw [hclean.others _ (tempKey_ne_dataKey sk now id) (tempKey_ne_metaKey sk now id),
        Function.update_self]

/-- **An import that moves its source** loses the contents only when the source was emptied without
having been renamed and then a file of the entry was erased. -/
theorem importFile_recoverable_iff (haes : P.aes.Correct) {w w' : World} {kek : Ref}
    (hkek : (w.heap kek).length = 32) {source : File} {b : Bytes}
    (hb : w.fs.read source = some b) (hne : b ≠ [])
    (hfresh : w.fs.files (dataKey P (P.uuid w.uuids)) = none ∧
      w.fs.files (metaKey P (P.uuid w.uuids)) = none) {mimeType : Text}
    {r : Except DartError VaultFileMeta}
    (hc : (importFile P source mimeType kek true).Completes (moves P) w r w') :
    ∃ l, w'.changes = l ++ w.changes ∧
      (Recoverable P source kek (P.uuid w.uuids) b l w' ↔ ¬ Lost P source (P.uuid w.uuids) l) := by
  obtain ⟨sk, hS⟩ := Source.of_fresh hb hne hfresh
  refine wp_completes (D := moves P)
    (Q := fun _ w' => Fares P source kek (P.uuid w.uuids) b w w') ?_ hc
  apply importFile_wp (F := True) (moves_moves w).toAlone haes hkek
    (fun w' _ _ _ h _ => congrFun h.heap kek) (fun w' h => (congrFun h.heap kek) ▸ hkek)
    (fun w' h => h.zone) ⟨rfl, rfl⟩ hS.resolve hS.files hne (fun _ _ => trivial)
  · exact fun _ _ _ _ _ _ => (moves_moves w).alters _
  · exact fun _ _ _ _ _ _ _ => (moves_moves w).alters _
  -- the import fails at its writes, and the source has not been touched
  · rintro - e cipher text w₁ hw₁ ⟨hfiles, hdirs, l, hl, hle⟩
    refine hS.fares_kept hdirs ?_ hl
      (not_overwrote_of_entry hS.ne_files (ofEntry_of_writes hle)).1
    rw [hfiles.of_ne hS.ne_data hS.ne_meta, hS.files]
  · rintro m cipher w₁ hw₁ ⟨hfiles, hdirs, l, hl, hle⟩ hE -
    have hn : ¬ (Erased (dataFileOf (vaultDir P) (P.uuid w.uuids)) l ∨
        Erased (metaFileOf (vaultDir P) (P.uuid w.uuids)) l) := by
      rintro (h | h) <;> rcases hle _ h with h | h <;> cases h
    have hsk : w₁.fs.files sk = some b := by
      rw [hfiles, written_of_ne hS.ne_data hS.ne_meta, hS.files]
    have hholds : Holds P (w.heap kek) w.zone w₁.fs.files (P.uuid w.uuids) b := by
      rw [hfiles]
      exact holds_written hE
    rw [wp_bind]
    refine wp_mono _ ?_
      (moveSource_fares hS hw₁ hkek hdirs hsk hholds hl (ofEntry_of_writes hle) hn)
    rintro (e | a) w₂ h
    · exact h
    · exact h

/-- The deletion of the source leaves it, and it cannot be renamed. -/
def sourceStays : (op : Op) → Outcome op
  | .delete f => if f = File.sample then .keeps else .done
  | .rename .. => some (.exception [])
  | op => usual op

/-- The run of an import in which the source stays. -/
def stuckImport : Except DartError VaultFileMeta × World :=
  (importFile (.sample .marked) .sample ['t'] 0 true).run (device (.sample .marked))
    (fun _ => sourceStays) 0 (.sample (List.replicate 32 2) [1])

theorem stuckImport_completes :
    (importFile (.sample .marked) .sample ['t'] 0 true).Completes (moves (.sample .marked))
      (.sample (List.replicate 32 2) [1]) stuckImport.1 stuckImport.2 := by
  have hallow : ∀ op, FailsWhole op (sourceStays op) := by
    intro op
    cases op with
    | writeAsBytes f b => exact fun n e h => nomatch h
    | fileExists f => rfl
    | _ => trivial
  exact completes_run (D := moves _) (fun w => ⟨w.now, rfl⟩) (fun _ _ => hallow)
    (fun _ _ _ => trivial) _ 0 _

/-- Both the source and the entry are lost when the source is emptied and stays. -/
theorem importFile_loses_contents :
    (importFile (.sample .marked) .sample ['t'] 0 true).Completes (moves (.sample .marked))
        (.sample (List.replicate 32 2) [1]) stuckImport.1 stuckImport.2 ∧
      ¬ Recoverable (.sample .marked) .sample 0 ['u'] [1] stuckImport.2.changes stuckImport.2 := by
  refine ⟨stuckImport_completes, ?_⟩
  rintro (h | ⟨t, ht, -⟩ | h)
  · have hr : stuckImport.2.fs.read .sample = some [] := by decide +kernel
    rw [hr] at h
    cases h
  · have hnone : stuckImport.2.changes.filterMap renameOf = [] := by decide +kernel
    have hmem := renamedTo_iff.mp ht
    rw [hnone] at hmem
    exact List.not_mem_nil hmem
  · refine h.not_throws (exportClear_throws rfl (by decide) (.inl ?_))
    decide +kernel

theorem importFile_recoverable_iff_stuckImport :
    ∃ l, stuckImport.2.changes = l ++ [] ∧
      (Recoverable (.sample .marked) .sample 0 ['u'] [1] l stuckImport.2 ↔
        ¬ Lost (.sample .marked) .sample ['u'] l) :=
  importFile_recoverable_iff AesGcm.marked_correct rfl (by decide) (by decide)
    ⟨by decide, by decide⟩ stuckImport_completes

end VaultRepository

end CajaSegura
