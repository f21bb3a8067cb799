import CajaSegura.Services.CompanyRules

/-!
# Reasoning about the vault

## Main definitions

* `VaultRepository.written`, `VaultRepository.PartlyWritten`: the files after the two writes of an
  import, and after one that was cut

## Main results

* `VaultRepository.importFile_prepare`: an import up to its first write
* `VaultRepository.writeEntry_wp`: the two writes of an import
* `VaultRepository.exportClear_wp`: what an export returns
-/

namespace CajaSegura

open Codec Async
open Program hiding bind

variable {P : Platform} {id : Text}

variable {D : Discipline (device P)} {J : World → Prop} {F : Prop}

/-- Who is alone with the files is in a company that leaves them as they are. -/
theorem Alone.firm (hJ : Alone D J F) (w₀ : World) : Firm D (fun w => J w ∧ w₀.Calm w) F where
  rely w w' h hr := by
    obtain ⟨hw', hc⟩ := hJ.rely w w' h.1 hr
    exact ⟨hw', h.2.trans hc⟩
  dirs w w' h hr := (hJ.rely w w' h.1 hr).2.dirs
  quiet w w' h hq := by
    obtain ⟨hg, hw'⟩ := hJ.quiet w w' h.1 hq
    exact ⟨hg, hw', h.2.trans hq.toCalm⟩
  fault := hJ.fault

theorem Ends.leads {α : Type} {p : App α} {w w₁ : World} {R : α → World → Prop}
    (hp : p.wp D (Ends (fun w' => J w' ∧ w.Calm w') F R) w₁) : p.wp D (Leads J F w R) w₁ :=
  wp_mono p (fun _ _ h => ⟨h.keeps.1, h.keeps.2, h.ok, h.error⟩) hp

namespace VaultRepository

theorem ensureVaultDir_wp (hJ : Alone D J F) {w : World} (hw : J w) :
    ensureVaultDir.wp D (Leads J F w fun a w' => a = vaultDir P ∧ w'.fs.dirs a = true) w :=
  Ends.leads (ensureVaultDir_firm (hJ.firm w) ⟨hw, .refl w⟩)

/-! ## Importing -/

/-- An import between the drawing of its identifier and its first write. -/
structure Prepared (P : Platform) (w w' : World) : Prop where
  files : w'.fs.files = w.fs.files
  dirs : ∀ p, w.fs.dirs p = true → w'.fs.dirs p = true
  vault : w'.fs.dirs (vaultDir P) = true
  uuids : w'.uuids = w.uuids + 1
  changes : w'.changes = w.changes

theorem Prepared.calm {w w₁ w₂ : World} (h : Prepared P w w₁) (hc : w₁.Calm w₂) :
    Prepared P w w₂ :=
  ⟨hc.files.trans h.files, fun p hp => hc.dirs p (h.dirs p hp), hc.dirs _ h.vault,
    hc.uuids.trans h.uuids, hc.changes.trans h.changes⟩

/-- **An import up to its first write**: every file is as it was, and either the import has failed
or the contents and the metadata that it is going to write belong together. -/
theorem importFile_prepare (hJ : Alone D J F) (haes : P.aes.Correct) {kek : Bytes} {r : Ref}
    (hk : kek.length = 32)
    (hkey : ∀ w clear nonce o, J w → D.allow w (.encrypt clear (.buffer r) nonce) o →
      w.heap r = kek) (hlen : ∀ w, J w → (w.heap r).length = 32)
    {source : File} {sk : Key} {b : Bytes} {mimeType : Text} {moveFile : Bool} {w : World}
    (hw : J w) (hs : w.fs.resolve source = some sk) (hb : w.fs.files sk = some b) (hne : b ≠ [])
    (hreject : P.asserts = true → mimeType = [] ∨ 2 ^ 63 ≤ b.length → F)
    {Q : Except DartError VaultFileMeta → World → Prop}
    (hfail : F → ∀ e w', J w' → w'.fs.files = w.fs.files →
      (∀ p, w.fs.dirs p = true → w'.fs.dirs p = true) → w'.changes = w.changes → Q (.error e) w')
    (hwrite : ∀ m cipher w', J w' → Prepared P w w' → Entry P kek (P.uuid w.uuids) b m cipher →
      Describes J source mimeType m →
      (do
        writeEntry m cipher (dataFileOf (vaultDir P) (P.uuid w.uuids))
          (metaFileOf (vaultDir P) (P.uuid w.uuids))
        when moveFile (moveSource source (dataFileOf (vaultDir P) (P.uuid w.uuids))
          (metaFileOf (vaultDir P) (P.uuid w.uuids)))
        return m : App VaultFileMeta).wp D Q w') :
    (importFile P source mimeType r moveFile).wp D Q w := by
  have hprepared (w' : World) (h : Prepared P w w') : w'.fs.read source = some b := by
    rw [Fs.read_of_resolve (Fs.resolve_mono h.dirs hs), h.files, hb]
  have hquiet (w₁ w₂ : World) (h : J w₁ ∧ Prepared P w w₁) (hq : w₁.Quiet w₂) :
      D.guarantee w₁ w₂ ∧ J w₂ ∧ Prepared P w w₂ := by
    obtain ⟨hg, hw₂⟩ := hJ.quiet _ _ h.1 hq
    exact ⟨hg, hw₂, h.2.calm hq.toCalm⟩
  have hfirm : Firm D (fun w' => J w' ∧ Prepared P w w') F := by
    refine ⟨fun w₁ w₂ h hr => ?_, fun w₁ w₂ h hr => (hJ.rely _ _ h.1 hr).2.dirs, hquiet, hJ.fault⟩
    obtain ⟨hw₂, hc⟩ := hJ.rely _ _ h.1 hr
    exact ⟨hw₂, h.2.calm hc⟩
  -- nobody else is at work, so that the source stays as it was
  have hP : Preparing P D.ghost F source r kek () (fun _ => ()) (fun w' => J w' ∧ w.Calm w')
      (fun n w' => (J w' ∧ Prepared P w w') ∧ n = w.uuids)
      (fun n a w' => (J w' ∧ Prepared P w w') ∧ n = w.uuids ∧ a = b) fun _ => False := {
    begun := hJ.firm w
    drawn := fun n => hfirm.and (lasts_const _)
    read := fun n a => hfirm.and (lasts_const _)
    gone₀ := lasts_const _
    gone₁ := fun n => lasts_const _
    missing₀ := fun w' h hn => by
      rw [Fs.read_of_resolve (Fs.resolve_mono h.2.dirs hs), h.2.files, hb] at hn
      cases hn
    missing₁ := fun n w' h hn => by
      rw [hprepared w' h.1.2] at hn
      cases hn
    length := fun w' h => (hlen w' h.1).trans hk.symm
    key := fun n a w' clear nonce o h => hkey w' clear nonce o h.1.1
    draw := fun w' h hd => by
      obtain ⟨hg, hw'⟩ := hJ.draw w' h.1
      exact ⟨hg, ⟨hw', h.2.files, h.2.dirs, hd, congrArg (· + 1) h.2.uuids, h.2.changes⟩,
        h.2.uuids⟩
    reading := fun n w' a h _ ha => by
      have hquiet' := World.quiet_exec (P := P) w'
        (show ¬ (Op.readAsBytes source).Mutates from id) none
      refine ⟨(hquiet _ _ h.1 hquiet').2, h.2, ?_⟩
      exact Option.some.inj (ha.symm.trans (hprepared w' h.1.2)) }
  have hname : originalName source ≠ [] := by
    obtain ⟨hname, hnn⟩ := originalName_of_resolve hs
    rwa [hname]
  rw [← gwp_ghost]
  apply importFile_company hP hname ⟨hw, .refl w⟩
  · rintro e w' ⟨hw', hc⟩ (hF | hN | hne)
    · exact hfail hF e w' hw' hc.files hc.dirs hc.changes
    · exact hN.elim
    · exact absurd hk hne
  · rintro n e w' ⟨⟨hw', hp⟩, -⟩ (hF | hN)
    · exact hfail hF e w' hw' hp.files hp.dirs hp.changes
    · exact hN.elim
  · rintro n a e w' ⟨⟨hw', hp⟩, -, rfl⟩ h
    have hF : F := by
      rcases h with hF | hnil | ⟨ha, h⟩
      · exact hF
      · exact absurd hnil hne
      · exact hreject ha h
    exact hfail hF e w' hw' hp.files hp.dirs hp.changes
  · rintro n a m cipher w' ⟨⟨hw', hp⟩, rfl, rfl⟩ - - - - hM hE
    obtain ⟨w₁, hw₁, hcreated⟩ := hM.createdAt
    exact (gwp_ghost _).mpr (hwrite m cipher w' hw' hp (hE haes)
      ⟨hM.originalName, hM.mimeType, w₁, hw₁.1.1, hcreated⟩)

/-- An import without a source, with an empty one or with a key of another length is rejected and
changes no file. -/
theorem importFile_rejects_wp (hJ : Alone D J F) (hr : ∀ w w', D.rely w w' → TimePasses w w')
    {r : Ref} {n : ℕ} (hlen : ∀ w, J w → (w.heap r).length = n) {w : World} (hw : J w)
    {source : File} {mimeType : Text} {moveFile : Bool}
    (h : w.fs.read source = none ∨ w.fs.read source = some [] ∨ n ≠ 32) :
    (importFile P source mimeType r moveFile).wp D (fun x w' => (∃ e, x = .error e) ∧ J w' ∧
      w'.fs.files = w.fs.files ∧ w'.fs.read source = w.fs.read source ∧
      w'.changes = w.changes) w := by
  unfold importFile
  rw [wp_bind]
  refine wp_mono _ ?_ (fileExists_still hJ.toSteady hr hw source)
  rintro x w₁ ⟨hw₁, hs₁, ⟨e, rfl⟩ | rfl⟩
  · exact ⟨⟨e, rfl⟩, hw₁, hs₁.calm.files, by rw [hs₁.fs], hs₁.calm.changes⟩
  dsimp only
  -- no source, a key of another length or an empty source
  cases hread : w.fs.read source with
  | none => exact ⟨⟨_, rfl⟩, hw₁, hs₁.calm.files, by rw [hs₁.fs, hread], hs₁.calm.changes⟩
  | some b =>
    rw [hread] at h
    obtain ⟨sk, hsk, hb⟩ := Option.bind_eq_some_iff.mp hread
    have hrefused (e : DartError) {w' : World} (hw' : J w') (hf : w'.fs.files = w.fs.files)
        (hd : ∀ p, w.fs.dirs p = true → w'.fs.dirs p = true) (hc : w'.changes = w.changes) :
        (∃ e', (Except.error e : Except DartError VaultFileMeta) = .error e') ∧ J w' ∧
          w'.fs.files = w.fs.files ∧ w'.fs.read source = some b ∧ w'.changes = w.changes :=
      ⟨⟨e, rfl⟩, hw', hf, (Fs.read_mono hd hf hsk).trans hread, hc⟩
    have hfail (_ : F) (e : DartError) (w' : World) (hw' : J w') (hc : w.Calm w') :=
      hrefused e hw' hc.files hc.dirs hc.changes
    have hc₁ := hs₁.calm
    apply Leads.seq (Leads.after hc₁ (when_false (by simp) hw₁)) hfail
    intro _ w₂ hw₂ hc₂ _
    rw [wp_bind, wp_get]
    dsimp only
    rw [hlen w₂ hw₂]
    by_cases hn : n = 32
    · subst hn
      apply Leads.seq (Leads.after hc₂ (when_false (by simp) hw₂)) hfail
      intro _ w₃ hw₃ hc₃ _
      apply Leads.seq (Leads.after hc₃ (hJ.awaited_leads
        (fun a w₁ w₂ h hc => ⟨h.1, hc.dirs _ h.2⟩) (ensureVaultDir_wp hJ hw₃))) hfail
      rintro _ w₄ hw₄ hc₄ ⟨rfl, -⟩
      obtain ⟨hg₅, hw₅⟩ := hJ.draw w₄ hw₄
      rw [wp_bind, v4, wp_getModify]
      refine ⟨hg₅, ?_⟩
      dsimp only
      have hfiles : ({ w₄ with uuids := w₄.uuids + 1 } : World).fs.files = w.fs.files := hc₄.files
      have hdirs : ∀ p, w.fs.dirs p = true →
          ({ w₄ with uuids := w₄.uuids + 1 } : World).fs.dirs p = true := hc₄.dirs
      have hchanges : ({ w₄ with uuids := w₄.uuids + 1 } : World).changes = w.changes := hc₄.changes
      generalize ({ w₄ with uuids := w₄.uuids + 1 } : World) = w₅ at hw₅ hfiles hdirs hchanges ⊢
      have hrefused₅ (e : DartError) {w' : World} (hw' : J w') (hc : w₅.Calm w') :=
        hrefused e hw' (hc.files.trans hfiles) (fun p hp => hc.dirs p (hdirs p hp))
          (hc.changes.trans hchanges)
      apply Leads.seq (readAsBytes_wp hJ hw₅ (Fs.resolve_mono hdirs hsk) (hfiles ▸ hb))
        fun _ e w' => hrefused₅ e
      rintro bytes w₆ hw₆ hc₆ rfl
      obtain rfl : bytes = [] := by simpa using h
      exact hrefused₅ _ hw₆ hc₆
    · simp only [when, bne_iff_ne.mpr hn, if_true]
      exact hrefused _ hw₂ hc₂.files hc₂.dirs hc₂.changes

/-! ### The two writes -/

/-- The files between the two writes of an import and after a write that was cut. -/
def PartlyWritten (P : Platform) (id : Text) (cipher text : Bytes)
    (files files' : Key → Option Bytes) : Prop :=
  (∃ c, files' = Function.update files (dataKey P id) c) ∨
    ∃ s, s <+: text ∧ files' =
      Function.update (Function.update files (dataKey P id) (some cipher)) (metaKey P id) (some s)

/-- The files after the two writes of an import. -/
def written (P : Platform) (id : Text) (cipher text : Bytes) (files : Key → Option Bytes) :
    Key → Option Bytes :=
  Function.update (Function.update files (dataKey P id) (some cipher)) (metaKey P id) (some text)

variable {cipher text : Bytes} {files files' : Key → Option Bytes} {k : Key}

theorem PartlyWritten.of_ne (h : PartlyWritten P id cipher text files files')
    (hd : k ≠ dataKey P id) (hm : k ≠ metaKey P id) : files' k = files k := by
  rcases h with ⟨c, rfl⟩ | ⟨s, -, rfl⟩
  · rw [Function.update_of_ne hd]
  · rw [Function.update_of_ne hm, Function.update_of_ne hd]

theorem written_of_ne (hd : k ≠ dataKey P id) (hm : k ≠ metaKey P id) :
    written P id cipher text files k = files k := by
  rw [written, Function.update_of_ne hm, Function.update_of_ne hd]

/-- The files of an entry after they have been written. -/
theorem holds_written {kek data : Bytes} {z : Zone} {m : VaultFileMeta}
    (hE : Entry P kek id data m cipher) :
    Holds P kek z (written P id cipher (metaBytes z m) files) id data := by
  refine ⟨m, cipher, hE, Function.update_self .., ?_⟩
  rw [written, Function.update_of_ne (dataKey_ne_metaKey id id), Function.update_self]

/-- How the two writes of an import end. -/
structure WroteEntry (P : Platform) (J : World → Prop) (F : Prop) (w : World) (id : Text)
    (cipher text : Bytes) (r : Except DartError Unit) (w' : World) : Prop where
  keeps : J w'
  dirs : ∀ p, w.fs.dirs p = true → w'.fs.dirs p = true
  uuids : w'.uuids = w.uuids
  changes : ∃ l, w'.changes = l ++ w.changes ∧ ∀ a ∈ l,
    a.1 = .writeAsBytes (dataFileOf (vaultDir P) id) cipher ∨
      a.1 = .writeAsBytes (metaFileOf (vaultDir P) id) text
  files : (r = .ok () ∧ w'.fs.files = written P id cipher text w.fs.files) ∨
    F ∧ (∃ e, r = .error e) ∧ PartlyWritten P id cipher text w.fs.files w'.fs.files

theorem writeEntry_wp (hJ : Alone D J F) {z : Zone} (hz : ∀ w, J w → w.zone = z) {w : World}
    (hw : J w) {id : Text} (hid : '/' ∉ id) (hvault : w.fs.dirs (vaultDir P) = true)
    {m : VaultFileMeta} {cipher : Bytes} (hgd : Writes D J w (dataKey P id) cipher)
    (hgm : ∀ w', J w' → w'.uuids = w.uuids →
      w'.fs.files = Function.update w.fs.files (dataKey P id) (some cipher) →
      Writes D J w' (metaKey P id) (metaBytes z m)) :
    (writeEntry m cipher (dataFileOf (vaultDir P) id) (metaFileOf (vaultDir P) id)).wp D
      (WroteEntry P J F w id cipher (metaBytes z m)) w := by
  unfold writeEntry
  rw [wp_bind]
  refine wp_mono _ ?_ (writeAsBytes_wp hJ hw (resolve_data w.fs hid) hvault hgd)
  rintro r w₁ ⟨o, ⟨⟨_, ho⟩, hw₁, hd₁, hu₁, hc₁⟩, ⟨-, rfl, hf₁⟩ | ⟨e, rfl, hf₁⟩⟩
  · -- the contents are written; the metadata follow
    dsimp only
    rw [wp_bind, wp_get]
    dsimp only
    rw [hz w₁ hw₁]
    refine wp_mono _ ?_ (writeAsBytes_wp hJ hw₁ (resolve_meta w₁.fs hid) (hd₁ _ hvault)
      (hgm w₁ hw₁ hu₁ hf₁))
    rintro r w₂ ⟨o', ⟨⟨_, ho'⟩, hw₂, hd₂, hu₂, hc₂⟩, hf₂⟩
    refine ⟨hw₂, fun p hp => hd₂ p (hd₁ p hp), hu₂.trans hu₁,
      ⟨[⟨_, o'⟩, ⟨_, o⟩], by rw [hc₂, hc₁]; rfl, ?_⟩, ?_⟩
    · intro a ha
      rcases List.mem_cons.mp ha with rfl | ha
      · exact .inr rfl
      · obtain rfl := List.mem_singleton.mp ha
        exact .inl rfl
    · rw [hf₁] at hf₂
      rcases hf₂ with ⟨-, hr, hf₂⟩ | ⟨e, he, ⟨rfl, hf₂⟩ | ⟨n, rfl, hf₂⟩⟩
      · exact .inl ⟨hr, hf₂⟩
      · exact .inr ⟨(hJ.fault _ _ _ ho').resolve_left nofun, ⟨e, he⟩, .inl ⟨_, hf₂⟩⟩
      · exact .inr ⟨(hJ.fault _ _ _ ho').resolve_left nofun, ⟨e, he⟩,
          .inr ⟨_, List.take_prefix n _, hf₂⟩⟩
  · refine ⟨hw₁, hd₁, hu₁, ⟨[⟨_, o⟩], hc₁, ?_⟩, .inr ⟨?_, ⟨e, rfl⟩, .inl ?_⟩⟩
    · intro a ha
      obtain rfl := List.mem_singleton.mp ha
      exact .inl rfl
    · refine (hJ.fault _ _ _ ho).resolve_left ?_
      rintro (rfl : o = .done)
      rcases hf₁ with ⟨hf, -⟩ | ⟨n, hf, -⟩ <;> cases hf
    · rcases hf₁ with ⟨-, hf₁⟩ | ⟨n, -, hf₁⟩
      · exact ⟨w.fs.files (dataKey P id), by rw [hf₁, Function.update_eq_self]⟩
      · exact ⟨_, hf₁⟩

/-- An import after its two writes. -/
structure Imported (P : Platform) (w : World) (cipher text : Bytes) (w' : World) : Prop where
  files : w'.fs.files = written P (P.uuid w.uuids) cipher text w.fs.files
  dirs : ∀ p, w.fs.dirs p = true → w'.fs.dirs p = true
  changes : ∃ l, w'.changes = l ++ w.changes ∧ ∀ a ∈ l,
    a.1 = .writeAsBytes (dataFileOf (vaultDir P) (P.uuid w.uuids)) cipher ∨
      a.1 = .writeAsBytes (metaFileOf (vaultDir P) (P.uuid w.uuids)) text

/-- An import that has failed before or in its two writes. -/
structure Abandoned (P : Platform) (w : World) (cipher text : Bytes) (w' : World) : Prop where
  files : PartlyWritten P (P.uuid w.uuids) cipher text w.fs.files w'.fs.files
  dirs : ∀ p, w.fs.dirs p = true → w'.fs.dirs p = true
  changes : ∃ l, w'.changes = l ++ w.changes ∧ ∀ a ∈ l,
    a.1 = .writeAsBytes (dataFileOf (vaultDir P) (P.uuid w.uuids)) cipher ∨
      a.1 = .writeAsBytes (metaFileOf (vaultDir P) (P.uuid w.uuids)) text

/-- **An import up to the removal of its source.** -/
theorem importFile_wp (hJ : Alone D J F) (haes : P.aes.Correct) {kek : Bytes} {r : Ref}
    (hk : kek.length = 32)
    (hkey : ∀ w clear nonce o, J w → D.allow w (.encrypt clear (.buffer r) nonce) o →
      w.heap r = kek) (hlen : ∀ w, J w → (w.heap r).length = 32)
    {z : Zone} (hz : ∀ w, J w → w.zone = z)
    {source : File} {sk : Key} {b : Bytes} {mimeType : Text} {moveFile : Bool} {w : World}
    (hw : J w) (hs : w.fs.resolve source = some sk) (hb : w.fs.files sk = some b) (hne : b ≠ [])
    (hreject : P.asserts = true → mimeType = [] ∨ 2 ^ 63 ≤ b.length → F)
    (hgd : ∀ m cipher w', J w' → Prepared P w w' → Entry P kek (P.uuid w.uuids) b m cipher →
      Writes D J w' (dataKey P (P.uuid w.uuids)) cipher)
    (hgm : ∀ m cipher w', J w' → w'.uuids = w.uuids + 1 →
      w'.fs.files = Function.update w.fs.files (dataKey P (P.uuid w.uuids)) (some cipher) →
      Entry P kek (P.uuid w.uuids) b m cipher →
      Writes D J w' (metaKey P (P.uuid w.uuids)) (metaBytes z m))
    {Q : Except DartError VaultFileMeta → World → Prop}
    (hfail : F → ∀ e cipher text w', J w' → Abandoned P w cipher text w' → Q (.error e) w')
    (hmove : ∀ m cipher w', J w' → Imported P w cipher (metaBytes z m) w' →
      Entry P kek (P.uuid w.uuids) b m cipher → Describes J source mimeType m →
      (do
        when moveFile (moveSource source (dataFileOf (vaultDir P) (P.uuid w.uuids))
          (metaFileOf (vaultDir P) (P.uuid w.uuids)))
        return m : App VaultFileMeta).wp D Q w') :
    (importFile P source mimeType r moveFile).wp D Q w := by
  apply importFile_prepare hJ haes hk hkey hlen hw hs hb hne hreject
  · intro hF e w' hw' hf hd hc
    exact hfail hF e [] [] w' hw' ⟨.inl ⟨_, hf.trans (Function.update_eq_self _ _).symm⟩, hd, [], hc,
      fun _ h => nomatch h⟩
  · intro m cipher w₁ hw₁ hp hE hM
    rw [wp_bind]
    refine wp_mono _ ?_ (writeEntry_wp hJ hz hw₁ (P.uuid_plain _).1 hp.vault
      (hgd m cipher w₁ hw₁ hp hE) (fun w' hw' hu hf => hgm m cipher w' hw' (hu.trans hp.uuids)
        (by rw [hf, hp.files]) hE))
    rintro r w₂ ⟨hw₂, hd₂, -, ⟨l, hc₂, hl⟩, ⟨rfl, hf₂⟩ | ⟨hF, ⟨e, rfl⟩, hf₂⟩⟩
    · apply hmove m cipher w₂ hw₂ _ hE hM
      exact ⟨by rw [hf₂, hp.files], fun p h => hd₂ p (hp.dirs p h), l, by rw [hc₂, hp.changes], hl⟩
    · apply hfail hF e cipher (metaBytes z m) w₂ hw₂
      exact ⟨hp.files ▸ hf₂, fun p h => hd₂ p (hp.dirs p h), l, by rw [hc₂, hp.changes], hl⟩

/-! ## Exporting -/

/-- Reading a metadata file yields what its contents stand for, or an error. -/
theorem readMeta_reads (hJ : Alone D J F) {z : Zone} (hz : ∀ w, J w → w.zone = z) {w : World}
    (hw : J w) {f : File} {k : Key} (hf : w.fs.resolve f = some k) {b : Bytes}
    (hb : w.fs.files k = some b) :
    (readMeta P f).wp D (fun r w' => J w' ∧ w.Calm w' ∧
      (∀ m, r = .ok m → ∃ now, metaOf P z now b = some m) ∧
      ∀ e, r = .error e → F ∨ ∃ now, metaOf P z now b = none) w := by
  unfold readMeta readAsString
  rw [wp_bind, wp_bind]
  refine wp_mono _ ?_ (readAsBytes_wp hJ hw hf hb)
  rintro (e | a) w₁ hL
  · exact ⟨hL.keeps, hL.calm, by rintro _ ⟨⟩, fun _ _ => .inl (hL.error e rfl)⟩
  obtain rfl := hL.ok a rfl
  dsimp only
  rw [wp_done, decodeUtf8]
  cases ht : Utf8.decode a with
  | none =>
    have hmeta : metaOf P z w₁.now.local a = none := by
      rw [metaOf, ht]
      rfl
    exact ⟨hL.keeps, hL.calm, by rintro _ ⟨⟩, fun _ _ => .inr ⟨_, hmeta⟩⟩
  | some t =>
    dsimp only
    rw [wp_bind, wp_done]
    cases hj : jsonMap t with
    | error e =>
      have hmeta : metaOf P z w₁.now.local a = none := by
        rw [metaOf, ht, Option.bind_some, hj]
        rfl
      exact ⟨hL.keeps, hL.calm, by rintro _ ⟨⟩, fun _ _ => .inr ⟨_, hmeta⟩⟩
    | ok j =>
      have hmeta : metaOf P z w₁.now.local a =
          (VaultFileMeta.fromJson P.asserts z w₁.now.local j).toOption := by
        rw [metaOf, ht, Option.bind_some, hj]
        rfl
      dsimp only [fromJson]
      rw [wp_read, wp_done, hz w₁ hL.keeps]
      refine ⟨hL.keeps, hL.calm, fun m hm => ⟨_, hmeta.trans ?_⟩, fun e he => .inr ⟨_, hmeta.trans ?_⟩⟩
      · rw [hm]
        rfl
      · rw [he]
        rfl

/-- Metadata are read back as they were written. -/
theorem readMeta_wp (hJ : Alone D J F) {z : Zone} (hz : ∀ w, J w → w.zone = z) {w : World}
    (hw : J w) {f : File} {k : Key} (hf : w.fs.resolve f = some k) {m : VaultFileMeta}
    (hk : w.fs.files k = some (metaBytes z m)) (hm : VaultFileMeta.make P.asserts m = .ok m)
    (hutc : m.createdAt.isUtc = false)
    (hsize : -2 ^ 63 ≤ m.originalSize ∧ m.originalSize < 2 ^ 63) :
    (readMeta P f).wp D (Leads J F w fun a _ => a = m.reread z) w := by
  have hread (now : DateTime) : metaOf P z now (metaBytes z m) = some (m.reread z) := by
    rw [metaOf_metaBytes now hm hutc hsize, DateTime.ofWall_wall z hutc]
    rfl
  refine wp_mono _ ?_ (readMeta_reads hJ hz hw hf hk)
  rintro r w₁ ⟨hw₁, hc₁, hok, herr⟩
  refine ⟨hw₁, hc₁, fun a ha => ?_, fun e he => ?_⟩
  · obtain ⟨now, hnow⟩ := hok a ha
    exact Option.some.inj (hnow.symm.trans (hread now))
  · refine (herr e he).resolve_right fun ⟨now, hnow⟩ => ?_
    rw [hread now] at hnow
    cases hnow

/-- **An entry is exported as it was imported.** -/
theorem exportClear_wp (hJ : Alone D J False) {kek : Bytes} {r : Ref} (hk : kek.length = 32)
    (hr : ∀ w, J w → w.heap r = kek) {z : Zone} (hz : ∀ w, J w → w.zone = z) {w : World} (hw : J w)
    {id : Text} (hid : '/' ∉ id) (hne : id ≠ []) {data : Bytes}
    (h : Holds P kek z w.fs.files id data) :
    (exportClear P id r).wp D (Leads J False w fun a _ => a = data) w := by
  obtain ⟨m, cipher, hE, hm, hd⟩ := h
  obtain ⟨fileIv, dekWrapped, dekWrapIv, hiv, hwr, hwiv, hopen⟩ := hE.opens
  unfold exportClear
  apply Leads.bind (when_false (by simpa using hne) hw)
  intro _ w₁ hw₁ hc₁ _
  rw [wp_bind, wp_get]
  apply Leads.bind (when_false (by simp [hr w₁ hw₁, hk]) hw₁)
  intro _ w₂ hw₂ hc₂ _
  apply Leads.bind (hJ.awaited_leads (fun a w₁ w₂ h hc => ⟨h.1, hc.dirs _ h.2⟩)
    (ensureVaultDir_wp hJ hw₂))
  rintro _ w₃ hw₃ hc₃ ⟨rfl, -⟩
  apply Leads.bind (hJ.awaited_leads (fun _ _ _ h _ => h)
    (Leads.pure hw₃ (R := fun a _ => a = metaFileOf (vaultDir P) id) rfl))
  rintro _ w₄ hw₄ hc₄ rfl
  have hc₄ := ((hc₁.trans hc₂).trans hc₃).trans hc₄
  apply Leads.bind (fileExists_wp hJ hw₄ (resolve_meta w₄.fs hid))
  rintro _ w₅ hw₅ hc₅ rfl
  apply Leads.bind (when_false (by simp [hc₄.files, hm]) hw₅)
  intro _ w₆ hw₆ hc₆ _
  apply Leads.bind (hJ.awaited_leads (fun _ _ _ h _ => h)
    (Leads.pure hw₆ (R := fun a _ => a = dataFileOf (vaultDir P) id) rfl))
  rintro _ w₇ hw₇ hc₇ rfl
  have hc₇ := ((hc₄.trans hc₅).trans hc₆).trans hc₇
  apply Leads.bind (fileExists_wp hJ hw₇ (resolve_data w₇.fs hid))
  rintro _ w₈ hw₈ hc₈ rfl
  apply Leads.bind (when_false (by simp [hc₇.files, hd]) hw₈)
  intro _ w₉ hw₉ hc₉ _
  have hc₉ := (hc₇.trans hc₈).trans hc₉
  apply Leads.bind (readMeta_wp hJ hz hw₉ (resolve_meta w₉.fs hid) (hc₉.files ▸ hm) hE.make hE.isUtc
    (hE.size ▸ dartLength_bounds data))
  rintro _ w₁₀ hw₁₀ hc₁₀ rfl
  have hc₁₀ := hc₉.trans hc₁₀
  apply Leads.bind (readAsBytes_wp hJ hw₁₀ (resolve_data w₁₀.fs hid) (hc₁₀.files ▸ hd))
  rintro _ w₁₁ hw₁₁ hc₁₁ rfl
  apply Leads.bind (when_false (by simpa using hE.cipher_ne_nil) hw₁₁)
  intro _ w₁₂ hw₁₂ hc₁₂ _
  -- the texts in the record are the encodings of the parts
  dsimp only [VaultFileMeta.reread, VaultFileMeta.withCreatedAt]
  rw [hiv, hwr, hwiv, wp_bind, wp_done, CryptoService.b64d_encode]
  dsimp only
  rw [wp_bind, wp_done, CryptoService.b64d_encode]
  dsimp only
  rw [wp_bind, wp_done, CryptoService.b64d_encode]
  dsimp only
  have hD : ∀ w op o, D.allow w op o → Good w op o := fun w op o ho =>
    (hJ.fault w op o ho).resolve_right not_false
  apply hJ.awaited_leads (fun _ _ _ h _ => h)
  refine wp_mono _ ?_ (CryptoService.decryptWithWrappedKey_wp hJ.toSteady hD hr hw₁₂ _ _ _ _)
  rintro x w₁₃ ⟨rfl, hw₁₃, hc₁₃⟩
  rw [hopen]
  refine ⟨hw₁₃, hc₁₃, fun a ha => ?_, fun e he => nomatch he⟩
  cases ha
  rfl

section Seeing

variable {A : Op → Prop} {G : World → World → Prop}

theorem Seeing.ensureVaultDir (hA : Seeing A) : (awaited ensureVaultDir).Within A G := by
  have hsees {op : Op} (h : op.Sees) : (call op).Within A G := within_call.mpr (hA.sees op h)
  apply within_awaited ?_ hA.hop
  unfold VaultRepository.ensureVaultDir
  refine Within.bind (hsees trivial) fun dir => Within.bind (hsees trivial) fun there => ?_
  exact Within.bind (within_when (hsees trivial)) fun _ => trivial

theorem Seeing.readMeta (hA : Seeing A) (f : File) : (readMeta P f).Within A G := by
  unfold VaultRepository.readMeta readAsString fromJson
  refine Within.bind (Within.bind (within_call.mpr (hA.sees _ trivial)) fun _ => Within.done _) ?_
  intro txt
  exact Within.bind (Within.done _) fun j w => Within.done _

end Seeing

theorem within_ensureVaultDir {G : World → World → Prop} :
    (awaited ensureVaultDir).Within Op.Harmless G := Seeing.ensureVaultDir seeing_harmless

theorem within_exportClear {G : World → World → Prop} (id : Text) (kek : Ref) :
    (exportClear P id kek).Within Op.Harmless G := by
  unfold exportClear
  refine Within.bind (within_when trivial) fun _ => ?_
  refine Within.bind (Within.get _) fun _ => ?_
  refine Within.bind (within_when trivial) fun _ => ?_
  refine Within.bind within_ensureVaultDir fun vault => ?_
  refine Within.bind (within_awaited trivial (.inl rfl)) fun metaFile => ?_
  refine Within.bind (within_call.mpr (.inr trivial)) fun metaThere => ?_
  refine Within.bind (within_when trivial) fun _ => ?_
  refine Within.bind (within_awaited trivial (.inl rfl)) fun dataFile => ?_
  refine Within.bind (within_call.mpr (.inr trivial)) fun dataThere => ?_
  refine Within.bind (within_when trivial) fun _ => ?_
  refine Within.bind (Seeing.readMeta seeing_harmless _) fun fileMeta => ?_
  refine Within.bind (within_call.mpr (.inr trivial)) fun cipher => ?_
  refine Within.bind (within_when trivial) fun _ => ?_
  refine Within.bind (Within.done _) fun fileIv => ?_
  refine Within.bind (Within.done _) fun dekWrapped => ?_
  refine Within.bind (Within.done _) fun dekWrapIv => ?_
  apply within_awaited ?_ (.inl rfl)
  refine Within.mono ?_ (fun _ _ h => h) (CryptoService.within_decryptWithWrappedKey _ _ _ _ _)
  rintro _ ⟨box, key, rfl⟩
  exact .inr trivial

/-- Without one of its files an entry is not exported. -/
theorem exportClear_throws_wp (hJ : Alone D J False) {kek : Bytes} {r : Ref} (hk : kek.length = 32)
    (hr : ∀ w, J w → w.heap r = kek) {w : World} (hw : J w)
    {id : Text} (hid : '/' ∉ id)
    (h : w.fs.files (metaKey P id) = none ∨ w.fs.files (dataKey P id) = none) :
    (exportClear P id r).wp D (fun x w' => (∃ e, x = .error e) ∧ J w' ∧ w.Calm w') w := by
  have hfail {α : Type} : False → ∀ (e : DartError) (w' : World), J w' → w.Calm w' →
      (∃ e', (Except.error e : Except DartError α) = .error e') ∧ J w' ∧ w.Calm w' :=
    fun hF => hF.elim
  unfold exportClear
  by_cases hne : id = []
  · subst hne
    exact ⟨⟨_, rfl⟩, hw, .refl w⟩
  apply Leads.seq (when_false (by simpa using hne) hw) hfail
  intro _ w₁ hw₁ hc₁ _
  rw [wp_bind, wp_get]
  apply Leads.seq (Leads.after hc₁ (when_false (by simp [hr w₁ hw₁, hk]) hw₁)) hfail
  intro _ w₂ hw₂ hc₂ _
  apply Leads.seq (Leads.after hc₂ (hJ.awaited_leads (fun a w₁ w₂ h hc => ⟨h.1, hc.dirs _ h.2⟩)
    (ensureVaultDir_wp hJ hw₂))) hfail
  rintro _ w₃ hw₃ hc₃ ⟨rfl, -⟩
  apply Leads.seq (Leads.after hc₃ (hJ.awaited_leads (fun _ _ _ h _ => h)
    (Leads.pure hw₃ (R := fun a _ => a = metaFileOf (vaultDir P) id) rfl))) hfail
  rintro _ w₄ hw₄ hc₄ rfl
  apply Leads.seq (Leads.after hc₄ (fileExists_wp hJ hw₄ (resolve_meta w₄.fs hid))) hfail
  rintro _ w₅ hw₅ hc₅ rfl
  -- the metadata file is missing, or it is there and the contents are missing
  cases hm : w₄.fs.files (metaKey P id) with
  | none =>
    simp only [Option.isSome_none, Bool.not_false, when, if_true]
    exact ⟨⟨_, rfl⟩, hw₅, hc₅⟩
  | some mb =>
    apply Leads.seq (Leads.after hc₅ (when_false (by simp) hw₅)) hfail
    intro _ w₆ hw₆ hc₆ _
    apply Leads.seq (Leads.after hc₆ (hJ.awaited_leads (fun _ _ _ h _ => h)
      (Leads.pure hw₆ (R := fun a _ => a = dataFileOf (vaultDir P) id) rfl))) hfail
    rintro _ w₇ hw₇ hc₇ rfl
    apply Leads.seq (Leads.after hc₇ (fileExists_wp hJ hw₇ (resolve_data w₇.fs hid))) hfail
    rintro _ w₈ hw₈ hc₈ rfl
    have hd : w₇.fs.files (dataKey P id) = none := by
      rw [hc₇.files]
      apply h.resolve_left
      rw [← hc₄.files, hm]
      simp
    rw [hd]
    simp only [Option.isSome_none, Bool.not_false, when, if_true]
    exact ⟨⟨_, rfl⟩, hw₈, hc₈⟩

/-- An export with a key of another length is rejected. -/
theorem exportClear_rejects_wp {r : Ref} {w : World} (hr : (w.heap r).length ≠ 32) (id : Text) :
    (exportClear P id r).wp D (fun x w' => (∃ e, x = .error e) ∧ w' = w) w := by
  unfold exportClear
  cases hid : id.isEmpty with
  | true => exact ⟨⟨_, rfl⟩, rfl⟩
  | false =>
    simp only [when, Bool.false_eq_true, if_false]
    rw [wp_bind, wp_pure]
    dsimp only
    rw [wp_bind, wp_get]
    dsimp only
    rw [if_pos (bne_iff_ne.mpr hr)]
    exact ⟨⟨_, rfl⟩, rfl⟩

/-- An export that runs alone and without failures. -/
theorem exportClear_returns {r : Ref} {w : World} (hr : (w.heap r).length = 32) {id : Text}
    (hid : '/' ∉ id) (hne : id ≠ []) {data : Bytes}
    (h : Holds P (w.heap r) w.zone w.fs.files id data) :
    (exportClear P id r).Returns (faultless P) w data := by
  apply Within.returns live_faultless (within_exportClear (G := fun _ _ => True) id r)
  refine wp_mono _ ?_ (exportClear_wp (alone_faultless w) hr (fun w' h => congrFun h.heap r)
    (fun w' h => h.zone) ⟨rfl, rfl⟩ hid hne h)
  rintro (e | a) w' hL
  · exact (hL.error e rfl).elim
  · exact congrArg Except.ok (hL.ok a rfl)

theorem exportClear_throws {r : Ref} {w : World} (hr : (w.heap r).length = 32) {id : Text}
    (hid : '/' ∉ id)
    (h : w.fs.files (metaKey P id) = none ∨ w.fs.files (dataKey P id) = none) :
    (exportClear P id r).Throws (faultless P) w := by
  apply Within.throws live_faultless (within_exportClear (G := fun _ _ => True) id r)
  exact wp_mono _ (fun _ _ h => h.1) (exportClear_throws_wp (alone_faultless w) hr
    (fun w' h => congrFun h.heap r) ⟨rfl, rfl⟩ hid h)

end VaultRepository

end CajaSegura
