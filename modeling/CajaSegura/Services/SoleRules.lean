import CajaSegura.Services.ListRules
import CajaSegura.Services.MoveRules
import Mathlib.Data.List.Dedup

/-!
# The vault when a function runs alone and without failures

What the functions of the vault return then, and every file that they leave.

## Main definitions

* `Since`: what stays as it was, and that identifiers are drawn in order
* `Stored`: an import that has ended well

## Main results

* `VaultRepository.importFile_sole`, `VaultRepository.deleteById_sole`,
  `VaultRepository.wipeAll_sole`, `VaultRepository.listAll_sole`
-/

namespace CajaSegura

open Codec Async
open Program hiding bind

variable {P : Platform}

/-- The buffers and the time zone are those of `w₀`, and no identifier was given back. -/
structure Since (w₀ w : World) : Prop extends Stays w₀ w where
  uuids : w₀.uuids ≤ w.uuids

theorem Since.refl (w : World) : Since w w := ⟨⟨rfl, rfl⟩, le_rfl⟩

/-- A program that runs alone and without failures, whatever is taken for one. -/
theorem alone_since (w₀ : World) (F : Prop) : Alone (faultless P) (Since w₀) F where
  rely w w' h ht := by
    refine ⟨?_, ht.calm⟩
    obtain ⟨t, rfl⟩ := ht
    exact ⟨⟨h.heap, h.zone⟩, h.uuids⟩
  quiet w w' h hq := ⟨trivial, ⟨hq.heap.trans h.heap, hq.zone.trans h.zone⟩, hq.uuids.symm ▸ h.uuids⟩
  draw w h := ⟨trivial, ⟨h.heap, h.zone⟩, h.uuids.trans (Nat.le_succ _)⟩
  files w fs as h := ⟨⟨h.heap, h.zone⟩, h.uuids⟩
  fault _ _ _ := .inl

theorem alters_faultless {J : World → Prop} {w : World} (S : (Key → Option Bytes) → Prop) :
    Alters (faultless P) J w S := fun _ _ _ _ _ _ _ => trivial

theorem moves_faultless (w₀ : World) : Moves (faultless P) (Since w₀) False where
  toAlone := alone_since w₀ False
  free _ _ := trivial
  looks _ _ _ := id
  whole _ _ _ _ _ h := by cases h

/-- The files of the vault are those of identifiers that have been drawn. -/
def Drawn (P : Platform) (w : World) : Prop := ∀ n, w.fs.files ⟨vaultDir P, n⟩ ≠ none →
  ∃ i < w.uuids, ⟨vaultDir P, n⟩ = metaKey P (P.uuid i) ∨ ⟨vaultDir P, n⟩ = dataKey P (P.uuid i)

namespace Drawn

variable {w w' : World}

theorem lt_uuids (h : Drawn P w) {i : ℕ} (hi : w.fs.files (metaKey P (P.uuid i)) ≠ none ∨
    w.fs.files (dataKey P (P.uuid i)) ≠ none) : i < w.uuids := by
  rcases hi with hi | hi
  · obtain ⟨j, hj, he | he⟩ := h _ hi
    · exact P.uuid_injective (metaKey_injective he) ▸ hj
    · exact absurd he.symm (dataKey_ne_metaKey _ _)
  · obtain ⟨j, hj, he | he⟩ := h _ hi
    · exact absurd he (dataKey_ne_metaKey _ _)
    · exact P.uuid_injective (dataKey_injective he) ▸ hj

theorem ne_nil (h : Drawn P w) {id : Text} (hid : w.fs.files (metaKey P id) ≠ none) : id ≠ [] := by
  obtain ⟨i, -, he | he⟩ := h _ hid
  · exact metaKey_injective he ▸ (P.uuid_plain i).2
  · exact absurd he.symm (dataKey_ne_metaKey _ _)

/-- The next identifier names no file. -/
theorem fresh (h : Drawn P w) : w.fs.files (dataKey P (P.uuid w.uuids)) = none ∧
    w.fs.files (metaKey P (P.uuid w.uuids)) = none := by
  constructor
  · exact not_not.mp fun hn => lt_irrefl _ (h.lt_uuids (.inr hn))
  · exact not_not.mp fun hn => lt_irrefl _ (h.lt_uuids (.inl hn))

theorem of_files (h : Drawn P w) (hv : ∀ n, w'.fs.files ⟨vaultDir P, n⟩ =
    w.fs.files ⟨vaultDir P, n⟩ ∨ w'.fs.files ⟨vaultDir P, n⟩ = none) (hu : w.uuids ≤ w'.uuids) :
    Drawn P w' := by
  intro n hn
  have hold := (hv n).resolve_right hn
  obtain ⟨i, hi, hk⟩ := h n (hold ▸ hn)
  exact ⟨i, hi.trans_le hu, hk⟩

/-- The vault is a finite directory. -/
theorem exists_lists (h : Drawn P w) : ∃ names, w.fs.Lists (vaultDir P) names := by
  let drawn := (List.range w.uuids).flatMap fun i =>
    [P.uuid i ++ ".json".toList, P.uuid i ++ ".enc".toList]
  refine ⟨(drawn.filter fun n => (w.fs.files ⟨vaultDir P, n⟩).isSome).dedup,
    List.nodup_dedup _, fun n => ?_⟩
  rw [List.mem_dedup, List.mem_filter, Option.isSome_iff_ne_none]
  refine and_iff_right_of_imp fun hn => ?_
  obtain ⟨i, hi, hk | hk⟩ := h n hn
  · obtain ⟨-, rfl⟩ := Key.mk.inj hk
    exact List.mem_flatMap.mpr ⟨i, List.mem_range.mpr hi, List.mem_cons_self⟩
  · obtain ⟨-, rfl⟩ := Key.mk.inj hk
    exact List.mem_flatMap.mpr ⟨i, List.mem_range.mpr hi, by simp⟩

end Drawn

namespace VaultRepository

variable {w w' : World} {id : Text}

/-! ## Importing -/

/-- A source that an import takes. -/
structure Source (P : Platform) (w : World) (r : Ref) (source : File) (sk : Key) (data : Bytes) :
    Prop where
  resolve : w.fs.resolve source = some sk
  files : w.fs.files sk = some data
  nonempty : data ≠ []
  key : (w.heap r).length = 32
  ne_data : sk ≠ dataKey P (P.uuid w.uuids)
  ne_meta : sk ≠ metaKey P (P.uuid w.uuids)

/-- Every file after an import that has ended well; a source that was moved is gone. -/
structure Stored (P : Platform) (kek : Bytes) (sk : Key) (data : Bytes) (moveFile : Bool)
    (m : VaultFileMeta) (w w' : World) : Prop where
  uuids : w'.uuids = w.uuids + 1
  dirs : ∀ p, w.fs.dirs p = true → w'.fs.dirs p = true
  entry : ∃ cipher, Entry P kek (P.uuid w.uuids) data m cipher ∧ w'.fs.files =
    Function.update (written P (P.uuid w.uuids) cipher (metaBytes w.zone m) w.fs.files) sk
      (if moveFile then none else w.fs.files sk)

/-- **An import** stores its entry and removes a source that is to be moved, or else it is rejected
by an assertion and changes no file. -/
theorem importFile_sole {D : Discipline (device P)} {J : World → Prop} (hD : Moves D J False)
    (hJ : ∀ w', J w' → Stays w w') (haes : P.aes.Correct) {r : Ref} {source : File} {sk : Key}
    {data : Bytes} (hS : Source P w r source sk data) {mimeType : Text} {moveFile : Bool}
    (hw : J w) :
    (importFile P source mimeType r moveFile).wp D (fun x w' => J w' ∧
      ((∃ m, x = .ok m ∧ Describes J source mimeType m ∧
          Stored P (w.heap r) sk data moveFile m w w') ∨
        (∃ e, x = .error e) ∧ w'.fs.files = w.fs.files ∧ w'.fs.read source = w.fs.read source ∧
          P.asserts = true ∧ (mimeType = [] ∨ 2 ^ 63 ≤ data.length))) w := by
  have hdir := (w.fs.parent sk (by simp [hS.files])).1
  apply importFile_prepare (F := P.asserts = true ∧ (mimeType = [] ∨ 2 ^ 63 ≤ data.length))
    (hD.toAlone.mono False.elim) haes hS.key
    (fun w' _ _ _ h _ => congrFun (hJ w' h).heap r) (fun w' h => congrFun (hJ w' h).heap r ▸ hS.key)
    hw hS.resolve hS.files hS.nonempty (fun ha h => ⟨ha, h⟩)
  · exact fun hF e w₁ hw₁ hf hd _ =>
      ⟨hw₁, .inr ⟨⟨e, rfl⟩, hf, Fs.read_mono hd hf hS.resolve, hF⟩⟩
  · intro m cipher w₁ hw₁ hp hE hM
    rw [wp_bind]
    refine wp_mono _ ?_ (writeEntry_wp hD.toAlone (fun w' h => (hJ w' h).zone) hw₁
      (P.uuid_plain _).1 hp.vault (hD.alters _) fun _ _ _ _ => hD.alters _)
    rintro x w₂ ⟨hw₂, hd₂, hu₂, -, ⟨rfl, hf₂⟩ | ⟨hF, -⟩⟩
    · have hdirs (p : Path) (h : w.fs.dirs p = true) : w₂.fs.dirs p = true :=
        hd₂ p (hp.dirs p h)
      dsimp only
      rw [hp.files] at hf₂
      have hsk : w₂.fs.files sk = some data := by
        rw [hf₂, written_of_ne hS.ne_data hS.ne_meta, hS.files]
      cases moveFile with
      | false =>
        refine ⟨hw₂, .inl ⟨m, rfl, hM, hu₂.trans hp.uuids, hdirs, cipher, hE, ?_⟩⟩
        rw [hf₂]
        refine (Function.update_eq_self_iff.mpr ?_).symm
        rw [written_of_ne hS.ne_data hS.ne_meta]
        rfl
      | true =>
        simp only [when, if_true]
        unfold moveSource
        rw [wp_bind, wp_tryCatch]
        refine wp_mono _ ?_ (deleteSource_wp hD (After.refl hw₂)
          (Fs.resolve_mono hdirs hS.resolve) (hdirs _ hdir) hsk)
        rintro y w₃ ⟨l, -, hr, h₃⟩
        generalize hf₃ : w₃.fs.files = files₃ at hr
        cases hr with
        | gone =>
          rw [hf₂] at hf₃
          refine ⟨h₃.keeps, .inl ⟨m, rfl, hM, h₃.uuids.trans (hu₂.trans hp.uuids), ?_, cipher, hE,
            hf₃⟩⟩
          exact fun p h => h₃.dirs p (hdirs p h)
        | kept hF => exact hF.elim
        | emptied hF => exact hF.elim
        | renamed hF => exact hF.elim
        | renamedGone hF => exact hF.elim
    · exact hF.elim

theorem Source.resolves {r : Ref} {source : File} {sk : Key} {data : Bytes}
    (h : Source P w r source sk data) : w.fs.read source = some data := by
  rw [Fs.read_of_resolve h.resolve, h.files]

/-- The entry is there, and of the other files at most the source is not. -/
theorem Stored.holds {r : Ref} {source : File} {sk : Key} {data : Bytes} {moveFile : Bool}
    {m : VaultFileMeta} (hS : Source P w r source sk data)
    (h : Stored P (w.heap r) sk data moveFile m w w') :
    ∃ cipher, Entry P (w.heap r) (P.uuid w.uuids) data m cipher ∧
      w'.fs.files (metaKey P (P.uuid w.uuids)) = some (metaBytes w.zone m) ∧
      w'.fs.files (dataKey P (P.uuid w.uuids)) = some cipher := by
  obtain ⟨-, -, cipher, hE, hf⟩ := h
  refine ⟨cipher, hE, ?_, ?_⟩
  · rw [hf, Function.update_of_ne hS.ne_meta.symm, written, Function.update_self]
  · rw [hf, Function.update_of_ne hS.ne_data.symm, written,
      Function.update_of_ne (dataKey_ne_metaKey _ _), Function.update_self]

theorem Stored.others {kek : Bytes} {sk : Key} {data : Bytes} {moveFile : Bool}
    {m : VaultFileMeta} (h : Stored P kek sk data moveFile m w w') {k : Key}
    (hd : k ≠ dataKey P (P.uuid w.uuids)) (hm : k ≠ metaKey P (P.uuid w.uuids)) :
    w'.fs.files k = if k = sk ∧ moveFile = true then none else w.fs.files k := by
  obtain ⟨-, -, cipher, -, hf⟩ := h
  rw [hf]
  by_cases hk : k = sk
  · subst hk
    simp
  · rw [Function.update_of_ne hk, written_of_ne hd hm, if_neg fun h => hk h.1]

theorem Stored.others_or {kek : Bytes} {sk : Key} {data : Bytes} {moveFile : Bool}
    {m : VaultFileMeta} (h : Stored P kek sk data moveFile m w w') {k : Key}
    (hd : k ≠ dataKey P (P.uuid w.uuids)) (hm : k ≠ metaKey P (P.uuid w.uuids)) :
    w'.fs.files k = w.fs.files k ∨ w'.fs.files k = none := by
  rw [h.others hd hm]
  split
  · exact .inr rfl
  · exact .inl rfl

/-- A source that an import cannot take, or one that it can. -/
theorem rejects_or_source (hfresh : w.fs.files (dataKey P (P.uuid w.uuids)) = none ∧
    w.fs.files (metaKey P (P.uuid w.uuids)) = none) (r : Ref) (source : File) :
    (w.fs.read source = none ∨ w.fs.read source = some [] ∨ (w.heap r).length ≠ 32) ∨
      ∃ sk data, Source P w r source sk data := by
  refine or_iff_not_imp_left.mpr fun hrej => ?_
  obtain ⟨h₁, h₂⟩ := not_or.mp hrej
  obtain ⟨h₂, h₃⟩ := not_or.mp h₂
  obtain ⟨data, hread⟩ := Option.ne_none_iff_exists'.mp h₁
  obtain ⟨sk, hs, hb⟩ := Option.bind_eq_some_iff.mp hread
  refine ⟨sk, data, hs, hb, ?_, not_not.mp h₃, ?_, ?_⟩
  · rintro rfl
    exact h₂ hread
  · rintro rfl
    exact absurd (hfresh.1.symm.trans hb) nofun
  · rintro rfl
    exact absurd (hfresh.2.symm.trans hb) nofun

section Imports

variable {D : Discipline (device P)} {J : World → Prop} (hD : Moves D J False)
  (hr : ∀ w w', D.rely w w' → TimePasses w w') (hJ : ∀ w', J w' → Stays w w')
  (haes : P.aes.Correct) (hfresh : w.fs.files (dataKey P (P.uuid w.uuids)) = none ∧
    w.fs.files (metaKey P (P.uuid w.uuids)) = none) (hw : J w)
  {r : Ref} {source : File} {mimeType : Text} {moveFile : Bool}

include hD hr hJ haes hfresh hw

/-- An import that has returned has stored its entry. -/
theorem importFile_stored {m : VaultFileMeta}
    (hc : (importFile P source mimeType r moveFile).Completes D w (.ok m) w') :
    ∃ sk data, Source P w r source sk data ∧ Describes J source mimeType m ∧ J w' ∧
      Stored P (w.heap r) sk data moveFile m w w' := by
  rcases rejects_or_source hfresh r source with hrej | ⟨sk, data, hS⟩
  · obtain ⟨⟨e, he⟩, -⟩ := wp_completes (importFile_rejects_wp hD.toAlone hr
      (fun w' h => congrArg List.length (congrFun (hJ w' h).heap r)) hw hrej) hc
    cases he
  · obtain ⟨hw', ⟨m', hm, hM, hstored⟩ | ⟨⟨e, he⟩, -⟩⟩ :=
      wp_completes (importFile_sole hD hJ haes hS hw) hc
    · cases hm
      exact ⟨sk, data, hS, hM, hw', hstored⟩
    · cases he

/-- An import that has thrown has changed no file, and had to. -/
theorem importFile_rejected {e : DartError}
    (hc : (importFile P source mimeType r moveFile).Completes D w (.error e) w') :
    J w' ∧ w'.fs.files = w.fs.files ∧ w'.fs.read source = w.fs.read source ∧
      (w.fs.read source = none ∨ w.fs.read source = some [] ∨ (w.heap r).length ≠ 32 ∨
        P.asserts = true ∧ (mimeType = [] ∨ ∃ b, w.fs.read source = some b ∧ 2 ^ 63 ≤ b.length)) := by
  rcases rejects_or_source hfresh r source with hrej | ⟨sk, data, hS⟩
  · obtain ⟨-, hw', hf, hread, -⟩ := wp_completes (importFile_rejects_wp hD.toAlone hr
      (fun w' h => congrArg List.length (congrFun (hJ w' h).heap r)) hw hrej) hc
    exact ⟨hw', hf, hread, hrej.imp_right (Or.imp_right .inl)⟩
  · obtain ⟨hw', ⟨m', hm, -⟩ | ⟨-, hf, hread, ha, hreject⟩⟩ :=
      wp_completes (importFile_sole hD hJ haes hS hw) hc
    · cases hm
    · refine ⟨hw', hf, hread, .inr (.inr (.inr ⟨ha, hreject.imp_right fun h => ?_⟩))⟩
      exact ⟨data, hS.resolves, h⟩

end Imports

/-! ## Deleting -/

/-- A file that may be there is deleted if it was found. -/
theorem deleteFound_wp {w₀ : World} (hw : Since w₀ w) {f : File} {k : Key}
    (hf : w.fs.resolve f = some k) :
    (when (w.fs.files k).isSome (call (.delete f))).wp (faultless P)
      (fun r w' => r = .ok () ∧ Since w₀ w' ∧ w'.fs.files = Function.update w.fs.files k none ∧
        ∀ p, w.fs.dirs p = true → w'.fs.dirs p = true) w := by
  cases hb : w.fs.files k with
  | none => exact ⟨rfl, hw, (Function.update_eq_self_iff.mpr hb.symm).symm, fun _ => id⟩
  | some b =>
    refine wp_mono _ ?_ (delete_wp (alone_since w₀ False) hw hf hb (alters_faultless _))
    rintro r w₁ ⟨o, ⟨⟨w₂, ho⟩, hw₁, hd, -, -⟩, he⟩
    obtain rfl : o = .done := ho
    rcases he with ⟨-, rfl, hfiles⟩ | ⟨-, ⟨e, h, -⟩ | ⟨h, -⟩⟩
    · exact ⟨rfl, hw₁, hfiles, hd⟩
    · cases h
    · cases h

/-- **A deletion** removes the two files of the identifier. -/
theorem deleteById_sole (hid : '/' ∉ id) (hne : id ≠ []) :
    (deleteById id).wp (faultless P) (fun r w' => r = .ok () ∧ Since w w' ∧ w'.fs.files =
      Function.update (Function.update w.fs.files (metaKey P id) none) (dataKey P id) none) w := by
  have hJ := alone_since (P := P) w False
  have hfail {r : Except DartError Unit} {w' : World} (h : False) : r = .ok () ∧ Since w w' ∧
      w'.fs.files = Function.update (Function.update w.fs.files (metaKey P id) none)
        (dataKey P id) none := h.elim
  unfold deleteById
  apply Leads.seq (when_false (by simpa using hne) (Since.refl w)) (fun h _ _ _ _ => hfail h)
  intro _ w₁ hw₁ hc₁ _
  apply Leads.seq (Leads.after hc₁ (hJ.awaited_leads (fun a w₁ w₂ h hc => ⟨h.1, hc.dirs _ h.2⟩)
    (ensureVaultDir_wp hJ hw₁))) (fun h _ _ _ _ => hfail h)
  rintro _ w₂ hw₂ hc₂ ⟨rfl, -⟩
  apply Leads.seq (Leads.after hc₂ (hJ.awaited_leads (fun _ _ _ h _ => h)
    (Leads.pure hw₂ (R := fun a _ => a = metaFileOf (vaultDir P) id) rfl)))
    (fun h _ _ _ _ => hfail h)
  rintro _ w₃ hw₃ hc₃ rfl
  apply Leads.seq (Leads.after hc₃ (hJ.awaited_leads (fun _ _ _ h _ => h)
    (Leads.pure hw₃ (R := fun a _ => a = dataFileOf (vaultDir P) id) rfl)))
    (fun h _ _ _ _ => hfail h)
  rintro _ w₄ hw₄ hc₄ rfl
  apply Leads.seq (Leads.after hc₄ (fileExists_wp hJ hw₄ (resolve_meta w₄.fs hid)))
    (fun h _ _ _ _ => hfail h)
  rintro _ w₅ hw₅ hc₅ rfl
  apply Leads.seq (Leads.after hc₅ (fileExists_wp hJ hw₅ (resolve_data w₅.fs hid)))
    (fun h _ _ _ _ => hfail h)
  rintro _ w₆ hw₆ hc₆ rfl
  rw [hc₄.files, hc₅.files]
  split
  · -- neither file is there
    rename_i h
    obtain ⟨hm, hd⟩ : w.fs.files (metaKey P id) = none ∧ w.fs.files (dataKey P id) = none := by
      simpa using h
    refine ⟨rfl, hw₆, ?_⟩
    have hm' : Function.update w.fs.files (metaKey P id) none = w.fs.files :=
      Function.update_eq_self_iff.mpr hm.symm
    rw [hc₆.files, hm']
    exact (Function.update_eq_self_iff.mpr hd.symm).symm
  · rw [wp_bind]
    have hmeta := deleteFound_wp (P := P) hw₆ (resolve_meta (P := P) w₆.fs hid)
    rw [hc₆.files] at hmeta
    refine wp_mono _ ?_ hmeta
    rintro _ w₇ ⟨rfl, hw₇, hf₇, hd₇⟩
    have hdata := deleteFound_wp (P := P) hw₇ (resolve_data (P := P) w₇.fs hid)
    rw [hf₇, Function.update_of_ne (dataKey_ne_metaKey id id)] at hdata
    refine wp_mono _ ?_ hdata
    rintro _ w₈ ⟨rfl, hw₈, hf₈, -⟩
    exact ⟨rfl, hw₈, hf₈⟩

/-- The loop of a wipe over files that are there. -/
theorem deleteEach_wp {w₀ : World} (names : List Text) : ∀ {w : World}, Since w₀ w → names.Nodup →
    (∀ n ∈ names, Plain n ∧ w.fs.files ⟨vaultDir P, n⟩ ≠ none) →
    (deleteEach (vaultDir P) names).wp (faultless P) (fun r w' => r = .ok () ∧ Since w₀ w' ∧
      (∀ n ∈ names, w'.fs.files ⟨vaultDir P, n⟩ = none) ∧
      ∀ k, (∀ n ∈ names, k ≠ ⟨vaultDir P, n⟩) → w'.fs.files k = w.fs.files k) w := by
  induction names with
  | nil =>
    intro w hw _ _
    exact ⟨rfl, hw, nofun, fun _ _ => rfl⟩
  | cons n names ih =>
    intro w hw hnd hs
    obtain ⟨hn, hnd⟩ := List.nodup_cons.mp hnd
    obtain ⟨⟨hplain, hne⟩, hs⟩ := List.forall_mem_cons.mp hs
    obtain ⟨b, hb⟩ := Option.ne_none_iff_exists'.mp hne
    have hf : w.fs.resolve ⟨vaultDir P, n⟩ = some ⟨vaultDir P, n⟩ := Fs.resolve_plain w.fs hplain
    have hone := deleteFound_wp (P := P) hw hf
    rw [hb] at hone
    simp only [when, Option.isSome_some, if_true] at hone
    rw [deleteEach, wp_bind, wp_tryCatch]
    refine wp_mono _ ?_ hone
    rintro _ w₁ ⟨rfl, hw₁, hf₁, -⟩
    have hother (k : Key) (hk : k ≠ ⟨vaultDir P, n⟩) : w₁.fs.files k = w.fs.files k := by
      rw [hf₁, Function.update_of_ne hk]
    have hthere : ∀ n' ∈ names, Plain n' ∧ w₁.fs.files ⟨vaultDir P, n'⟩ ≠ none := by
      intro n' hn'
      have hk : (⟨vaultDir P, n'⟩ : Key) ≠ ⟨vaultDir P, n⟩ := by
        intro h
        exact hn ((Key.mk.inj h).2 ▸ hn')
      rw [hother _ hk]
      exact hs n' hn'
    refine wp_mono _ ?_ (ih hw₁ hnd hthere)
    rintro _ w₂ ⟨rfl, hw₂, hgone, hsame⟩
    refine ⟨rfl, hw₂, fun n' hn' => ?_, fun k hk => ?_⟩
    · rcases List.mem_cons.mp hn' with rfl | hn'
      · rw [hsame ⟨vaultDir P, n'⟩ fun m hm h => hn ((Key.mk.inj h).2 ▸ hm), hf₁,
          Function.update_self]
      · exact hgone n' hn'
    · obtain ⟨hk₁, hk⟩ := List.forall_mem_cons.mp hk
      rw [hsame k hk, hother k hk₁]

/-- **A wipe** removes every file of the vault. -/
theorem wipeAll_sole : wipeAll.wp (faultless P) (fun r w' => r = .ok () ∧ Since w w' ∧
    ∀ k : Key, w'.fs.files k = if k.dir = vaultDir P then none else w.fs.files k) w := by
  have hJ := alone_since (P := P) w False
  have hfail {Q : Prop} (h : False) : Q := h.elim
  unfold wipeAll
  apply Leads.seq (hJ.awaited_leads (fun a w₁ w₂ h hc => ⟨h.1, hc.dirs _ h.2⟩)
    (ensureVaultDir_wp hJ (.refl w))) (fun h _ _ _ _ => hfail h)
  rintro _ w₁ hw₁ hc₁ ⟨rfl, hdir⟩
  have hthere : (call (.dirExists (vaultDir P))).wp (faultless P)
      (Leads (Since w) False w₁ fun b _ => b = true) w₁ := by
    apply hJ.look (by trivial) hw₁
    rintro w₂ o _ hc _ rfl
    exact ⟨_, rfl, fun _ _ => hc.dirs _ hdir⟩
  apply Leads.seq (Leads.after hc₁ hthere) (fun h _ _ _ _ => hfail h)
  rintro _ w₂ hw₂ hc₂ rfl
  simp only [when, if_true]
  apply Leads.seq (Leads.after hc₂ (listSync_wp hJ hw₂ fun w₃ names h => ?_))
    (fun h _ _ _ _ => hfail h)
  · intro names w₃ hw₃ hc₃ hnames
    have hlist (n : Text) : n ∈ names ↔ w₃.fs.files ⟨vaultDir P, n⟩ ≠ none := by
      rw [hc₃.files, ← hc₂.files]
      exact hnames.2 n
    have hfiles : ∀ n ∈ names, Plain n ∧ w₃.fs.files ⟨vaultDir P, n⟩ ≠ none := fun n hn =>
      ⟨(w₃.fs.parent _ ((hlist n).mp hn)).2, (hlist n).mp hn⟩
    refine wp_mono _ ?_ (deleteEach_wp names hw₃ hnames.1 hfiles)
    rintro _ w₄ ⟨rfl, hw₄, hgone, hsame⟩
    refine ⟨rfl, hw₄, fun k => ?_⟩
    split
    · rename_i hk
      obtain ⟨dir, n⟩ := k
      obtain rfl : dir = vaultDir P := hk
      by_cases hn : n ∈ names
      · exact hgone n hn
      · rw [hsame ⟨vaultDir P, n⟩ fun m hm h => hn ((Key.mk.inj h).2 ▸ hm)]
        exact not_not.mp fun h => hn ((hlist n).mpr h)
    · rename_i hk
      rw [hsame k fun m _ h => hk (congrArg Key.dir h), hc₃.files]
  · obtain ⟨names', h', hl⟩ := h
    cases h'
    exact hl

/-- **A listing** shows the records of the directory, the latest first. -/
theorem listAll_sole : (listAll P).wp (faultless P) (fun r w' => Since w w' ∧ w.Calm w' ∧
    ∃ names ms, w.fs.Lists (vaultDir P) names ∧ r = .ok (sortMetas ms) ∧
      Reads P False w.zone (fun n => w.fs.files ⟨vaultDir P, n⟩) (names.filter isMeta) ms) w := by
  have hlist := listAll_wp (alone_since (P := P) w False) (fun w' h => h.zone) (.refl w)
    fun w' dir names h => ?_
  · refine wp_mono _ ?_ hlist
    rintro (e | out) w₁ hL
    · exact (hL.error e rfl).elim
    · obtain ⟨names, ms, hn, rfl, hms⟩ := (hL.ok out rfl).resolve_left fun h => h.1
      exact ⟨hL.keeps, hL.calm, names, ms, hn, rfl, hms⟩
  · obtain ⟨names', h', hl⟩ := h
    cases h'
    exact hl

end VaultRepository

/-- The files of the vault after an import. -/
theorem Drawn.stored {w w' : World} {kek : Bytes} {sk : Key} {data : Bytes} {moveFile : Bool}
    {m : VaultFileMeta} (h : Drawn P w)
    (hstored : VaultRepository.Stored P kek sk data moveFile m w w') : Drawn P w' := by
  intro n hn
  rw [hstored.uuids]
  by_cases hm : (⟨vaultDir P, n⟩ : Key) = metaKey P (P.uuid w.uuids)
  · exact ⟨_, Nat.lt_succ_self _, .inl hm⟩
  by_cases hd : (⟨vaultDir P, n⟩ : Key) = dataKey P (P.uuid w.uuids)
  · exact ⟨_, Nat.lt_succ_self _, .inr hd⟩
  have hold := (hstored.others_or hd hm).resolve_right hn
  obtain ⟨i, hi, hk⟩ := h n (hold ▸ hn)
  exact ⟨i, hi.trans (Nat.lt_succ_self _), hk⟩

end CajaSegura
