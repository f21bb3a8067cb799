import CajaSegura.Services.VaultRules

/-!
# What a listing shows

## Main definitions

* `Reads`: the records of a list of files

## Main results

* `VaultRepository.listAll_wp`: the records of the directory, sorted
-/

namespace CajaSegura

open Codec Async
open Program hiding bind

variable {P : Platform}

/-- The records that are read from the files of a directory; where `F`, a file may be left out. -/
inductive Reads (P : Platform) (F : Prop) (z : Zone) (files : Text → Option Bytes) :
    List Text → List VaultFileMeta → Prop
  | nil : Reads P F z files [] []
  | skip {n : Text} {names : List Text} {ms : List VaultFileMeta}
      (hn : F ∨ ∀ b, files n = some b → ∃ now, metaOf P z now b = none)
      (h : Reads P F z files names ms) : Reads P F z files (n :: names) ms
  | read {n : Text} {names : List Text} {m : VaultFileMeta} {ms : List VaultFileMeta} {b : Bytes}
      {now : DateTime} (hn : files n = some b) (hm : metaOf P z now b = some m)
      (h : Reads P F z files names ms) : Reads P F z files (n :: names) (m :: ms)

/-- Every record comes from a file. -/
theorem Reads.mem {F : Prop} {z : Zone} {files : Text → Option Bytes} {names : List Text}
    {ms : List VaultFileMeta} (h : Reads P F z files names ms) {m : VaultFileMeta} (hm : m ∈ ms) :
    ∃ n ∈ names, ∃ b now, files n = some b ∧ metaOf P z now b = some m := by
  induction h with
  | nil => cases hm
  | skip _ _ ih =>
    obtain ⟨n, hn, h⟩ := ih hm
    exact ⟨n, List.mem_cons_of_mem _ hn, h⟩
  | read hn hr _ ih =>
    rcases List.mem_cons.mp hm with rfl | hm
    · exact ⟨_, List.mem_cons_self, _, _, hn, hr⟩
    · obtain ⟨n, hn, h⟩ := ih hm
      exact ⟨n, List.mem_cons_of_mem _ hn, h⟩

/-- The records of files that are read alike at every moment. -/
theorem Reads.eq_filterMap {z : Zone} {files : Text → Option Bytes} {names : List Text}
    {ms : List VaultFileMeta} (h : Reads P False z files names ms) {g : Text → Option VaultFileMeta}
    (hg : ∀ n ∈ names, ∃ b, files n = some b ∧ ∀ now, metaOf P z now b = g n) :
    ms = names.filterMap g := by
  induction h with
  | nil => rfl
  | skip hn _ ih =>
    obtain ⟨⟨b, hb, hread⟩, hg⟩ := List.forall_mem_cons.mp hg
    obtain ⟨now, hnone⟩ := hn.resolve_left not_false b hb
    rw [List.filterMap_cons_none ((hread now).symm.trans hnone), ih hg]
  | read hn hm _ ih =>
    obtain ⟨⟨b, hb, hread⟩, hg⟩ := List.forall_mem_cons.mp hg
    rw [hb] at hn
    cases hn
    rw [List.filterMap_cons_some ((hread _).symm.trans hm), ih hg]

namespace VaultRepository

variable {D : Discipline (device P)} {J : World → Prop} {F : Prop}

theorem readAll_wp (hJ : Alone D J F) {z : Zone} (hz : ∀ w, J w → w.zone = z) {vault : Path}
    (names : List Text) : ∀ (out : List VaultFileMeta) (w : World), J w →
      (∀ n ∈ names, Plain n ∧ w.fs.files ⟨vault, n⟩ ≠ none) →
      (readAll P (names.map fun n => ⟨vault, n⟩) out).wp D (Leads J False w fun out' _ =>
        ∃ ms, out' = out ++ ms ∧ Reads P F z (fun n => w.fs.files ⟨vault, n⟩) names ms) w := by
  induction names with
  | nil =>
    intro out w hw _
    exact Leads.pure hw ⟨[], (List.append_nil out).symm, .nil⟩
  | cons n names ih =>
    intro out w hw hs
    obtain ⟨⟨hn, hne⟩, hs⟩ := List.forall_mem_cons.mp hs
    obtain ⟨b, hb⟩ := Option.ne_none_iff_exists'.mp hne
    have hf : w.fs.resolve ⟨vault, n⟩ = some ⟨vault, n⟩ := Fs.resolve_plain w.fs hn
    -- one file: it is skipped, or its record is appended
    have hstep : ((do return out ++ [← readMeta P ⟨vault, n⟩] : App _).tryCatch
        fun _ => return out).wp D (Leads J False w fun out' _ =>
          (out' = out ∧ (F ∨ ∃ now, metaOf P z now b = none)) ∨
            ∃ m now, out' = out ++ [m] ∧ metaOf P z now b = some m) w := by
      rw [wp_tryCatch, wp_bind]
      refine wp_mono _ ?_ (readMeta_reads hJ hz hw hf hb)
      rintro (e | m) w₁ ⟨hw₁, hc₁, hok, herr⟩
      · exact Leads.after (D := D) hc₁ (Leads.pure hw₁ (.inl ⟨rfl, herr e rfl⟩))
      · obtain ⟨now, hm⟩ := hok m rfl
        exact Leads.after (D := D) hc₁ (Leads.pure hw₁ (.inr ⟨m, now, rfl, hm⟩))
    rw [List.map_cons, readAll]
    apply Leads.bind hstep
    intro out' w₁ hw₁ hc₁ hout
    rw [← hc₁.files] at hs hb ⊢
    refine wp_mono _ ?_ (ih out' w₁ hw₁ hs)
    rintro r w₂ ⟨hw₂, hc₂, hok, herr⟩
    refine ⟨hw₂, hc₂, fun a ha => ?_, herr⟩
    obtain ⟨ms, rfl, hms⟩ := hok a ha
    -- the same, in front of the records of the other files
    rcases hout with ⟨rfl, hu⟩ | ⟨m, now, rfl, hm⟩
    · refine ⟨ms, rfl, .skip (hu.imp id fun hu b' hb' => ?_) hms⟩
      obtain rfl : b = b' := Option.some.inj (hb.symm.trans hb')
      exact hu
    · exact ⟨m :: ms, by simp, .read hb hm hms⟩

/-- The name of a metadata file. -/
def isMeta (n : Text) : Bool := ".json".toList.isSuffixOf n

theorem isMeta_append (id : Text) : isMeta (id ++ ".json".toList) = true := by
  rw [isMeta, List.isSuffixOf_iff_suffix]
  exact List.suffix_append _ _

theorem isSuffixOf_path (vault : Path) (n : Text) :
    ".json".toList.isSuffixOf (File.path ⟨vault, n⟩) = isMeta n := by
  rw [isMeta, Bool.eq_iff_iff, List.isSuffixOf_iff_suffix, List.isSuffixOf_iff_suffix, File.path]
  constructor
  · intro h
    rcases List.suffix_or_suffix_of_suffix h
      (List.suffix_append (pathText vault) ('/' :: n)) with h | h
    · rcases List.suffix_cons_iff.mp h with h | h
      · exact absurd h (by simp)
      · exact h
    · -- a shorter name would put the separator into the extension
      have hm : '/' ∈ ".json".toList := h.subset List.mem_cons_self
      exact absurd hm (by decide)
  · intro h
    exact (h.trans (List.suffix_cons '/' n)).trans (List.suffix_append _ _)

theorem listSync_wp (hJ : Alone D J F) {w : World} (hw : J w) {dir : Path}
    (hlist : ∀ w names, D.allow w (.listSync dir) (.ok names) → w.fs.Lists dir names) :
    (call (.listSync dir)).wp D (Leads J F w fun names _ => w.fs.Lists dir names) w := by
  apply hJ.call_leads (by simp [Op.Mutates]) hw
  intro w₁ o hw₁ hc₁ ho
  cases o with
  | ok names =>
    refine ⟨fun a ha _ _ => ?_, by rintro e ⟨⟩⟩
    obtain rfl : names = a := by
      cases ha
      rfl
    have hl := hlist w₁ names ho
    unfold Fs.Lists at hl ⊢
    rw [hc₁.files] at hl
    exact hl
  | error e =>
    refine ⟨by rintro a ⟨⟩, fun _ _ => (hJ.fault _ _ _ ho).resolve_left ?_⟩
    rintro ⟨names, hn, -⟩
    cases hn

/-- **A listing** shows the records of the directory; it may show nothing where calls fail. -/
theorem listAll_wp (hJ : Alone D J F) {z : Zone} (hz : ∀ w, J w → w.zone = z) {w : World}
    (hw : J w)
    (hlist : ∀ w dir names, D.allow w (.listSync dir) (.ok names) → w.fs.Lists dir names) :
    (listAll P).wp D (Leads J False w fun out _ => F ∧ out = [] ∨ ∃ names ms,
      w.fs.Lists (vaultDir P) names ∧ out = sortMetas ms ∧
      Reads P F z (fun n => w.fs.files ⟨vaultDir P, n⟩) (names.filter isMeta) ms) w := by
  unfold listAll
  rw [wp_tryCatch]
  have hbody : (do
      let vault ← awaited ensureVaultDir
      let names : List Text ← call (.listSync vault)
      let files := (names.map fun n => (⟨vault, n⟩ : File)).filter fun f =>
        ".json".toList.isSuffixOf f.path
      let out ← readAll P files []
      return sortMetas out : App _).wp D (Leads J F w fun out _ => ∃ names ms,
        w.fs.Lists (vaultDir P) names ∧ out = sortMetas ms ∧
        Reads P F z (fun n => w.fs.files ⟨vaultDir P, n⟩) (names.filter isMeta) ms) w := by
    apply Leads.bind (hJ.awaited_leads (fun a w₁ w₂ h hc => ⟨h.1, hc.dirs _ h.2⟩)
      (ensureVaultDir_wp hJ hw))
    rintro _ w₁ hw₁ hc₁ ⟨rfl, -⟩
    apply Leads.bind (listSync_wp hJ hw₁ fun w names => hlist w _ names)
    intro names w₂ hw₂ hc₂ hnames
    have hc := hc₁.trans hc₂
    -- the names of the metadata files are told by their path or by their name alike
    have hfiles : ((names.map fun n => (⟨vaultDir P, n⟩ : File)).filter fun f =>
        ".json".toList.isSuffixOf f.path) =
        (names.filter isMeta).map fun n => (⟨vaultDir P, n⟩ : File) := by
      rw [List.filter_map]
      congr 2
      funext n
      exact isSuffixOf_path (vaultDir P) n
    dsimp only
    rw [hfiles]
    have hthere : ∀ n ∈ names.filter isMeta,
        Plain n ∧ w₂.fs.files ⟨vaultDir P, n⟩ ≠ none := by
      intro n hn
      have hne := (hnames.2 n).mp (List.mem_filter.mp hn).1
      exact ⟨(w₁.fs.parent _ hne).2, hc₂.files ▸ hne⟩
    have hread := readAll_wp hJ hz (names.filter isMeta) [] w₂ hw₂ hthere
    rw [hc.files] at hread
    apply Leads.bind (wp_mono _ (fun _ _ h => ⟨h.keeps, h.calm, h.ok, fun e he =>
      (h.error e he).elim⟩) hread)
    rintro out w₃ hw₃ _ ⟨ms, rfl, hms⟩
    refine Leads.pure hw₃ ⟨names, out, ?_, rfl, hms⟩
    unfold Fs.Lists at hnames ⊢
    rw [hc₁.files] at hnames
    exact hnames
  refine wp_mono _ ?_ hbody
  rintro (e | a) w₁ hL
  -- whatever is thrown, the listing is empty
  · exact ⟨hL.keeps, hL.calm, fun a ha => .inl ⟨hL.error e rfl, by cases ha; rfl⟩, nofun⟩
  · exact ⟨hL.keeps, hL.calm, fun b hb => .inr (by cases hb; exact hL.ok a rfl), nofun⟩

/-- The latest stand first. -/
theorem pairwise_sortMetas (ms : List VaultFileMeta) :
    (sortMetas ms).Pairwise fun a b => b.createdAt.micros ≤ a.createdAt.micros := by
  let le (a b : VaultFileMeta) := decide (b.createdAt.micros ≤ a.createdAt.micros)
  have htrans : ∀ a b c, le a b → le b c → le a c := fun a b c hab hbc =>
    decide_eq_true (Int.le_trans (of_decide_eq_true hbc) (of_decide_eq_true hab))
  have htotal : ∀ a b, le a b || le b a := fun a b => by
    simpa [le] using Int.le_total b.createdAt.micros a.createdAt.micros
  exact (List.pairwise_mergeSort htrans htotal ms).imp of_decide_eq_true

theorem Seeing.readAll {A : Op → Prop} {G : World → World → Prop} (hA : Seeing A)
    (files : List File) : ∀ out, (readAll P files out).Within A G := by
  induction files with
  | nil => exact fun _ => trivial
  | cons f files ih =>
    intro out
    exact Within.bind (Within.tryCatch (Within.bind (Seeing.readMeta hA f) fun _ => trivial)
      fun _ => trivial) ih

theorem Seeing.listAll {A : Op → Prop} {G : World → World → Prop} (hA : Seeing A)
    (hlist : ∀ dir, A (.listSync dir)) : (listAll P).Within A G := by
  refine Within.tryCatch ?_ fun _ => trivial
  refine Within.bind (Seeing.ensureVaultDir hA) fun vault => ?_
  refine Within.bind (within_call.mpr (hlist vault)) fun names => ?_
  exact Within.bind (Seeing.readAll hA _ _) fun _ => trivial

theorem within_readAll {G : World → World → Prop} (files : List File) :
    ∀ out, (readAll P files out).Within Op.Harmless G := Seeing.readAll seeing_harmless files

theorem within_listAll {G : World → World → Prop} :
    (listAll P).Within (fun op => op.Harmless ∨ ∃ dir, op = .listSync dir) G := by
  apply Seeing.listAll
  · exact ⟨fun op h => .inl (seeing_harmless.sees op h), .inl seeing_harmless.hop⟩
  · exact fun dir => .inr ⟨dir, rfl⟩

theorem ensureVaultDir_completes (w : World) : ∃ w',
    (awaited ensureVaultDir).Completes (faultless P) w (.ok (vaultDir P)) w' ∧ w.Calm w' := by
  obtain ⟨r, w', hdir⟩ := Within.completes live_faultless
    (within_ensureVaultDir (G := fun _ _ => True)) w
  have hJ := alone_faultless (P := P) w
  have hvault := wp_completes (hJ.awaited_leads (fun a w₁ w₂ h hc => ⟨h.1, hc.dirs _ h.2⟩)
    (ensureVaultDir_wp hJ ⟨rfl, rfl⟩)) hdir
  cases r with
  | error e => exact (hvault.error e rfl).elim
  | ok vault =>
    obtain ⟨rfl, -⟩ := hvault.ok vault rfl
    exact ⟨w', hdir, hvault.calm⟩

theorem listSync_completes {w : World} {dir : Path} {names : List Text} (hn : w.fs.Lists dir names) :
    (call (.listSync dir)).Completes (faultless P) w (.ok names)
      (w.exec P (.listSync dir) (.ok names)).2 :=
  ⟨w, ⟨_, rfl⟩, .ok names, ⟨names, rfl, hn⟩, _, ⟨_, rfl⟩, trivial, rfl, rfl⟩

/-- A listing of a directory that has one ends. -/
theorem listAll_completes {w : World} {names : List Text}
    (hn : w.fs.Lists (vaultDir P) names) :
    ∃ r w', (listAll P).Completes (faultless P) w r w' := by
  obtain ⟨w₁, hdir, hc⟩ := ensureVaultDir_completes (P := P) w
  have hlist := listSync_completes (P := P) (hn.congr hc.files)
  refine Completes.tryCatch (hdir.bind (hlist.bind ?_)) fun e w => ⟨_, _, rfl, rfl⟩
  exact Within.completes live_faultless (Within.bind (within_readAll (G := fun _ _ => True) _ _)
    fun out => Within.pure (sortMetas out)) _

end VaultRepository

end CajaSegura
