import CajaSegura.Platform.Sample
import CajaSegura.Services.ListRules
import CajaSegura.Services.MoveRules
import CajaSegura.Services.VaultCalls

/-!
# Crashes and partial failures

Runs of the vault in which any call on files may fail, a write may be cut, and the process may die
at any moment.

## Main definitions

* `unreliable`: calls may throw without effect, and a write may be cut
* `careful`: moreover the contents of a listed entry are not taken away
* `CrashRun`: the runs, with the contents that were imported
* `Intact`: every metadata file is unreadable or has its contents beside it

## Main results

* `Intact.reaches`: the moments of a call are intact when its steps are
* `listed_exports`: along every run whatever is listed can be exported
-/

namespace CajaSegura

open Codec Async
open Program hiding bind
open VaultRepository

variable {P : Platform}

/-! ## Disciplines -/

/-- A call may throw without effect and a write may be cut; a deletion that returns has deleted, and
a listing that returns lists the directory. -/
def Unreliable (w : World) : (op : Op) → Outcome op → Prop
  | .delete _, o => o ≠ .keeps
  | .listSync dir, o => ∀ names, o = .ok names → w.fs.Lists dir names
  | _, _ => True

/-- An entry is not listed: its metadata are not there or unreadable. -/
def Unlisted (P : Platform) (files : Key → Option Bytes) (id : Text) : Prop :=
  ∀ b, files (metaKey P id) = some b → Unreadable b

/-- The file is not the contents of a listed entry. -/
def SparesFile (P : Platform) (w : World) (f : File) : Prop :=
  ∀ id, w.fs.resolve f = some (dataKey P id) → Unlisted P w.fs.files id

/-- The call does not delete, rename or empty the contents of a listed entry. -/
def Spares (P : Platform) (w : World) : (op : Op) → Outcome op → Prop
  | .delete f, o => o = .done → SparesFile P w f
  | .rename f _, o => o = none → SparesFile P w f
  | .writeAsBytes f b, o => b = [] → (∀ e, o ≠ .fails e) → SparesFile P w f
  | _, _ => True

/-- A program that runs alone on unreliable storage. -/
def unreliable (P : Platform) : Discipline (device P) where
  allow := Unreliable
  deliver := fun _ _ _ => True
  rely := TimePasses
  guarantee := fun _ _ => True

/-- A program that runs alone on unreliable storage and spares the contents of listed entries. -/
def careful (P : Platform) : Discipline (device P) where
  allow w op o := Unreliable w op o ∧ Spares P w op o
  deliver := fun _ _ _ => True
  rely := TimePasses
  guarantee := fun _ _ => True

/-! ## Runs -/

/-- What was imported under each identifier drawn. -/
abbrev Ledger := ℕ → Option Bytes

/-- The runs from `w₀` under the key in `kek`. A call may be left at any moment, as when the process
dies; whatever else happens leaves the files alone. -/
inductive CrashRun (P : Platform) (kek : Ref) (w₀ : World) : Ledger → World → Prop
  | start : CrashRun P kek w₀ (fun _ => none) w₀
  | importFile {L : Ledger} {w w' : World} (h : CrashRun P kek w₀ L w) (source : File)
      (mimeType : Text) (moveFile : Bool)
      (hr : (importFile P source mimeType kek moveFile).Reaches (careful P) w w') :
      CrashRun P kek w₀ (Function.update L w.uuids (w.fs.read source)) w'
  | deleteById {L : Ledger} {w w' : World} (h : CrashRun P kek w₀ L w) (id : Text)
      (hr : (deleteById id).Reaches (unreliable P) w w') : CrashRun P kek w₀ L w'
  | wipeAll {L : Ledger} {w w' : World} (h : CrashRun P kek w₀ L w)
      (hr : wipeAll.Reaches (careful P) w w') : CrashRun P kek w₀ L w'
  | other {L : Ledger} {w w' : World} (h : CrashRun P kek w₀ L w)
      (hfiles : w'.fs.files = w.fs.files) (huuids : w.uuids ≤ w'.uuids) (hzone : w'.zone = w.zone)
      (hheap : w'.heap kek = w.heap kek) : CrashRun P kek w₀ L w'

/-! ## The invariant -/

/-- The contents `b` of a metadata file are those of the `n`-th import, and its contents are there. -/
structure Backed (P : Platform) (kek : Bytes) (z : Zone) (L : Ledger) (files : Key → Option Bytes)
    (name : Text) (b : Bytes) (n : ℕ) (m : VaultFileMeta) (data cipher : Bytes) : Prop where
  name : name = P.uuid n ++ ".json".toList
  imported : L n = some data
  entry : Entry P kek (P.uuid n) data m cipher
  meta_eq : b = metaBytes z m
  cipher : files (dataKey P (P.uuid n)) = some cipher

/-- Every metadata file of the vault is unreadable or has its contents beside it. -/
structure Intact (P : Platform) (kek : Bytes) (r : Ref) (z : Zone) (L : Ledger) (w : World) :
    Prop where
  metas : ∀ name b, w.fs.files ⟨vaultDir P, name⟩ = some b → isMeta name = true →
    Unreadable b ∨ ∃ n < w.uuids, ∃ m data cipher,
      Backed P kek z L w.fs.files name b n m data cipher
  heap : w.heap r = kek
  zone : w.zone = z

variable {kek : Bytes} {r : Ref} {z : Zone} {L : Ledger} {w w' : World}

/-- Metadata files that were there before, and the contents of the listed entries. -/
theorem Intact.of_files (h : Intact P kek r z L w) (hheap : w'.heap = w.heap)
    (hzone : w'.zone = w.zone) (huuids : w.uuids ≤ w'.uuids)
    (hsub : ∀ name b, w'.fs.files ⟨vaultDir P, name⟩ = some b → isMeta name = true →
      Unreadable b ∨ w.fs.files ⟨vaultDir P, name⟩ = some b)
    (hdata : ∀ id, ¬ Unlisted P w.fs.files id →
      w'.fs.files (dataKey P id) = w.fs.files (dataKey P id)) : Intact P kek r z L w' := by
  refine ⟨fun name b hb hname => ?_, by rw [hheap, h.heap], by rw [hzone, h.zone]⟩
  by_cases hu : Unreadable b
  · exact .inl hu
  have hb := (hsub name b hb hname).resolve_left hu
  obtain ⟨n, hn, m, data, cipher, hB⟩ := (h.metas name b hb hname).resolve_left hu
  refine .inr ⟨n, hn.trans_le huuids, m, data, cipher, hB.name, hB.imported, hB.entry, hB.meta_eq, ?_⟩
  rw [hdata (P.uuid n), hB.cipher]
  intro hun
  rw [hB.name] at hb
  exact hu (hun b hb)

theorem Intact.refile (h : Intact P kek r z L w) {fs : Fs} {as : List (Sigma Outcome)}
    (hsub : ∀ name b, fs.files ⟨vaultDir P, name⟩ = some b → isMeta name = true →
      Unreadable b ∨ w.fs.files ⟨vaultDir P, name⟩ = some b)
    (hdata : ∀ id, ¬ Unlisted P w.fs.files id → fs.files (dataKey P id) = w.fs.files (dataKey P id)) :
    Intact P kek r z L (w.refile fs as) := by
  have huuids : w.uuids ≤ (w.refile fs as).uuids := le_refl w.uuids
  exact h.of_files rfl rfl huuids hsub hdata

/-- A metadata file has no temporary name. -/
theorem ne_tempKey {k : Key} {now : Instant} {name : Text} (h : isMeta name = true) :
    (⟨vaultDir P, name⟩ : Key) ≠ tempKey k now := by
  rw [isMeta, List.isSuffixOf_iff_suffix] at h
  obtain ⟨id, rfl⟩ := h
  exact (tempKey_ne_metaKey k now id).symm

/-- What is imported next does not change what is known of the earlier imports. -/
theorem Intact.record (h : Intact P kek r z L w) (b : Option Bytes) :
    Intact P kek r z (Function.update L w.uuids b) w := by
  refine ⟨fun name b' hb hname => ?_, h.heap, h.zone⟩
  refine (h.metas name b' hb hname).imp id ?_
  rintro ⟨n, hn, m, data, cipher, hB⟩
  refine ⟨n, hn, m, data, cipher, hB.name, ?_, hB.entry, hB.meta_eq, hB.cipher⟩
  rw [Function.update_of_ne hn.ne, hB.imported]

/-- No entry is listed under an identifier that has not been drawn. -/
theorem Intact.unlisted (h : Intact P kek r z L w) : Unlisted P w.fs.files (P.uuid w.uuids) := by
  intro b hb
  refine (h.metas _ b hb (isMeta_append _)).resolve_right ?_
  rintro ⟨n, hn, m, data, cipher, hB⟩
  have hid := List.append_cancel_right hB.name
  exact absurd (P.uuid_injective hid) hn.ne'

/-! ## Steps -/

/-- The calls by which files are removed: deletions, renamings to a temporary name, and overwriting
with nothing. -/
def Op.Removes : Op → Prop
  | .delete _ => True
  | .rename f t => ∃ now, t = tempFileOf f now
  | .writeAsBytes _ b => b = []
  | op => ¬ op.Mutates

theorem removing_removes : Removing Op.Removes where
  looks op h := by cases op <;> first | exact id | exact absurd h id
  hop := id
  delayed _ := id
  delete _ := trivial
  rename _ now := ⟨now, rfl⟩
  empty _ := rfl

/-- Random bytes, and calls that change nothing. -/
theorem Intact.quiet (h : Intact P kek r z L w) (hq : w.Quiet w') : Intact P kek r z L w' := by
  apply h.of_files hq.heap hq.zone hq.uuids.ge
  · intro name b hb _
    rw [← hq.files]
    exact .inr hb
  · intro id _
    rw [hq.files]

/-- A file is gone that is not the contents of a listed entry. -/
theorem Intact.erase (h : Intact P kek r z L w) {k : Key}
    (hk : ∀ id, k = dataKey P id → Unlisted P w.fs.files id) {fs : Fs} {as : List (Sigma Outcome)}
    (hf : fs.files = Function.update w.fs.files k none) : Intact P kek r z L (w.refile fs as) := by
  apply h.refile
  · intro name b hb _
    refine .inr ?_
    by_cases hn : (⟨vaultDir P, name⟩ : Key) = k
    · have hnone : fs.files ⟨vaultDir P, name⟩ = none := by rw [hf, hn, Function.update_self]
      exact nomatch hnone.symm.trans hb
    · rwa [hf, Function.update_of_ne hn] at hb
  · intro id hid
    have hne : dataKey P id ≠ k := fun he => hid (hk id he.symm)
    rw [hf, Function.update_of_ne hne]

/-- A file that is not the contents of a listed entry is emptied. -/
theorem Intact.empty (h : Intact P kek r z L w) {k : Key}
    (hk : ∀ id, k = dataKey P id → Unlisted P w.fs.files id) {fs : Fs} {as : List (Sigma Outcome)}
    (hf : fs.files = Function.update w.fs.files k (some [])) :
    Intact P kek r z L (w.refile fs as) := by
  apply h.refile
  · intro name b hb _
    by_cases hn : (⟨vaultDir P, name⟩ : Key) = k
    · rw [hf, hn, Function.update_self] at hb
      exact .inl (Option.some.inj hb ▸ Unreadable.nil)
    · rw [hf, Function.update_of_ne hn] at hb
      exact .inr hb
  · intro id hid
    have hne : dataKey P id ≠ k := fun he => hid (hk id he.symm)
    rw [hf, Function.update_of_ne hne]

/-- Some file has a temporary name. -/
theorem Intact.addTemp {k : Key} {now : Instant} {b : Bytes} {fs₁ fs₂ : Fs}
    {as : List (Sigma Outcome)} (h : Intact P kek r z L (w.refile fs₁ as))
    (hf : fs₂.files = Function.update fs₁.files (tempKey k now) (some b)) :
    Intact P kek r z L (w.refile fs₂ as) := by
  apply h.refile
  · intro name b hb hname
    refine .inr ?_
    rwa [hf, Function.update_of_ne (ne_tempKey hname)] at hb
  · intro id _
    rw [hf, Function.update_of_ne (tempKey_ne_dataKey k now id).symm]
    rfl

/-- Nothing has changed. -/
theorem Intact.same (h : Intact P kek r z L w) {fs : Fs} {as : List (Sigma Outcome)}
    (hf : fs.files = w.fs.files) : Intact P kek r z L (w.refile fs as) := by
  apply h.refile
  · intro name b hb _
    rw [hf] at hb
    exact .inr hb
  · intro id _
    rw [hf]

/-- The contents of an entry that is not listed. -/
theorem Intact.addData (h : Intact P kek r z L w) {id : Text} (hid : Unlisted P w.fs.files id)
    {fs : Fs} {as : List (Sigma Outcome)} {c : Bytes}
    (hf : fs.files = Function.update w.fs.files (dataKey P id) (some c)) :
    Intact P kek r z L (w.refile fs as) := by
  apply h.refile
  · intro name b hb hname
    have hn : (⟨vaultDir P, name⟩ : Key) ≠ dataKey P id := by
      rw [isMeta, List.isSuffixOf_iff_suffix] at hname
      obtain ⟨id', rfl⟩ := hname
      exact (dataKey_ne_metaKey id id').symm
    rw [hf, Function.update_of_ne hn] at hb
    exact .inr hb
  · intro id' hid'
    have hn : dataKey P id' ≠ dataKey P id := by
      intro he
      obtain rfl := dataKey_injective he
      exact hid' hid
    rw [hf, Function.update_of_ne hn]

/-- The metadata of an import, whole or cut, beside its contents. -/
theorem Intact.addMeta (h : Intact P kek r z L w) {n : ℕ} (hn : n < w.uuids) {m : VaultFileMeta}
    {data cipher s : Bytes} (hL : L n = some data) (hE : Entry P kek (P.uuid n) data m cipher)
    (hcipher : w.fs.files (dataKey P (P.uuid n)) = some cipher) (hs : s <+: metaBytes z m) {fs : Fs}
    {as : List (Sigma Outcome)}
    (hf : fs.files = Function.update w.fs.files (metaKey P (P.uuid n)) (some s)) :
    Intact P kek r z L (w.refile fs as) := by
  have hdata (id : Text) : fs.files (dataKey P id) = w.fs.files (dataKey P id) := by
    rw [hf, Function.update_of_ne (dataKey_ne_metaKey id _)]
  refine ⟨fun name b hb hname => ?_, h.heap, h.zone⟩
  have hb : fs.files ⟨vaultDir P, name⟩ = some b := hb
  -- the file just written, or one of an earlier entry
  by_cases hnew : (⟨vaultDir P, name⟩ : Key) = metaKey P (P.uuid n)
  · rw [hf, hnew, Function.update_self] at hb
    obtain rfl : s = b := Option.some.inj hb
    -- whole metadata list the import, cut ones cannot be read
    by_cases hcut : s = metaBytes z m
    · exact .inr ⟨n, hn, m, data, cipher, congrArg Key.name hnew, hL, hE, hcut,
        (hdata _).trans hcipher⟩
    · exact .inl (Unreadable.of_cut hs hcut)
  · rw [hf, Function.update_of_ne hnew] at hb
    refine (h.metas name b hb hname).imp id ?_
    rintro ⟨n', hn', m', data', cipher', hB⟩
    exact ⟨n', hn', m', data', cipher', hB.name, hB.imported, hB.entry, hB.meta_eq,
      (hdata _).trans hB.cipher⟩

/-- **The step lemma.** A call that removes files and spares the contents of listed entries. -/
theorem Intact.exec (h : Intact P kek r z L w) {op : Op} (hop : op.Removes) {o : Outcome op}
    (hs : Spares P w op o) : Intact P kek r z L (w.exec P op o).2 := by
  have hspare {f : File} {k : Key} (hf : SparesFile P w f) (hk : w.fs.resolve f = some k) (id : Text)
      (he : k = dataKey P id) : Unlisted P w.fs.files id := hf id (he ▸ hk)
  cases op with
  -- a file that no entry needs is gone, or nothing has happened
  | delete f =>
    rcases w.fs.onDelete_files f o with hf | ⟨ho, k, hk, hf⟩
    · exact h.same hf
    · exact h.erase (hspare (hs ho) hk) hf
  | writeAsBytes f b =>
    -- the only contents that a removal writes are empty ones
    obtain rfl : b = [] := hop
    rcases w.fs.onWrite_files f [] o with hf | ⟨ho, k, s, hk, hs', hf⟩
    · exact h.same hf
    · obtain rfl := List.prefix_nil.mp hs'
      exact h.empty (hspare (hs rfl ho) hk) hf
  | rename f t =>
    -- the source moves to its temporary name, which no metadata file has
    obtain ⟨now, rfl⟩ := hop
    rcases w.fs.onRename_files f _ o with hf | ⟨ho, k, b, hk, hb, k', hk', hf⟩
    · exact h.same hf
    · obtain rfl : tempKey k now = k' := Option.some.inj ((resolve_temp hk now).symm.trans hk')
      have herase : Intact P kek r z L (w.refile (w.fs.erase k)
          (⟨.rename f (tempFileOf f now), o⟩ :: w.record.answers)) :=
        h.erase (hspare (hs ho) hk) rfl
      exact herase.addTemp hf
  | _ => first
    | exact h.quiet (World.quiet_exec w id o)
    | exact absurd trivial hop

theorem Intact.delete (h : Intact P kek r z L w) {f : File} (hs : SparesFile P w f)
    (o : DeleteOutcome) : Intact P kek r z L (w.exec P (.delete f) o).2 := by
  have hop : Op.Removes (.delete f) := trivial
  exact h.exec hop fun _ => hs

/-! ## Calls -/

theorem Intact.timePasses (h : Intact P kek r z L w) (ht : TimePasses w w') :
    Intact P kek r z L w' := by
  obtain ⟨t, rfl⟩ := ht
  exact ⟨h.metas, h.heap, h.zone⟩

/-- A program whose calls remove files. -/
theorem within_keeps {α : Type} {p : App α} (hp : p.Within Op.Removes fun _ _ => False) (w : World) :
    p.wp ((careful P).keeping (Intact P kek r z L)) (fun _ _ => True) w := by
  apply hp.wp (fun _ _ h => h.elim)
  intro op hop w o ho h
  exact h.exec hop ho.2

namespace VaultRepository

/-- A program that is to keep the vault intact is alone with the files. -/
theorem alone_keeping {D : Discipline (device P)} (hr : ∀ w w', D.rely w w' → TimePasses w w')
    (w₀ : World) : Alone (D.keeping (Intact P kek r z L)) (Stays w₀) True := by
  refine alone_of_timePasses w₀ hr (fun w w' hq h => h.quiet hq) (fun w h => ?_)
    fun _ _ _ _ => .inr trivial
  exact h.of_files rfl rfl (Nat.le_succ _) (fun _ _ hb _ => .inr hb) fun _ _ => rfl

theorem importFile_keeps (haes : P.aes.Correct) (hk : kek.length = 32) (h : Intact P kek r z L w)
    (source : File) (mimeType : Text) (moveFile : Bool) :
    (importFile P source mimeType r moveFile).wp ((careful P).keeping
      (Intact P kek r z (Function.update L w.uuids (w.fs.read source)))) (fun _ _ => True) w := by
  have hJ : Alone ((careful P).keeping
      (Intact P kek r z (Function.update L w.uuids (w.fs.read source)))) (Stays w) True :=
    alone_keeping (fun _ _ => id) w
  have hkey (w' : World) (hw' : Stays w w') : w'.heap r = kek := by rw [hw'.heap, h.heap]
  have hlen (w' : World) (hw' : Stays w w') : (w'.heap r).length = 32 := by rw [hkey w' hw', hk]
  have hzone (w' : World) (hw' : Stays w w') : w'.zone = z := hw'.zone.trans h.zone
  have hw : Stays w w := ⟨rfl, rfl⟩
  -- without a source, or with an empty one, nothing has been written when the import ends
  have hrejects (h : w.fs.read source = none ∨ w.fs.read source = some []) :
      (importFile P source mimeType r moveFile).wp ((careful P).keeping
        (Intact P kek r z (Function.update L w.uuids (w.fs.read source)))) (fun _ _ => True) w := by
    refine wp_mono _ (fun _ _ _ => trivial) (importFile_rejects_wp hJ (fun _ _ => id) hlen hw ?_)
    exact h.imp id .inl
  cases hb : w.fs.read source with
  | none => exact hb ▸ hrejects (.inl hb)
  | some b =>
    by_cases hne : b = []
    · subst hne
      exact hb ▸ hrejects (.inr hb)
    rw [hb] at hJ
    obtain ⟨sk, hs, hsk⟩ := Option.bind_eq_some_iff.mp hb
    apply importFile_wp hJ haes hk (fun w' _ _ _ hw' _ => hkey w' hw') hlen hzone hw hs hsk hne
      (fun _ _ => trivial)
    · -- the contents of an entry that is not listed yet
      intro m cipher w₁ hw₁ hp hE w₂ fs as hw₂ hc₂ hd hS h₂
      have hfiles : w₂.fs.files = w.fs.files := hc₂.files.trans hp.files
      rw [← hc₂.files] at hS
      rcases hS with hS | ⟨s, -, hS⟩
      · exact h₂.same hS
      · exact h₂.addData (hfiles ▸ h.unlisted) hS
    · -- its metadata, whole or cut
      intro m cipher w₁ hw₁ hu hf hE w₂ fs as hw₂ hc₂ hd hS h₂
      have hcipher : w₂.fs.files (dataKey P (P.uuid w.uuids)) = some cipher := by
        rw [hc₂.files, hf, Function.update_self]
      have hdrawn : w.uuids < w₂.uuids := by
        rw [hc₂.uuids, hu]
        exact Nat.lt_succ_self _
      rw [← hc₂.files] at hS
      rcases hS with hS | ⟨s, hs, hS⟩
      · exact h₂.same hS
      · exact h₂.addMeta hdrawn (Function.update_self ..) hE hcipher hs hS
    · exact fun _ _ _ _ _ _ _ => trivial
    -- the move of the source only removes, so it keeps every entry by itself
    · intro m cipher w₁ hw₁ hI hE _
      apply within_keeps
      exact Within.bind (within_when (within_moveSource removing_removes _ _ _)) fun _ => trivial

/-- The two files of an identifier lie side by side. -/
theorem resolve_beside {fs : Fs} {vault : Path} {id id' : Text}
    (h : fs.resolve (dataFileOf vault id) = some (dataKey P id')) :
    fs.resolve (metaFileOf vault id) = some (metaKey P id') := by
  obtain ⟨cs, n, -, -, happ⟩ := Fs.splitOn_append id
  have hm : ¬ NoName (n ++ ".json".toList) := not_noName_append (by decide)
  unfold dataFileOf Fs.resolve at h
  unfold metaFileOf Fs.resolve
  rw [happ _ (by decide)] at h ⊢
  simp only [List.getLastD_concat, List.dropLast_concat] at h ⊢
  rw [if_neg hm]
  split at h
  · cases h
  · obtain ⟨dir, hd, hk⟩ := Option.map_eq_some_iff.mp h
    have hdir : dir = vaultDir P := congrArg Key.dir hk
    have hname : n ++ ".enc".toList = id' ++ ".enc".toList := congrArg Key.name hk
    rw [hd, hdir, List.append_cancel_right hname]
    rfl

theorem spares_meta (w : World) (vault : Path) (id : Text) :
    SparesFile P w (metaFileOf vault id) := by
  intro id' h
  obtain ⟨cs, n, -, -, happ⟩ := Fs.splitOn_append id
  unfold metaFileOf Fs.resolve at h
  rw [happ _ (by decide)] at h
  simp only [List.getLastD_concat] at h
  split at h
  · cases h
  · obtain ⟨dir, -, hk⟩ := Option.map_eq_some_iff.mp h
    have hname : n ++ ".json".toList = id' ++ ".enc".toList := congrArg Key.name hk
    have hr := congrArg List.reverse hname
    simp at hr

/-- Without its metadata file the contents are not those of a listed entry. -/
theorem spares_data {w : World} {vault : Path} {id : Text}
    (h : w.fs.read (metaFileOf vault id) = none) : SparesFile P w (dataFileOf vault id) := by
  intro id' hd b hb
  rw [Fs.read_of_resolve (resolve_beside hd), hb] at h
  cases h

theorem deleteById_keeps (id : Text) (w : World) :
    (deleteById id).wp ((unreliable P).keeping (Intact P kek r z L)) (fun _ _ => True) w := by
  have hJ : Alone ((unreliable P).keeping (Intact P kek r z L)) (Stays w) True :=
    alone_keeping (fun _ _ h => h) w
  have hr : ∀ w w', ((unreliable P).keeping (Intact P kek r z L)).rely w w' → TimePasses w w' :=
    fun _ _ h => h
  have hfail : True → ∀ (e : DartError) (w' : World), Stays w w' → w.Calm w' → True :=
    fun _ _ _ _ _ => trivial
  unfold deleteById
  by_cases hne : id = []
  · subst hne
    exact trivial
  apply Leads.seq (when_false (by simpa using hne) ⟨rfl, rfl⟩) hfail
  intro _ w₁ hw₁ hc₁ _
  apply Leads.seq (Leads.after hc₁ (hJ.awaited_leads (fun a w₁ w₂ h hc => ⟨h.1, hc.dirs _ h.2⟩)
    (ensureVaultDir_wp hJ hw₁))) hfail
  rintro _ w₂ hw₂ hc₂ ⟨rfl, -⟩
  rw [wp_bind]
  refine wp_mono _ ?_ (awaited_still hJ.toSteady hr hw₂ (metaFileOf (vaultDir P) id))
  rintro _ w₃ ⟨hw₃, hs₃, rfl⟩
  dsimp only
  rw [wp_bind]
  refine wp_mono _ ?_ (awaited_still hJ.toSteady hr hw₃ (dataFileOf (vaultDir P) id))
  rintro _ w₄ ⟨hw₄, hs₄, rfl⟩
  dsimp only
  rw [wp_bind]
  refine wp_mono _ ?_ (fileExists_still hJ.toSteady hr hw₄ _)
  rintro _ w₅ ⟨hw₅, hs₅, ⟨e, rfl⟩ | rfl⟩
  · trivial
  dsimp only
  rw [wp_bind]
  refine wp_mono _ ?_ (fileExists_still hJ.toSteady hr hw₅ _)
  rintro _ w₆ ⟨hw₆, hs₆, ⟨e, rfl⟩ | rfl⟩
  · trivial
  dsimp only
  -- the contents are deleted only where the metadata file is not there
  have hdata (b : Bool) {w' : World} (h : w'.fs.read (metaFileOf (vaultDir P) id) = none) :
      (when b (call (.delete (dataFileOf (vaultDir P) id)))).wp
        ((unreliable P).keeping (Intact P kek r z L)) (fun _ _ => True) w' := by
    cases b with
    | false => trivial
    | true =>
      refine wp_call.mpr fun w₁ h₁ o _ => ⟨fun hI => ?_, fun _ _ _ => trivial⟩
      rw [← h₁.still.fs] at h
      exact hI.delete (spares_data h) o
  split
  · trivial
  · rw [wp_bind]
    cases hm : w₄.fs.read (metaFileOf (vaultDir P) id) with
    | none =>
      rw [← hs₅.fs, ← hs₆.fs] at hm
      exact hdata _ hm
    -- the metadata file goes first; the contents follow only if it is gone
    | some b =>
      rw [← hs₅.fs, ← hs₆.fs] at hm
      refine wp_call.mpr fun w₇ h₇ o ho => ⟨fun hI => hI.delete (spares_meta _ _ _) o, ?_⟩
      intro w₈ h₈ _
      rw [← h₇.still.fs] at hm
      obtain ⟨k, hk, hb⟩ := Option.bind_eq_some_iff.mp hm
      obtain ⟨hdirs, hends⟩ := Fs.onDelete_of_resolve hk hb o
      rcases hends with ⟨-, hok, hf⟩ | ⟨-, ⟨e, -, he⟩ | ⟨hkeeps, -⟩⟩
      · have hexec : (w₇.exec P (.delete (metaFileOf (vaultDir P) id)) o).1 = .ok () := hok
        rw [hexec]
        refine hdata _ ?_
        have hk' := (Fs.resolve_congr hdirs (metaFileOf (vaultDir P) id)).trans hk
        rw [h₈.still.fs]
        refine (Fs.read_of_resolve hk').trans ?_
        rw [hf, Function.update_self]
      · have hexec : (w₇.exec P (.delete (metaFileOf (vaultDir P) id)) o).1 = .error e := he
        rw [hexec]
        trivial
      · exact absurd hkeeps ho

end VaultRepository

/-! ## Runs -/

/-- **Every moment of a run is intact.** -/
theorem CrashRun.intact (haes : P.aes.Correct) {w₀ : World} (hk : (w₀.heap r).length = 32)
    (hempty : ∀ name, w₀.fs.files ⟨vaultDir P, name⟩ = none) (h : CrashRun P r w₀ L w) :
    Intact P (w₀.heap r) r w₀.zone L w := by
  induction h with
  | start =>
    refine ⟨fun name b hb _ => ?_, rfl, rfl⟩
    rw [hempty] at hb
    cases hb
  | importFile h source mimeType moveFile hr ih =>
    exact keeps_reaches (fun _ _ ht h => h.timePasses ht)
      (importFile_keeps haes hk ih source mimeType moveFile) hr (ih.record _)
  | deleteById h id hr ih =>
    exact keeps_reaches (fun _ _ ht h => h.timePasses ht) (deleteById_keeps id _) hr ih
  | wipeAll h hr ih =>
    exact keeps_reaches (fun _ _ ht h => h.timePasses ht)
      (within_keeps (within_wipeAll removing_removes fun _ => id) _) hr ih
  | other h hfiles huuids hzone hheap ih =>
    refine ⟨fun name b hb hname => ?_, hheap.trans ih.heap, hzone.trans ih.zone⟩
    rw [hfiles] at hb ⊢
    refine (ih.metas name b hb hname).imp id ?_
    rintro ⟨n, hn, hB⟩
    exact ⟨n, hn.trans_le huuids, hB⟩

/-- **Whatever is listed can be exported**, at every moment of every run, as it was imported. -/
theorem listed_exports (haes : P.aes.Correct) {w₀ : World} (hk : (w₀.heap r).length = 32)
    (hempty : ∀ name, w₀.fs.files ⟨vaultDir P, name⟩ = none) (h : CrashRun P r w₀ L w)
    {ms : List VaultFileMeta} {w' : World}
    (hl : (listAll P).Completes (unreliable P) w (.ok ms) w') {m : VaultFileMeta} (hm : m ∈ ms) :
    ∃ n data, m.id = P.uuid n ∧ L n = some data ∧
      (exportClear P m.id r).Returns (faultless P) w data := by
  have hI := h.intact haes hk hempty
  have hJ : Alone (unreliable P) (Stays w) True :=
    alone_of_timePasses w (fun _ _ h => h) (fun _ _ _ => trivial) (fun _ => trivial)
      fun _ _ _ _ => .inr trivial
  have hlist := listAll_wp hJ (fun w' h => h.zone) ⟨rfl, rfl⟩ (fun w dir names ho => ho names rfl)
  rcases (wp_completes hlist hl).ok ms rfl with ⟨-, rfl⟩ | ⟨names, ms', -, rfl, hreads⟩
  · cases hm
  obtain ⟨name, hname, b, now, hb, hread⟩ := hreads.mem (List.mem_mergeSort.mp hm)
  obtain ⟨n, -, m', data, cipher, hB⟩ :=
    (hI.metas name _ hb (List.mem_filter.mp hname).2).resolve_left fun hu => by
      rw [metaOf_unreadable now hu] at hread
      cases hread
  obtain rfl : m'.reread w.zone = m := by
    rw [hB.meta_eq, ← hI.zone, hB.entry.readable.metaOf now] at hread
    exact Option.some.inj hread
  have hid : (m'.reread w.zone).id = P.uuid n := hB.entry.id
  refine ⟨n, data, hid, hB.imported, ?_⟩
  rw [hid]
  refine exportClear_returns (hI.heap ▸ hk) (P.uuid_plain n).1 (P.uuid_plain n).2
    ⟨m', cipher, hI.heap ▸ hB.entry, ?_, hB.cipher⟩
  rw [hB.name, hB.meta_eq, ← hI.zone] at hb
  exact hb

/-! ## A listed entry without contents -/

/-- Deletions work for the name `gone` only, nothing is renamed or emptied, and the vault is listed
as `names`. -/
def clumsy (gone : Option Text) (names : Except DartError (List Text)) : (op : Op) → Outcome op
  | .listSync dir => if dir = vaultDir (.sample .marked) then names else .error (.exception [])
  | .delete f => if gone = some f.rel then .done else .fails (.exception [])
  | .rename .. => some (.exception [])
  | .writeAsBytes _ b => if b = [] then .fails (.exception []) else .done
  | op => usual op

theorem unreliable_clumsy {gone : Option Text} {names : Except DartError (List Text)} {w : World}
    (hw : ∀ ns, names = .ok ns → w.fs.Lists (vaultDir (.sample .marked)) ns) (op : Op) :
    Unreliable w op (clumsy gone names op) := by
  cases op with
  | listSync dir =>
    intro ns h
    dsimp only [clumsy] at h
    split at h
    · rename_i hdir
      exact hdir ▸ hw ns h
    · cases h
  | delete f =>
    change (if gone = some f.rel then DeleteOutcome.done else .fails (.exception [])) ≠ .keeps
    split <;> simp
  | _ => trivial

theorem careful_clumsy (w : World) (op : Op) :
    (careful P).allow w op (clumsy none (.error (.exception [])) op) := by
  refine ⟨unreliable_clumsy (by rintro _ ⟨⟩) op, ?_⟩
  cases op with
  | delete f => exact nofun
  | rename f t => exact nofun
  | writeAsBytes f b =>
    rintro rfl h
    exact absurd rfl (h _)
  | _ => trivial

/-- A listing of the vault. -/
theorem listAll_completes_clumsy {names : List Text} {w : World}
    (hw : w.fs.Lists (vaultDir (.sample .marked)) names) :
    (listAll (.sample .marked)).Completes (unreliable (.sample .marked)) w
      ((listAll (.sample .marked)).run (device (.sample .marked))
        (fun _ => clumsy none (.ok names)) 0 w).1
      ((listAll (.sample .marked)).run (device (.sample .marked))
        (fun _ => clumsy none (.ok names)) 0 w).2 := by
  refine Within.completes_run (D := unreliable _) (G := Eq)
    (S := fun w => w.fs.Lists (vaultDir (.sample .marked)) names) (fun w _ => ⟨w.now, rfl⟩)
    (fun _ _ op h _ => unreliable_clumsy (fun ns hns => Except.ok.inj hns ▸ h) op)
    (fun _ _ _ _ => trivial) ?_ (fun w w' h => h ▸ fun h => h) within_listAll 0 hw
  intro n w op h hop
  have hm : ¬ op.Mutates := by
    rcases hop with (rfl | hop) | ⟨dir, rfl⟩
    · exact id
    · cases op <;> first | exact id | exact absurd hop id
    · exact id
  exact h.congr (World.quiet_exec w hm _).files

/-- The vault after an import. -/
theorem lists_sample (b c : Bytes) : ((((Fs.sample [1]).create (vaultDir (.sample .marked))).put
    (dataKey (.sample .marked) ['u']) c (by decide)).put (metaKey (.sample .marked) ['u']) b
      ⟨rfl, by decide⟩).Lists (vaultDir (.sample .marked))
        ["u.json".toList, "u.enc".toList] := by
  have h : ((Fs.sample [1]).create (vaultDir (.sample .marked))).Lists
      (vaultDir (.sample .marked)) [] :=
    ⟨List.nodup_nil, fun n => iff_of_false List.not_mem_nil fun h => h rfl⟩
  exact (h.put List.not_mem_nil _).put (by decide) _

/-- The run of an import whose source is kept. -/
def imported : Except DartError VaultFileMeta × World :=
  (importFile (.sample .marked) .sample ['t'] 0 false).run (device (.sample .marked))
    (fun _ => clumsy none (.error (.exception []))) 0 (.sample (List.replicate 32 2) [1])

/-- The entry that it leaves. -/
def importedMeta : VaultFileMeta := imported.1.toOption.get (by decide +kernel)

/-- The world in which the process dies between the two writes of another import. -/
def interrupted : World :=
  (importFile (.sample .marked) .sample ['t'] 0 false).runFor (device (.sample .marked))
    (fun _ => clumsy none (.error (.exception []))) 14 0 imported.2

/-- The first entry is to be deleted, and its metadata cannot be. -/
def resisting : Except DartError Unit × World :=
  (deleteById ['u']).run (device (.sample .marked))
    (fun _ => clumsy none (.error (.exception []))) 0 interrupted

theorem lists_resisting : resisting.2.fs.Lists (vaultDir (.sample .marked))
    ["uu.enc".toList, "u.json".toList, "u.enc".toList] := by
  have h : imported.2.fs.Lists (vaultDir (.sample .marked)) ["u.json".toList, "u.enc".toList] :=
    (lists_sample _ _).congr rfl
  exact (h.put (n := "uu.enc".toList) (by decide) ⟨by decide +kernel, by decide⟩).congr rfl

theorem resisting_crashRun : CrashRun (.sample .marked) 0 (.sample (List.replicate 32 2) [1])
    (Function.update (Function.update (fun _ => none) 0 (some [1])) 1 (some [1])) resisting.2 := by
  have hstays (w : World) : TimePasses w w := ⟨w.now, rfl⟩
  have hclumsy (w : World) (op : Op) : (unreliable (.sample .marked)).allow w op
      (clumsy none (.error (.exception [])) op) := unreliable_clumsy (by rintro _ ⟨⟩) op
  have himported := completes_run (D := careful (.sample .marked)) hstays
    (fun _ => careful_clumsy) (fun _ _ _ => trivial)
    (importFile (.sample .marked) .sample ['t'] 0 false) 0 (.sample (List.replicate 32 2) [1])
  have hinterrupted := reaches_runFor (D := careful (.sample .marked)) hstays
    (fun _ => careful_clumsy) (fun _ _ _ => trivial) 14
    (importFile (.sample .marked) .sample ['t'] 0 false) 0 imported.2
  have hresisting := completes_run (D := unreliable (.sample .marked)) hstays
    (fun _ => hclumsy) (fun _ _ _ => trivial) (deleteById ['u']) 0 interrupted
  exact ((CrashRun.start.importFile _ _ _ himported.reaches).importFile _ _ _
    hinterrupted).deleteById _ hresisting.reaches

theorem listed_exports_resisting : ∃ n data, importedMeta.id = List.replicate (n + 1) 'u' ∧
    Function.update (Function.update (fun _ => none : Ledger) 0 (some [1])) 1 (some [1]) n =
      some data ∧
    (exportClear (.sample .marked) importedMeta.id 0).Returns (faultless (.sample .marked))
      resisting.2 data := by
  have hl := listAll_completes_clumsy lists_resisting
  have hr : ((listAll (.sample .marked)).run (device (.sample .marked)) (fun _ => clumsy none
      (.ok ["uu.enc".toList, "u.json".toList, "u.enc".toList])) 0 resisting.2).1 =
        .ok [importedMeta] :=
    ok_of_toOption (by decide +kernel)
  rw [hr] at hl
  exact listed_exports AesGcm.marked_correct rfl (fun _ => rfl) resisting_crashRun hl
    (List.mem_singleton_self _)

/-- The run of an import whose source cannot be deleted, and of the entry only the contents. -/
def halfErased : Except DartError VaultFileMeta × World :=
  (importFile (.sample .marked) .sample ['t'] 0 true).run (device (.sample .marked))
    (fun _ => clumsy (some "u.enc".toList) (.error (.exception []))) 0
    (.sample (List.replicate 32 2) [1])

theorem lists_halfErased :
    halfErased.2.fs.Lists (vaultDir (.sample .marked)) ["u.json".toList] :=
  ((lists_sample _ _).erase "u.enc".toList).congr rfl

/-- The entry is listed and cannot be exported. -/
theorem listed_without_contents :
    (importFile (.sample .marked) .sample ['t'] 0 true).Completes (unreliable (.sample .marked))
        (.sample (List.replicate 32 2) [1]) halfErased.1 halfErased.2 ∧
      (∃ w', (listAll (.sample .marked)).Completes (unreliable (.sample .marked)) halfErased.2
        (.ok [importedMeta]) w') ∧
      (exportClear (.sample .marked) importedMeta.id 0).Throws (faultless (.sample .marked))
        halfErased.2 := by
  refine ⟨?_, ?_, ?_⟩
  · exact completes_run (D := unreliable _) (fun w => ⟨w.now, rfl⟩)
      (fun _ w op => unreliable_clumsy (by rintro _ ⟨⟩) op) (fun _ _ _ => trivial) _ 0 _
  · have hl := listAll_completes_clumsy lists_halfErased
    have hr : ((listAll (.sample .marked)).run (device (.sample .marked)) (fun _ => clumsy none
        (.ok ["u.json".toList])) 0 halfErased.2).1 = .ok [importedMeta] :=
      ok_of_toOption (by decide +kernel)
    rw [hr] at hl
    exact ⟨_, hl⟩
  · have hid : importedMeta.id = ['u'] := by decide +kernel
    rw [hid]
    refine exportClear_throws rfl (by decide) (.inr ?_)
    decide +kernel

end CajaSegura
