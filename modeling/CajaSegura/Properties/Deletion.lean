import CajaSegura.Platform.Sample
import CajaSegura.Services.SoleRules
import CajaSegura.Services.VaultCalls

/-!
# Deleting what a listing shows

A listing takes the identifier of an entry from the contents of its metadata file, a deletion makes
the names of the files from the identifier. The directory of the vault holds anything.

## Main definitions

* `ReadFrom`: a record is what is read from a metadata file of the vault
* `Deletes`: a deletion removes two files and nothing else

## Main results

* `VaultRepository.deleteById_listed`: an entry whose record names its own file is deleted
-/

namespace CajaSegura

open Codec Async
open Program hiding bind

variable {P : Platform} {w w₁ w₂ : World}

/-- `m` is read from the file `<name>.json` of the vault. -/
def ReadFrom (P : Platform) (w : World) (name : Text) (m : VaultFileMeta) : Prop :=
  ∃ b now, w.fs.files (metaKey P name) = some b ∧ metaOf P w.zone now b = some m

namespace VaultRepository

/-- What is listed is read from the metadata files of the vault. -/
theorem listAll_readFrom {out : List VaultFileMeta}
    (h : (listAll P).Completes (faultless P) w (.ok out) w₁) {m : VaultFileMeta} (hm : m ∈ out) :
    ∃ name, ReadFrom P w name m := by
  obtain ⟨-, -, names, ms, -, hout, hms⟩ := wp_completes listAll_sole h
  cases hout
  obtain ⟨n, hn, b, now, hb, hread⟩ := hms.mem ((List.mergeSort_perm ms _).mem_iff.mp hm)
  obtain ⟨name, rfl⟩ := List.isSuffixOf_iff_suffix.mp (List.mem_filter.mp hn).2
  exact ⟨name, b, now, hb, hread⟩

/-- The name of a file of the vault has no separator. -/
theorem ReadFrom.slash_notMem {name : Text} {m : VaultFileMeta} (h : ReadFrom P w name m) :
    '/' ∉ name := by
  obtain ⟨b, now, hb, -⟩ := h
  have hplain := (w.fs.parent (metaKey P name) (by simp [hb])).2
  exact fun hs => hplain.1 (List.mem_append_left _ hs)

/-- A deletion that works ends, and only so. -/
theorem deleteById_returns {id : Text} (hid : '/' ∉ id) (hne : id ≠ []) :
    (deleteById id).Returns (faultless P) w () := by
  have hlive : (faultless P).Live fun op => ∀ dir, op ≠ .listSync dir :=
    ⟨fun w op h => ⟨usual op, good_usual w h⟩, fun _ _ _ _ => trivial, fun w => ⟨w.now, rfl⟩⟩
  refine Within.returns hlive (within_deleteById (G := fun _ _ => True) removing_unlisted id) ?_
  exact wp_mono _ (fun _ _ h => h.1) (deleteById_sole hid hne)

/-- **Deleting what a listing shows.** Whatever the directory holds, an entry that is listed and
whose record names the file from which it is read is deleted: the two files of that name are removed
and no other file is touched. A listing after that shows an entry of the identifier only if it is
read from another file. -/
theorem deleteById_listed {out : List VaultFileMeta}
    (h : (listAll P).Completes (faultless P) w (.ok out) w₁) :
    ∀ e ∈ out, (∃ name, ReadFrom P w name e) ∧ (ReadFrom P w e.id e → e.id ≠ [] →
      (deleteById e.id).Returns (faultless P) w₁ () ∧
        ∀ w₂, (deleteById e.id).Completes (faultless P) w₁ (.ok ()) w₂ →
          w₂.fs.files = Function.update (Function.update w.fs.files (metaKey P e.id) none)
            (dataKey P e.id) none ∧
          ∀ out' w₃, (listAll P).Completes (faultless P) w₂ (.ok out') w₃ → ∀ m ∈ out', m.id = e.id →
            ∃ name, name ≠ e.id ∧ ReadFrom P w name m) := by
  intro e he
  obtain ⟨hw₁, hcalm, -⟩ := wp_completes listAll_sole h
  refine ⟨listAll_readFrom h he, fun hfrom hne => ?_⟩
  have hid := ReadFrom.slash_notMem hfrom
  refine ⟨deleteById_returns hid hne, fun w₂ hc => ?_⟩
  obtain ⟨-, hw₂, hfiles⟩ := wp_completes (deleteById_sole hid hne) hc
  rw [hcalm.files] at hfiles
  refine ⟨hfiles, fun out' w₃ h' m hm hmid => ?_⟩
  obtain ⟨name, b, now, hb, hread⟩ := listAll_readFrom h' hm
  have hname : name ≠ e.id := by
    rintro rfl
    rw [hfiles, Function.update_of_ne (dataKey_ne_metaKey _ _).symm, Function.update_self] at hb
    cases hb
  rw [hfiles, Function.update_of_ne (dataKey_ne_metaKey _ _).symm,
    Function.update_of_ne (metaKey_injective.ne hname)] at hb
  rw [hw₂.zone, hw₁.zone] at hread
  exact ⟨name, hname, b, now, hb, hread⟩

/-! ## A metadata file under another name -/

/-- A complete record of the identifier. -/
def recordOf (id : Text) : VaultFileMeta where
  id := id
  originalName := ['a']
  mimeType := ['t']
  originalSize := 1
  createdAt := (World.sample [] []).now.local
  dekWrappedB64 := Base64.encode [1]
  dekWrapIvB64 := Base64.encode [1]
  fileIvB64 := Base64.encode [1]

/-- A vault with one file, `a.json`, which holds the record. -/
def copiedWorld (id : Text) : World :=
  { World.sample [] [] with
    fs := ((Fs.sample []).create (vaultDir (.sample .marked))).put
      ⟨vaultDir (.sample .marked), "a.json".toList⟩
      (metaBytes (World.sample [] []).zone (recordOf id)) (by decide) }

theorem lists_copiedWorld (id : Text) :
    (copiedWorld id).fs.Lists (vaultDir (.sample .marked)) ["a.json".toList] := by
  have h : ((Fs.sample []).create (vaultDir (.sample .marked))).Lists
      (vaultDir (.sample .marked)) [] :=
    ⟨List.nodup_nil, fun n => iff_of_false List.not_mem_nil fun h => h rfl⟩
  exact h.put List.not_mem_nil (by decide)

theorem valid_recordOf {id : Text} (hid : id ≠ []) : (recordOf id).Valid := by
  have hone : Base64.encode [1] ≠ [] := Base64.encode_ne_nil (List.cons_ne_nil _ _)
  simp [VaultFileMeta.Valid, VaultFileMeta.assertions, recordOf, hid, hone]

theorem readable_recordOf {id : Text} (hid : id ≠ []) :
    (recordOf id).Readable (.sample .marked) :=
  ⟨VaultFileMeta.make_of_valid (valid_recordOf hid) _, rfl, by simp [recordOf]⟩

theorem sortMetas_singleton (m : VaultFileMeta) : sortMetas [m] = [m] :=
  (List.mergeSort_perm [m] _).eq_singleton

/-- The listing of a vault with one metadata file. -/
theorem listAll_single {n : Text} {z : Zone} {m : VaultFileMeta}
    (hl : w.fs.Lists (vaultDir P) [n]) (hn : isMeta n = true)
    (hb : w.fs.files ⟨vaultDir P, n⟩ = some (metaBytes z m)) (hz : w.zone = z)
    (hm : m.Readable P) :
    ∃ w₁, (listAll P).Completes (faultless P) w (.ok [m.reread z]) w₁ := by
  obtain ⟨r, w₁, h⟩ := listAll_completes hl
  obtain ⟨-, -, names, ms, hnames, rfl, hms⟩ := wp_completes listAll_sole h
  obtain rfl : names = [n] := by
    refine List.perm_singleton.mp ((List.perm_ext_iff_of_nodup hnames.1 hl.1).mpr ?_)
    exact fun n' => (hnames.2 n').trans (hl.2 n').symm
  rw [List.filter_cons_of_pos hn, List.filter_nil, hz] at hms
  have hread : ms = [n].filterMap fun _ => some (m.reread z) := by
    apply hms.eq_filterMap
    intro n' hn'
    obtain rfl := List.mem_singleton.mp hn'
    exact ⟨_, hb, fun now => hm.metaOf now⟩
  obtain rfl : ms = [m.reread z] := hread
  rw [sortMetas_singleton] at h
  exact ⟨w₁, h⟩

/-- Its listing shows what is read from the file. -/
theorem listAll_copied {id : Text} (hid : id ≠ []) : ∃ m w₁, (listAll (.sample .marked)).Completes
    (faultless (.sample .marked)) (copiedWorld id) (.ok [m]) w₁ ∧
    ReadFrom (.sample .marked) (copiedWorld id) ['a'] m ∧
    m = (recordOf id).reread (copiedWorld id).zone := by
  have hb : (copiedWorld id).fs.files ⟨vaultDir (.sample .marked), "a.json".toList⟩ =
      some (metaBytes (copiedWorld id).zone (recordOf id)) := by simp [copiedWorld, Fs.put]
  obtain ⟨w₁, h⟩ := listAll_single (lists_copiedWorld id) (by decide) hb rfl
    (readable_recordOf hid)
  have now : DateTime := (recordOf id).createdAt
  exact ⟨_, w₁, h, ⟨_, now, hb, (readable_recordOf hid).metaOf now⟩, rfl⟩

/-- A complete record under the name of another entry is listed, and a deletion that works leaves
its file where it is, so that it is listed again. -/
theorem deleteById_copied : ∃ e w₁ w₂ w₃, (listAll (.sample .marked)).Completes
      (faultless (.sample .marked)) (copiedWorld ['b']) (.ok [e]) w₁ ∧
    ReadFrom (.sample .marked) (copiedWorld ['b']) ['a'] e ∧ VaultFileMeta.Valid e ∧
    (deleteById e.id).Completes (faultless (.sample .marked)) w₁ (.ok ()) w₂ ∧
    w₂.fs.files (metaKey (.sample .marked) ['a']) ≠ none ∧
    (listAll (.sample .marked)).Completes (faultless (.sample .marked)) w₂ (.ok [e]) w₃ := by
  have hne : ['b'] ≠ [] := List.cons_ne_nil _ _
  obtain ⟨e, w₁, h, hfrom, rfl⟩ := listAll_copied hne
  obtain ⟨⟨w₂, hdel⟩, -⟩ : (deleteById ['b']).Returns (faultless (.sample .marked)) w₁ () :=
    deleteById_returns (by decide) hne
  obtain ⟨hw₁, hcalm, -⟩ := wp_completes listAll_sole h
  obtain ⟨-, hw₂, hfiles⟩ := wp_completes (deleteById_sole (by decide) hne) hdel
  -- the two files of the identifier are not there
  have hsame : w₂.fs.files = (copiedWorld ['b']).fs.files := by
    rw [hfiles, hcalm.files]
    have hmeta : (copiedWorld ['b']).fs.files (metaKey (.sample .marked) ['b']) = none := by decide
    have hdata : (copiedWorld ['b']).fs.files (dataKey (.sample .marked) ['b']) = none := by decide
    have hgone {k : Key} (hk : (copiedWorld ['b']).fs.files k = none) :
        Function.update (copiedWorld ['b']).fs.files k none = (copiedWorld ['b']).fs.files := by
      rw [← hk, Function.update_eq_self]
    rw [hgone hmeta, hgone hdata]
  have hb : w₂.fs.files ⟨vaultDir (.sample .marked), "a.json".toList⟩ =
      some (metaBytes (copiedWorld ['b']).zone (recordOf ['b'])) := by
    rw [hsame]
    simp [copiedWorld, Fs.put]
  obtain ⟨w₃, hagain⟩ := listAll_single ((lists_copiedWorld ['b']).congr hsame) (by decide) hb
    (hw₂.zone.trans hw₁.zone) (readable_recordOf hne)
  refine ⟨_, w₁, w₂, w₃, h, hfrom, valid_recordOf hne, hdel, ?_, hagain⟩
  exact fun hnone => absurd (hb.symm.trans hnone) (Option.some_ne_none _)

theorem deleteById_listed_own : ∃ e w₁, VaultFileMeta.id e = ['a'] ∧
    (deleteById e.id).Returns (faultless (.sample .marked)) w₁ () := by
  have hne : ['a'] ≠ [] := List.cons_ne_nil _ _
  obtain ⟨e, w₁, h, hfrom, rfl⟩ := listAll_copied hne
  exact ⟨_, w₁, rfl, ((deleteById_listed h _ List.mem_cons_self).2 hfrom hne).1⟩

end VaultRepository

end CajaSegura
