import CajaSegura.Services.VaultRepository

/-!
# The entries of the vault

## Main definitions

* `vaultDir`, `dataKey`, `metaKey`: where the files of an entry are
* `Entry`: contents and metadata that belong together under a key
* `Holds`: the files of an entry are in the vault
* `metaOf`: what a reader makes of the contents of a metadata file
* `VaultFileMeta.Readable`: a record that is read back
* `Unreadable`: contents that no reader takes for metadata

## Main results

* `metaOf_metaBytes`: metadata are read back as they were written
* `VaultRepository.entry_of_bundle`: what an import makes belongs together
* `Unreadable.of_cut`: metadata that are cut are unreadable
-/

namespace CajaSegura

open Codec Async

/-! ## Names -/

def vaultDir (P : Platform) : Path := P.supportDir ++ ["vault".toList]

def dataKey (P : Platform) (id : Text) : Key := ⟨vaultDir P, id ++ ".enc".toList⟩

def metaKey (P : Platform) (id : Text) : Key := ⟨vaultDir P, id ++ ".json".toList⟩

theorem not_noName_append {id ext : Text} (h : 2 < ext.length) : ¬ NoName (id ++ ext) := by
  have hl : 2 < (id ++ ext).length := by
    rw [List.length_append]
    omega
  rintro (h | h | h) <;> simp [h] at hl

theorem resolve_append (fs : Fs) {dir : Path} {id ext : Text} (hid : '/' ∉ id) (he : '/' ∉ ext)
    (h : 2 < ext.length) : fs.resolve ⟨dir, id ++ ext⟩ = some ⟨dir, id ++ ext⟩ := by
  apply Fs.resolve_plain
  exact ⟨by simp [hid, he], not_noName_append h⟩

variable {P : Platform} {id : Text}

theorem resolve_data (fs : Fs) (hid : '/' ∉ id) :
    fs.resolve (dataFileOf (vaultDir P) id) = some (dataKey P id) :=
  resolve_append fs hid (by decide) (by decide)

theorem resolve_meta (fs : Fs) (hid : '/' ∉ id) :
    fs.resolve (metaFileOf (vaultDir P) id) = some (metaKey P id) :=
  resolve_append fs hid (by decide) (by decide)

theorem dataKey_ne_metaKey (id id' : Text) : dataKey P id ≠ metaKey P id' := by
  intro h
  have hn : id ++ ".enc".toList = id' ++ ".json".toList := congrArg Key.name h
  have hr := congrArg List.reverse hn
  simp at hr

theorem dataKey_injective : Function.Injective (dataKey P) := fun _ _ h =>
  List.append_cancel_right (congrArg Key.name h)

theorem metaKey_injective : Function.Injective (metaKey P) := fun _ _ h =>
  List.append_cancel_right (congrArg Key.name h)

/-! ## Entries -/

/-- The text of the metadata as it is stored. -/
def metaBytes (z : Zone) (m : VaultFileMeta) : Bytes := Utf8.encode (Json.encodeObject (m.toJson z))

/-- Contents and metadata that belong together: under the key the contents decrypt to the data. -/
structure Entry (P : Platform) (kek : Bytes) (id : Text) (data : Bytes) (m : VaultFileMeta)
    (cipher : Bytes) : Prop where
  id : m.id = id
  make : VaultFileMeta.make P.asserts m = .ok m
  isUtc : m.createdAt.isUtc = false
  size : m.originalSize = VaultRepository.dartLength data
  opens : ∃ fileIv dekWrapped dekWrapIv, m.fileIvB64 = Base64.encode fileIv ∧
    m.dekWrappedB64 = Base64.encode dekWrapped ∧ m.dekWrapIvB64 = Base64.encode dekWrapIv ∧
    CryptoService.openEnvelope P cipher fileIv dekWrapped dekWrapIv kek = .ok data
  cipher_ne_nil : cipher ≠ []

/-- The key of an entry has 32 bytes. -/
theorem Entry.length_key {kek data cipher : Bytes} {id : Text} {m : VaultFileMeta}
    (h : Entry P kek id data m cipher) : kek.length = 32 := by
  obtain ⟨fileIv, dekWrapped, dekWrapIv, -, -, -, hopen⟩ := h.opens
  obtain ⟨wrapped, dek, box, -, hd, -⟩ := CryptoService.openEnvelope_iff.mp hopen
  exact (CryptoService.open_eq_ok.mp hd).1

/-- The files of an entry are in the vault. -/
def Holds (P : Platform) (kek : Bytes) (z : Zone) (files : Key → Option Bytes) (id : Text)
    (data : Bytes) : Prop :=
  ∃ m cipher, Entry P kek id data m cipher ∧ files (metaKey P id) = some (metaBytes z m) ∧
    files (dataKey P id) = some cipher

theorem Holds.length_key {kek data : Bytes} {z : Zone} {files : Key → Option Bytes} {id : Text}
    (h : Holds P kek z files id data) : kek.length = 32 := by
  obtain ⟨m, cipher, hE, -⟩ := h
  exact hE.length_key

/-- The text of an object starts with no byte order mark. -/
theorem head_encodeObject (ms : List (Text × Json.Plain)) :
    (Json.encodeObject ms).head? ≠ some Utf8.mark := fun h =>
  absurd (Option.some.inj h) (by decide)

/-- What a reader makes of the contents of a metadata file. -/
def metaOf (P : Platform) (z : Zone) (now : DateTime) (b : Bytes) : Option VaultFileMeta :=
  (Utf8.decode b).bind fun t => (jsonMap t).toOption.bind fun j =>
    (VaultFileMeta.fromJson P.asserts z now j).toOption

/-- Metadata read in a zone that may be another than that in which they were written. -/
theorem metaOf_metaBytes {z z' : Zone} (now : DateTime) {m : VaultFileMeta}
    (hm : VaultFileMeta.make P.asserts m = .ok m) (hutc : m.createdAt.isUtc = false)
    (hsize : -2 ^ 63 ≤ m.originalSize ∧ m.originalSize < 2 ^ 63) :
    metaOf P z' now (metaBytes z m) =
      (DateTime.ofWall z' (m.createdAt.wall z)).map m.withCreatedAt := by
  have hj : jsonMap (Json.encodeObject (m.toJson z)) = .ok (Json.readBack (m.toJson z)) := by
    rw [jsonMap, Json.decode_encodeObject (by simp [VaultFileMeta.toJson])]
    rfl
  rw [metaOf, metaBytes, Utf8.decode_encode (head_encodeObject _), Option.bind_some, hj]
  cases hd : DateTime.ofWall z' (m.createdAt.wall z) with
  | some d =>
    have hf := VaultFileMeta.fromJson_toJson now hm hutc hsize hd
    simp [Except.toOption, hf]
  | none =>
    obtain ⟨e, he⟩ : ∃ e, VaultFileMeta.fromJson P.asserts z' now _ = .error e :=
      VaultFileMeta.fromJson_toJson_none now hutc hsize hd
    simp [Except.toOption, he]

namespace VaultRepository

/-- The name of a file that is there. -/
theorem originalName_of_resolve {fs : Fs} {source : File} {k : Key}
    (h : fs.resolve source = some k) : originalName source = k.name ∧ k.name ≠ [] := by
  unfold Fs.resolve at h
  split at h
  · cases h
  · rename_i hn
    obtain ⟨dir, -, rfl⟩ := Option.map_eq_some_iff.mp h
    refine ⟨?_, fun he => hn (.inl he)⟩
    unfold originalName File.pathSegments
    have hne : source.rel.splitOn '/' ≠ [] := List.splitOn_ne_nil _ _
    rw [List.getLast?_append, List.getLastD_eq_getLast?, List.getLast?_eq_some_getLast hne]
    rfl

/-- The bundle of an encryption and the metadata made of it belong together. -/
theorem entry_of_bundle (haes : P.aes.Correct) {kek dek fileIv dekWrapIv : Bytes}
    (hk : kek.length = 32) (hd : dek.length = 32) {data : Bytes} {m : VaultFileMeta} {id : Text}
    (hm : VaultFileMeta.make P.asserts m = .ok m) (hid : m.id = id)
    (hutc : m.createdAt.isUtc = false) (hsize : m.originalSize = dartLength data)
    (hiv : m.fileIvB64 = Base64.encode fileIv) (hwiv : m.dekWrapIvB64 = Base64.encode dekWrapIv)
    (hw : m.dekWrappedB64 =
      Base64.encode (CryptoService.bundleOf P dek fileIv dekWrapIv kek data).dekWrapped) :
    Entry P kek id data m (CryptoService.bundleOf P dek fileIv dekWrapIv kek data).cipher where
  id := hid
  make := hm
  isUtc := hutc
  size := hsize
  opens := ⟨fileIv, _, dekWrapIv, hiv, hw, hwiv, CryptoService.openEnvelope_bundleOf
    (CryptoService.open_encrypt haes hk _ _) (CryptoService.open_encrypt haes hd _ _)⟩
  cipher_ne_nil := CryptoService.concat_ne_nil dek fileIv data

theorem dartLength_of_lt {bytes : Bytes} (h : bytes.length < 2 ^ 63) :
    dartLength bytes = bytes.length := by
  unfold dartLength
  omega

theorem dartLength_bounds (bytes : Bytes) :
    -2 ^ 63 ≤ dartLength bytes ∧ dartLength bytes < 2 ^ 63 := by
  unfold dartLength
  omega

/-- The record of an import of `source`, made at a moment at which `J` held. -/
structure Describes (J : World → Prop) (source : File) (mimeType : Text) (m : VaultFileMeta) :
    Prop where
  originalName : m.originalName = originalName source
  mimeType : m.mimeType = mimeType
  createdAt : ∃ w, J w ∧ m.createdAt = w.now.local

theorem Describes.isUtc {source : File} {mimeType : Text} {m : VaultFileMeta}
    (h : Describes J source mimeType m) : m.createdAt.isUtc = false := by
  obtain ⟨w, -, hm⟩ := h.createdAt
  rw [hm]
  rfl

end VaultRepository

/-! ## Contents of metadata files -/

/-- A record that is read back, with the time that its text shows. -/
structure VaultFileMeta.Readable (P : Platform) (m : VaultFileMeta) : Prop where
  make : VaultFileMeta.make P.asserts m = .ok m
  isUtc : m.createdAt.isUtc = false
  size : -2 ^ 63 ≤ m.originalSize ∧ m.originalSize < 2 ^ 63

theorem Entry.readable {kek : Bytes} {id : Text} {data : Bytes} {m : VaultFileMeta}
    {cipher : Bytes} (h : Entry P kek id data m cipher) : m.Readable P :=
  ⟨h.make, h.isUtc, h.size ▸ VaultRepository.dartLength_bounds data⟩

/-- Contents that no reader takes for metadata. -/
def Unreadable (b : Bytes) : Prop := ∀ t, Utf8.decode b = some t → Json.decode t = none

/-- A strict initial part of metadata is unreadable. -/
theorem Unreadable.of_cut {z : Zone} {m : VaultFileMeta} {s : Bytes} (hs : s <+: metaBytes z m)
    (hne : s ≠ metaBytes z m) : Unreadable s := by
  intro t ht
  obtain ⟨hp, hne⟩ := Utf8.decode_cut (head_encodeObject _) hs hne ht
  exact Json.decode_encodeObject_cut (by simp [VaultFileMeta.toJson]) hp hne

theorem Unreadable.nil : Unreadable [] := by
  intro t ht
  obtain rfl : [] = t := Option.some.inj ((Utf8.decode_encode (t := []) nofun).symm.trans ht)
  rfl

theorem metaOf_unreadable {z : Zone} (now : DateTime) {b : Bytes} (h : Unreadable b) :
    metaOf P z now b = none := by
  unfold metaOf
  cases ht : Utf8.decode b with
  | none => rfl
  | some t =>
    rw [Option.bind_some, jsonMap, h t ht]
    rfl

theorem VaultFileMeta.Readable.metaOf {z : Zone} (now : DateTime) {m : VaultFileMeta}
    (hm : m.Readable P) : metaOf P z now (metaBytes z m) = some (m.reread z) := by
  rw [metaOf_metaBytes now hm.make hm.isUtc hm.size, DateTime.ofWall_wall z hm.isUtc]
  rfl

end CajaSegura
