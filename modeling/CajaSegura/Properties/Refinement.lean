import CajaSegura.Platform.Sample
import CajaSegura.Services.SoleRules
import CajaSegura.Services.VaultCalls
import Mathlib.Data.Int.Order.Basic

/-!
# The vault as a finite map

What the vault is for: it keeps items by their identifiers. The directory with two files for every
entry does what a map does, for calls one after another that all work.

## Main definitions

* `Item`, `Items`: what is kept, and the map
* `Event`: a call, with what its caller sees of it
* `Items.Step`, `Items.Run`: what a map does on an event, and on events one after another
* `VaultRun`: calls of the vault one after another
* `Represents`: the files of the vault are those of a map

## Main results

* `VaultRun.refines`: what the vault does a map does
-/

namespace CajaSegura

open Codec Async
open Program hiding bind

/-! ## The map -/

/-- What is kept of a file; the time is that which its local time stamp denotes. -/
structure Item where
  data : Bytes
  originalName : Text
  mimeType : Text
  size : ℤ
  createdAt : DateTime

/-- The items by their identifiers. -/
abbrev Items := Text → Option Item

/-- The record shows the item. -/
structure Item.ShownBy (x : Item) (m : VaultFileMeta) : Prop where
  originalName : m.originalName = x.originalName
  mimeType : m.mimeType = x.mimeType
  size : m.originalSize = x.size
  createdAt : m.createdAt = x.createdAt

/-- A call with its result. Of an import it is seen what the source holds before and after it. -/
inductive Event
  | importFile (contents : Option Bytes) (originalName mimeType : Text) (keyLength : ℕ)
      (moveFile : Bool) (left : Option Bytes) (r : Except DartError VaultFileMeta)
  | exportClear (id : Text) (keyLength : ℕ) (r : Except DartError Bytes)
  | deleteById (id : Text) (r : Except DartError Unit)
  | wipeAll (r : Except DartError Unit)
  | listAll (r : Except DartError (List VaultFileMeta))

/-- What is not imported: a file that is not there or empty, under a key of another length, and with
assertions what these reject. -/
def Rejects (asserts : Bool) (contents : Option Bytes) (mimeType : Text) (keyLength : ℕ) : Prop :=
  contents = none ∨ contents = some [] ∨ keyLength ≠ 32 ∨
    asserts = true ∧ (mimeType = [] ∨ ∃ b, contents = some b ∧ 2 ^ 63 ≤ b.length)

namespace Items

/-- What a map does on an event, in a time zone and with assertions on or off. -/
inductive Step (asserts : Bool) (z : Zone) (M : Items) : Event → Items → Prop
  | imported {m : VaultFileMeta} {x : Item} (moveFile : Bool) (hne : x.data ≠ [])
      (hfresh : M m.id = none) (hsize : x.size = VaultRepository.dartLength x.data)
      (hshown : x.ShownBy (m.reread z)) : Step asserts z M
        (.importFile (some x.data) x.originalName x.mimeType 32 moveFile
          (if moveFile then none else some x.data) (.ok m)) (Function.update M m.id (some x))
  | rejected {contents : Option Bytes} {originalName mimeType : Text} {keyLength : ℕ}
      {moveFile : Bool} {e : DartError} (h : Rejects asserts contents mimeType keyLength) :
      Step asserts z M
        (.importFile contents originalName mimeType keyLength moveFile contents (.error e)) M
  | exported {id : Text} {x : Item} (h : M id = some x) :
      Step asserts z M (.exportClear id 32 (.ok x.data)) M
  | notExported {id : Text} {keyLength : ℕ} {e : DartError}
      (h : M id = none ∨ id = [] ∨ keyLength ≠ 32) :
      Step asserts z M (.exportClear id keyLength (.error e)) M
  | deleted {id : Text} (hid : id ≠ []) :
      Step asserts z M (.deleteById id (.ok ())) (Function.update M id none)
  | notDeleted {e : DartError} : Step asserts z M (.deleteById [] (.error e)) M
  | wiped : Step asserts z M (.wipeAll (.ok ())) fun _ => none
  | listed {out : List VaultFileMeta} (hnodup : (out.map VaultFileMeta.id).Nodup)
      (hout : ∀ m ∈ out, ∃ x, M m.id = some x ∧ x.ShownBy m)
      (hall : ∀ id x, M id = some x → ∃ m ∈ out, m.id = id)
      (hsorted : out.Pairwise fun a b => b.createdAt.micros ≤ a.createdAt.micros) :
      Step asserts z M (.listAll (.ok out)) M

/-- What a map does that is empty at first, the latest event first. -/
inductive Run (asserts : Bool) (z : Zone) : List Event → Items → Prop
  | nil : Run asserts z [] fun _ => none
  | cons {l : List Event} {e : Event} {M M' : Items} (h : Run asserts z l M)
      (he : Step asserts z M e M') : Run asserts z (e :: l) M'

end Items

/-! ## The vault -/

/-- The calls of a vault that was empty in `w₀`, one after another, each without failures, under the
key `kek` or with keys of another length; the latest first. Between them anything may happen outside
the vault, but that the device travels. -/
inductive VaultRun (P : Platform) (kek : Bytes) (w₀ : World) : List Event → World → Prop
  | start (h₀ : ∀ n, w₀.fs.files ⟨vaultDir P, n⟩ = none) : VaultRun P kek w₀ [] w₀
  | importFile {l : List Event} {w w' : World} {source : File} {mimeType : Text} {r : Ref}
      {moveFile : Bool} {x : Except DartError VaultFileMeta} (h : VaultRun P kek w₀ l w)
      (hr : w.heap r = kek ∨ (w.heap r).length ≠ 32)
      (hs : moveFile = true → ∀ k, w.fs.resolve source = some k → k.dir ≠ vaultDir P)
      (hc : (VaultRepository.importFile P source mimeType r moveFile).Completes (faultless P) w x w') :
      VaultRun P kek w₀ (.importFile (w.fs.read source) (VaultRepository.originalName source) mimeType
        (w.heap r).length moveFile (w'.fs.read source) x :: l) w'
  | exportClear {l : List Event} {w w' : World} {id : Text} {r : Ref} {x : Except DartError Bytes}
      (h : VaultRun P kek w₀ l w) (hr : w.heap r = kek ∨ (w.heap r).length ≠ 32) (hid : '/' ∉ id)
      (hc : (VaultRepository.exportClear P id r).Completes (faultless P) w x w') :
      VaultRun P kek w₀ (.exportClear id (w.heap r).length x :: l) w'
  | deleteById {l : List Event} {w w' : World} {id : Text} {x : Except DartError Unit}
      (h : VaultRun P kek w₀ l w) (hid : '/' ∉ id)
      (hc : (VaultRepository.deleteById id).Completes (faultless P) w x w') :
      VaultRun P kek w₀ (.deleteById id x :: l) w'
  | wipeAll {l : List Event} {w w' : World} {x : Except DartError Unit} (h : VaultRun P kek w₀ l w)
      (hc : VaultRepository.wipeAll.Completes (faultless P) w x w') :
      VaultRun P kek w₀ (.wipeAll x :: l) w'
  | listAll {l : List Event} {w w' : World} {x : Except DartError (List VaultFileMeta)}
      (h : VaultRun P kek w₀ l w)
      (hc : (VaultRepository.listAll P).Completes (faultless P) w x w') :
      VaultRun P kek w₀ (.listAll x :: l) w'
  | other {l : List Event} {w w' : World} (h : VaultRun P kek w₀ l w)
      (hv : ∀ n, w'.fs.files ⟨vaultDir P, n⟩ = w.fs.files ⟨vaultDir P, n⟩)
      (hz : w'.zone = w.zone) (hu : w.uuids ≤ w'.uuids) : VaultRun P kek w₀ l w'

variable {P : Platform} {kek : Bytes} {z : Zone} {M : Items} {w w' : World} {id : Text}

/-- The files of an item are in the vault. -/
def Keeps (P : Platform) (kek : Bytes) (z : Zone) (files : Key → Option Bytes) (id : Text)
    (x : Item) : Prop :=
  ∃ m cipher, Entry P kek id x.data m cipher ∧ x.ShownBy (m.reread z) ∧
    files (metaKey P id) = some (metaBytes z m) ∧ files (dataKey P id) = some cipher

/-- The files of the vault are those of the items. -/
structure Represents (P : Platform) (kek : Bytes) (z : Zone) (M : Items) (w : World) : Prop where
  zone : w.zone = z
  drawn : Drawn P w
  live : ∀ id x, M id = some x → Keeps P kek z w.fs.files id x
  dead : ∀ id, M id = none →
    w.fs.files (metaKey P id) = none ∧ w.fs.files (dataKey P id) = none

namespace Represents

/-- Nothing happens in the vault. -/
theorem other (h : Represents P kek z M w)
    (hv : ∀ n, w'.fs.files ⟨vaultDir P, n⟩ = w.fs.files ⟨vaultDir P, n⟩) (hz : w'.zone = w.zone)
    (hu : w.uuids ≤ w'.uuids) : Represents P kek z M w' where
  zone := hz.trans h.zone
  drawn := h.drawn.of_files (fun n => .inl (hv n)) hu
  live id x hx := by
    obtain ⟨m, cipher, hE, hshown, hm, hd⟩ := h.live id x hx
    exact ⟨m, cipher, hE, hshown, (hv _).trans hm, (hv _).trans hd⟩
  dead id hid := ⟨(hv _).trans (h.dead id hid).1, (hv _).trans (h.dead id hid).2⟩

theorem calm (h : Represents P kek z M w) (hs : Since w w') (hf : w'.fs.files = w.fs.files) :
    Represents P kek z M w' :=
  h.other (fun n => by rw [hf]) hs.zone hs.uuids

theorem holds (h : Represents P kek z M w) {x : Item} (hx : M id = some x) :
    Holds P kek z w.fs.files id x.data := by
  obtain ⟨m, cipher, hE, -, hm, hd⟩ := h.live id x hx
  exact ⟨m, cipher, hE, hm, hd⟩

theorem importFile (h : Represents P kek z M w) (haes : P.aes.Correct) {source : File}
    {mimeType : Text} {r : Ref} {moveFile : Bool} {x : Except DartError VaultFileMeta}
    (hr : w.heap r = kek ∨ (w.heap r).length ≠ 32)
    (hs : moveFile = true → ∀ k, w.fs.resolve source = some k → k.dir ≠ vaultDir P)
    (hc : (VaultRepository.importFile P source mimeType r moveFile).Completes (faultless P) w x w') :
    ∃ M', Items.Step P.asserts z M (.importFile (w.fs.read source)
      (VaultRepository.originalName source) mimeType (w.heap r).length moveFile (w'.fs.read source) x)
        M' ∧ Represents P kek z M' w' := by
  cases x with
  -- a rejected import changes nothing
  | error e =>
    obtain ⟨hw', hf, hread, hreject⟩ := VaultRepository.importFile_rejected (moves_faultless w)
      (fun _ _ h => h) (fun _ h => h.toStays) haes h.drawn.fresh (.refl w) hc
    rw [hread]
    exact ⟨M, .rejected hreject, h.calm hw' hf⟩
  | ok m =>
    obtain ⟨sk, data, hS, hM, hw', hstored⟩ := VaultRepository.importFile_stored (moves_faultless w)
      (fun _ _ h => h) (fun _ h => h.toStays) haes h.drawn.fresh (.refl w) hc
    obtain ⟨cipher, hE, hmeta, hdata⟩ := hstored.holds hS
    obtain hr := hr.resolve_right (not_not.mpr hS.key)
    have hfresh : M m.id = none := by
      rw [hE.id]
      by_contra hne
      obtain ⟨x, hx⟩ := Option.ne_none_iff_exists'.mp hne
      obtain ⟨_, _, -, -, hm, -⟩ := h.live _ x hx
      exact absurd (h.drawn.fresh.2.symm.trans hm) nofun
    -- a source that is moved is not in the vault
    have hothers {k : Key} (hdir : k.dir = vaultDir P) (hd : k ≠ dataKey P (P.uuid w.uuids))
        (hm : k ≠ metaKey P (P.uuid w.uuids)) : w'.fs.files k = w.fs.files k := by
      rw [hstored.others hd hm, if_neg]
      rintro ⟨rfl, hmove⟩
      exact hs hmove _ hS.resolve hdir
    have hleft : w'.fs.read source = if moveFile then none else some data := by
      rw [Fs.read_of_resolve (Fs.resolve_mono hstored.dirs hS.resolve),
        hstored.others hS.ne_data hS.ne_meta, hS.files]
      cases moveFile <;> simp
    -- a new item comes to the others
    refine ⟨Function.update M m.id (some ⟨data, VaultRepository.originalName source, mimeType,
      VaultRepository.dartLength data, (m.reread z).createdAt⟩), ?_, ?_⟩
    · rw [hS.resolves, hS.key, hleft]
      exact .imported (x := ⟨data, VaultRepository.originalName source, mimeType,
        VaultRepository.dartLength data, (m.reread z).createdAt⟩) moveFile hS.nonempty hfresh rfl
        ⟨hM.originalName, hM.mimeType, hE.size, rfl⟩
    have hid := hE.id
    refine ⟨hw'.zone.trans h.zone, h.drawn.stored hstored, fun id x hx => ?_, fun id hnone => ?_⟩
    -- the new item, or one that was there before
    · by_cases hnew : id = m.id
      · subst hnew
        rw [Function.update_self] at hx
        cases hx
        rw [hr, ← hid] at hE
        rw [← hid] at hmeta hdata
        rw [h.zone] at hmeta
        exact ⟨m, cipher, hE, ⟨hM.originalName, hM.mimeType, hE.size, rfl⟩, hmeta, hdata⟩
      · rw [Function.update_of_ne hnew] at hx
        rw [hid] at hnew
        obtain ⟨m', cipher', hE', hshown, hm, hd⟩ := h.live id x hx
        refine ⟨m', cipher', hE', hshown, ?_, ?_⟩
        · rw [hothers rfl (dataKey_ne_metaKey _ _).symm (metaKey_injective.ne hnew), hm]
        · rw [hothers rfl (dataKey_injective.ne hnew) (dataKey_ne_metaKey _ _), hd]
    · have hnew : id ≠ m.id := by
        rintro rfl
        rw [Function.update_self] at hnone
        cases hnone
      rw [Function.update_of_ne hnew] at hnone
      rw [hid] at hnew
      obtain ⟨hm, hd⟩ := h.dead id hnone
      constructor
      · rw [hothers rfl (dataKey_ne_metaKey _ _).symm (metaKey_injective.ne hnew), hm]
      · rw [hothers rfl (dataKey_injective.ne hnew) (dataKey_ne_metaKey _ _), hd]

theorem exportClear (h : Represents P kek z M w) (hk : kek.length = 32) {r : Ref}
    {x : Except DartError Bytes} (hr : w.heap r = kek ∨ (w.heap r).length ≠ 32) (hid : '/' ∉ id)
    (hc : (VaultRepository.exportClear P id r).Completes (faultless P) w x w') :
    Items.Step P.asserts z M (.exportClear id (w.heap r).length x) M ∧ Represents P kek z M w' := by
  have hJ := alone_since (P := P) w False
  by_cases hlen : (w.heap r).length = 32
  case neg =>
    obtain ⟨⟨e, rfl⟩, rfl⟩ := wp_completes (VaultRepository.exportClear_rejects_wp hlen id) hc
    exact ⟨.notExported (.inr (.inr hlen)), h⟩
  have hr : ∀ w', Since w w' → w'.heap r = kek := fun w' h =>
    (congrFun h.heap r).trans (hr.resolve_right (not_not.mpr hlen))
  rw [hlen]
  cases hx : M id with
  -- without an item there is no metadata file
  | none =>
    obtain ⟨⟨e, rfl⟩, hw', hc'⟩ := wp_completes (VaultRepository.exportClear_throws_wp hJ hk hr
      (.refl w) hid (.inl (h.dead id hx).1)) hc
    exact ⟨.notExported (.inl hx), h.calm hw' hc'.files⟩
  | some y =>
    have hne : id ≠ [] := by
      rintro rfl
      obtain ⟨m, _, -, -, hm, -⟩ := h.live [] y hx
      exact h.drawn.ne_nil (by rw [hm]; nofun) rfl
    have hL := wp_completes (VaultRepository.exportClear_wp hJ hk hr (fun w' h => h.zone) (.refl w)
      hid hne (h.zone ▸ h.holds hx)) hc
    cases x with
    | error e => exact (hL.error e rfl).elim
    | ok a =>
      obtain rfl := hL.ok a rfl
      exact ⟨.exported hx, h.calm hL.keeps hL.calm.files⟩

theorem deleteById (h : Represents P kek z M w) {x : Except DartError Unit} (hid : '/' ∉ id)
    (hc : (VaultRepository.deleteById id).Completes (faultless P) w x w') :
    ∃ M', Items.Step P.asserts z M (.deleteById id x) M' ∧ Represents P kek z M' w' := by
  by_cases hne : id = []
  · subst hne
    obtain ⟨rfl, rfl⟩ := hc
    exact ⟨M, .notDeleted, h⟩
  obtain ⟨rfl, hw', hf⟩ := wp_completes (VaultRepository.deleteById_sole hid hne) hc
  -- the halves of any other entry stay
  have hothers {id' : Text} (hother : id' ≠ id) :
      w'.fs.files (metaKey P id') = w.fs.files (metaKey P id') ∧
        w'.fs.files (dataKey P id') = w.fs.files (dataKey P id') := by
    constructor
    · rw [hf, Function.update_of_ne (dataKey_ne_metaKey _ _).symm,
        Function.update_of_ne (metaKey_injective.ne hother)]
    · rw [hf, Function.update_of_ne (dataKey_injective.ne hother),
        Function.update_of_ne (dataKey_ne_metaKey _ _)]
  refine ⟨_, .deleted hne, hw'.zone.trans h.zone, ?_, fun id' y hy => ?_, fun id' hnone => ?_⟩
  · refine h.drawn.of_files (fun n => ?_) hw'.uuids
    rw [hf]
    by_cases hd : (⟨vaultDir P, n⟩ : Key) = dataKey P id
    · exact .inr (by rw [hd, Function.update_self])
    by_cases hm : (⟨vaultDir P, n⟩ : Key) = metaKey P id
    · exact .inr (by rw [Function.update_of_ne hd, hm, Function.update_self])
    · exact .inl (by rw [Function.update_of_ne hd, Function.update_of_ne hm])
  · have hother : id' ≠ id := by
      rintro rfl
      rw [Function.update_self] at hy
      cases hy
    rw [Function.update_of_ne hother] at hy
    obtain ⟨m, cipher, hE, hshown, hm, hd⟩ := h.live id' y hy
    exact ⟨m, cipher, hE, hshown, (hothers hother).1.trans hm, (hothers hother).2.trans hd⟩
  · by_cases hother : id' = id
    · subst hother
      refine ⟨?_, by rw [hf, Function.update_self]⟩
      rw [hf, Function.update_of_ne (dataKey_ne_metaKey _ _).symm, Function.update_self]
    · rw [Function.update_of_ne hother] at hnone
      obtain ⟨hm, hd⟩ := h.dead id' hnone
      exact ⟨(hothers hother).1.trans hm, (hothers hother).2.trans hd⟩

theorem wipeAll (h : Represents P kek z M w) {x : Except DartError Unit}
    (hc : VaultRepository.wipeAll.Completes (faultless P) w x w') :
    ∃ M', Items.Step P.asserts z M (.wipeAll x) M' ∧ Represents P kek z M' w' := by
  obtain ⟨rfl, hw', hf⟩ := wp_completes VaultRepository.wipeAll_sole hc
  have hgone (n : Text) : w'.fs.files ⟨vaultDir P, n⟩ = none := (hf _).trans (if_pos rfl)
  refine ⟨_, .wiped, hw'.zone.trans h.zone, fun n hn => absurd (hgone n) hn,
    fun _ _ hx => absurd hx (by simp), ?_⟩
  exact fun id _ => ⟨hgone _, hgone _⟩

theorem listAll (h : Represents P kek z M w) {x : Except DartError (List VaultFileMeta)}
    (hc : (VaultRepository.listAll P).Completes (faultless P) w x w') :
    Items.Step P.asserts z M (.listAll x) M ∧ Represents P kek z M w' := by
  obtain ⟨hw', hcalm, names, ms, hn, rfl, hms⟩ := wp_completes VaultRepository.listAll_sole hc
  refine ⟨?_, h.calm hw' hcalm.files⟩
  -- a metadata file is that of an item, whose record is read from it at any time
  have hread (n : Text) (hmem : n ∈ names.filter VaultRepository.isMeta) : ∃ b m x,
      w.fs.files ⟨vaultDir P, n⟩ = some b ∧ (∀ now, metaOf P w.zone now b = some m) ∧
        m.id ++ ".json".toList = n ∧ M m.id = some x ∧ x.ShownBy m := by
    obtain ⟨hmem, hmeta⟩ := List.mem_filter.mp hmem
    obtain ⟨id, rfl⟩ := List.isSuffixOf_iff_suffix.mp hmeta
    have hfile : w.fs.files (metaKey P id) ≠ none := (hn.2 _).mp hmem
    obtain ⟨x, hx⟩ : ∃ x, M id = some x :=
      Option.ne_none_iff_exists'.mp fun hnone => hfile (h.dead id hnone).1
    obtain ⟨m, cipher, hE, hshown, hm, -⟩ := h.live id x hx
    obtain rfl : m.id = id := hE.id
    refine ⟨_, m.reread z, x, hm, fun now => ?_, rfl, hx, hshown⟩
    rw [h.zone]
    exact hE.readable.metaOf now
  -- so the listing is what each name is read as, whatever the time
  let g (n : Text) : Option VaultFileMeta :=
    (w.fs.files ⟨vaultDir P, n⟩).bind (metaOf P w.zone w.now.local)
  have hg {n : Text} {b : Bytes} {m : VaultFileMeta} (hb : w.fs.files ⟨vaultDir P, n⟩ = some b)
      (hm : ∀ now, metaOf P w.zone now b = some m) : g n = some m := by
    simp only [g, hb, Option.bind_some]
    exact hm _
  have hmap : ms = (names.filter VaultRepository.isMeta).filterMap g := by
    refine hms.eq_filterMap fun n hmem => ?_
    obtain ⟨b, m, -, hb, hm, -⟩ := hread n hmem
    exact ⟨b, hb, fun now => by rw [hm, hg hb hm]⟩
  have hnames : ms.map (fun m => m.id ++ ".json".toList) = names.filter VaultRepository.isMeta := by
    rw [hmap, List.map_filterMap]
    refine (List.filterMap_congr fun n hmem => ?_).trans List.filterMap_some
    obtain ⟨b, m, -, hb, hm, hid, -⟩ := hread n hmem
    rw [hg hb hm, Option.map_some, hid]
  have hperm : (VaultRepository.sortMetas ms).Perm ms := List.mergeSort_perm ms _
  refine .listed ?_ (fun m hm => ?_) (fun id x hx => ?_) (VaultRepository.pairwise_sortMetas ms)
  · refine (hperm.map _).nodup_iff.mpr ?_
    have hnodup := hn.1.filter VaultRepository.isMeta
    rw [← hnames] at hnodup
    exact List.pairwise_map.mpr ((List.pairwise_map.mp hnodup).imp fun hne hid => hne (by rw [hid]))
  · have hmem := hperm.mem_iff.mp hm
    rw [hmap] at hmem
    obtain ⟨n, hn', hgn⟩ := List.mem_filterMap.mp hmem
    obtain ⟨b, m', x, hb, hm', -, hx, hshown⟩ := hread n hn'
    rw [hg hb hm'] at hgn
    cases hgn
    exact ⟨x, hx, hshown⟩
  · obtain ⟨m, cipher, -, -, hfile, -⟩ := h.live id x hx
    have hmem : id ++ ".json".toList ∈ names.filter VaultRepository.isMeta :=
      List.mem_filter.mpr ⟨(hn.2 _).mpr fun hnone => absurd (hfile.symm.trans hnone) nofun,
        VaultRepository.isMeta_append id⟩
    rw [← hnames] at hmem
    obtain ⟨m', hm', hid⟩ := List.mem_map.mp hmem
    exact ⟨m', hperm.mem_iff.mpr hm', List.append_cancel_right hid⟩

end Represents

/-- **The vault refines a map.** Calls one after another, each without failures, on a vault that was
empty, do what a map does, of which the files are those of the items. -/
theorem VaultRun.refines (haes : P.aes.Correct) (hk : kek.length = 32) {w₀ : World} {l : List Event}
    (h : VaultRun P kek w₀ l w) :
    ∃ M, Items.Run P.asserts w₀.zone l M ∧ Represents P kek w₀.zone M w := by
  -- the run of the items is built along with the run of the code
  induction h with
  | start h₀ =>
    refine ⟨_, .nil, rfl, fun n hn => absurd (h₀ n) hn, fun _ _ hx => absurd hx (by simp), ?_⟩
    exact fun id _ => ⟨h₀ _, h₀ _⟩
  | importFile h hr hs hc ih =>
    obtain ⟨M, hM, hrep⟩ := ih
    obtain ⟨M', hstep, hrep'⟩ := hrep.importFile haes hr hs hc
    exact ⟨M', hM.cons hstep, hrep'⟩
  | exportClear h hr hid hc ih =>
    obtain ⟨M, hM, hrep⟩ := ih
    obtain ⟨hstep, hrep'⟩ := hrep.exportClear hk hr hid hc
    exact ⟨M, hM.cons hstep, hrep'⟩
  | deleteById h hid hc ih =>
    obtain ⟨M, hM, hrep⟩ := ih
    obtain ⟨M', hstep, hrep'⟩ := hrep.deleteById hid hc
    exact ⟨M', hM.cons hstep, hrep'⟩
  | wipeAll h hc ih =>
    obtain ⟨M, hM, hrep⟩ := ih
    obtain ⟨M', hstep, hrep'⟩ := hrep.wipeAll hc
    exact ⟨M', hM.cons hstep, hrep'⟩
  | listAll h hc ih =>
    obtain ⟨M, hM, hrep⟩ := ih
    obtain ⟨hstep, hrep'⟩ := hrep.listAll hc
    exact ⟨M, hM.cons hstep, hrep'⟩
  | other h hv hz hu ih =>
    obtain ⟨M, hM, hrep⟩ := ih
    exact ⟨M, hM, hrep.other hv hz hu⟩

/-! ## Identifiers with separators -/

/-- The vault after an import. -/
def filled : Except DartError VaultFileMeta × World :=
  (VaultRepository.importFile (.sample .marked) .sample ['t'] 0 false).run
    (device (.sample .marked)) (fun _ => usual) 0 (.sample (List.replicate 32 2) [1])

def filledMeta : VaultFileMeta := filled.1.toOption.get (by decide +kernel)

theorem importFile_usual (w : World) :
    (VaultRepository.importFile (.sample .marked) .sample ['t'] 0 false).Completes
      (faultless (.sample .marked)) w
      ((VaultRepository.importFile (.sample .marked) .sample ['t'] 0 false).run
        (device (.sample .marked)) (fun _ => usual) 0 w).1
      ((VaultRepository.importFile (.sample .marked) .sample ['t'] 0 false).run
        (device (.sample .marked)) (fun _ => usual) 0 w).2 :=
  completes_usual (VaultRepository.within_importFile removing_unlisted (fun _ _ => nofun)
    (fun _ _ h => h) .sample ['t'] 0 false) w

theorem filled_completes :
    (VaultRepository.importFile (.sample .marked) .sample ['t'] 0 false).Completes
      (faultless (.sample .marked)) (.sample (List.replicate 32 2) [1]) (.ok filledMeta)
      filled.2 := by
  have hfilled : filled.1 = .ok filledMeta := ok_of_toOption (Option.some_get _).symm
  rw [← hfilled]
  exact importFile_usual _

/-- The vault after a deletion by a path to the files of an entry. -/
def emptied : Except DartError Unit × World :=
  (VaultRepository.deleteById "./u".toList).run (device (.sample .marked)) (fun _ => usual) 0
    filled.2

/-- An entry is gone after a deletion by an identifier that is not its own. -/
theorem deleteById_other_path :
    (VaultRepository.importFile (.sample .marked) .sample ['t'] 0 false).Completes
        (faultless (.sample .marked)) (.sample (List.replicate 32 2) [1]) (.ok filledMeta) filled.2 ∧
      filledMeta.id ≠ "./u".toList ∧
      (VaultRepository.deleteById "./u".toList).Completes (faultless (.sample .marked)) filled.2
        (.ok ()) emptied.2 ∧
      (VaultRepository.exportClear (.sample .marked) filledMeta.id 0).Throws
        (faultless (.sample .marked)) emptied.2 := by
  have hid : filledMeta.id = ['u'] := by decide +kernel
  refine ⟨filled_completes, by rw [hid]; decide, ?_, ?_⟩
  · have hr : emptied.1 = .ok () := ok_of_toOption (by decide +kernel)
    rw [← hr]
    exact completes_usual
      (VaultRepository.within_deleteById (G := Eq) removing_unlisted "./u".toList) _
  · rw [hid]
    exact VaultRepository.exportClear_throws (by decide +kernel) (by decide)
      (.inl (by decide +kernel))

/-! ## A run with every call -/

/-- A wipe of a directory that has a listing ends. -/
theorem wipeAll_completes {names : List Text} (hn : w.fs.Lists (vaultDir P) names) :
    ∃ r w', VaultRepository.wipeAll.Completes (faultless P) w r w' := by
  obtain ⟨w₁, hdir, hc⟩ := VaultRepository.ensureVaultDir_completes (P := P) w
  have hthere : (call (.dirExists (vaultDir P))).Completes (faultless P) w₁
      (.ok (w₁.fs.dirs (vaultDir P))) (w₁.exec P (.dirExists (vaultDir P)) none).2 :=
    ⟨w₁, ⟨_, rfl⟩, none, rfl, _, ⟨_, rfl⟩, trivial, rfl, rfl⟩
  have hn₂ : (w₁.exec P (.dirExists (vaultDir P)) none).2.fs.Lists (vaultDir P) names :=
    hn.congr hc.files
  have heach (w' : World) : (VaultRepository.deleteEach (vaultDir P) names).Completes (faultless P)
      w' _ _ :=
    completes_usual (VaultRepository.within_deleteEach (G := Eq) removing_unlisted _ _) _
  refine hdir.bind (hthere.bind ?_)
  unfold when
  split
  · exact (VaultRepository.listSync_completes hn₂).bind ⟨_, _, heach _⟩
  · exact ⟨_, _, rfl, rfl⟩

/-- The file is imported once more. -/
def refilled : Except DartError VaultFileMeta × World :=
  (VaultRepository.importFile (.sample .marked) .sample ['t'] 0 false).run
    (device (.sample .marked)) (fun _ => usual) 0 filled.2

def refilledMeta : VaultFileMeta := refilled.1.toOption.get (by decide +kernel)

theorem refilled_completes :
    (VaultRepository.importFile (.sample .marked) .sample ['t'] 0 false).Completes
      (faultless (.sample .marked)) filled.2 (.ok refilledMeta) refilled.2 := by
  have hr : refilled.1 = .ok refilledMeta := ok_of_toOption (Option.some_get _).symm
  rw [← hr]
  exact importFile_usual filled.2

/-- The first entry is deleted. -/
def thinned : Except DartError Unit × World :=
  (VaultRepository.deleteById ['u']).run (device (.sample .marked)) (fun _ => usual) 0 refilled.2

theorem thinned_completes :
    (VaultRepository.deleteById ['u']).Completes (faultless (.sample .marked)) refilled.2 (.ok ())
      thinned.2 := by
  have hr : thinned.1 = .ok () := ok_of_toOption (by decide +kernel)
  rw [← hr]
  exact completes_usual (VaultRepository.within_deleteById (G := Eq) removing_unlisted _) _

/-- The file of the user is imported and kept. -/
def Event.imported (m : VaultFileMeta) : Event :=
  .importFile (some [1]) ['a'] ['t'] 32 false (some [1]) (.ok m)

theorem VaultRun.imported {w₀ : World} {l : List Event} {m : VaultFileMeta}
    (h : VaultRun (.sample .marked) kek w₀ l w) (hk : w.heap 0 = kek) (hlen : kek.length = 32)
    (hread : w.fs.read .sample = some [1]) (hread' : w'.fs.read .sample = some [1])
    (hc : (VaultRepository.importFile (.sample .marked) .sample ['t'] 0 false).Completes
      (faultless (.sample .marked)) w (.ok m) w') :
    VaultRun (.sample .marked) kek w₀ (.imported m :: l) w' := by
  have h := h.importFile (.inl hk) (fun h => absurd h Bool.false_ne_true) hc
  rwa [hread, hread', hk, hlen] at h

theorem thinned_vaultRun : VaultRun (.sample .marked) (List.replicate 32 2)
    (.sample (List.replicate 32 2) [1])
    [.deleteById ['u'] (.ok ()), .imported refilledMeta, .imported filledMeta] thinned.2 := by
  have h₁ := (VaultRun.start fun _ => rfl).imported rfl rfl rfl (by decide +kernel) filled_completes
  have h₂ := h₁.imported (by decide +kernel) rfl (by decide +kernel) (by decide +kernel)
    refilled_completes
  exact h₂.deleteById (by decide) thinned_completes

/-- Two imports, a deletion, an export, a listing and a wipe. -/
theorem VaultRun.refines_eventful : ∃ r out x M w,
    Items.Run false (World.sample (List.replicate 32 2) [1]).zone
      [.wipeAll x, .listAll out, .exportClear ['u', 'u'] 32 r, .deleteById ['u'] (.ok ()),
        .imported refilledMeta, .imported filledMeta] M ∧
    Represents (.sample .marked) (List.replicate 32 2)
      (World.sample (List.replicate 32 2) [1]).zone M w := by
  have hk : (List.replicate 32 (2 : UInt8)).length = 32 := List.length_replicate
  have hkey : thinned.2.heap 0 = List.replicate 32 2 := by decide +kernel
  obtain ⟨M, -, hrep⟩ := thinned_vaultRun.refines AesGcm.marked_correct hk
  obtain ⟨r, w₁, hexport⟩ := Within.completes live_faultless
    (VaultRepository.within_exportClear (P := .sample .marked) (G := Eq) ['u', 'u'] 0) thinned.2
  have hrep₁ := (hrep.exportClear hk (.inl hkey) (by decide) hexport).2
  obtain ⟨names, hnames⟩ := hrep₁.drawn.exists_lists
  obtain ⟨out, w₂, hlist⟩ := VaultRepository.listAll_completes hnames
  have hrep₂ := (hrep₁.listAll hlist).2
  obtain ⟨names', hnames'⟩ := hrep₂.drawn.exists_lists
  obtain ⟨x, w₃, hwipe⟩ := wipeAll_completes hnames'
  have hrun := thinned_vaultRun.exportClear (.inl hkey) (by decide) hexport
  rw [hkey, hk] at hrun
  obtain ⟨M', hM', hrep₃⟩ := ((hrun.listAll hlist).wipeAll hwipe).refines AesGcm.marked_correct hk
  exact ⟨r, out, x, M', w₃, hM', hrep₃⟩

end CajaSegura
