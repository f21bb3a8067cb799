import CajaSegura.Platform.Sample
import CajaSegura.Services.SoleRules
import CajaSegura.Services.VaultCalls
import Mathlib.Data.Int.Order.Basic
import Mathlib.Data.List.Nodup

/-!
# The order of a listing

Imports one after another on a device that may travel between them, and a listing after them.

## Main definitions

* `between`: a program runs alone and without failures, between two instants
* `Imports`: the imports whose entries are in the vault, the latest first
* `InOrder`: a listing shows the imports in their order, each with its instant

## Main results

* `VaultRepository.listAll_inOrder_iff`: it does so exactly if every time stamp is read back as the
  instant at which it was written
-/

namespace CajaSegura

open Codec Async
open Program hiding bind

variable {P : Platform}

/-- A program that runs alone and without failures, between two instants. -/
def between (P : Platform) (t₀ t₁ : ℤ) : Discipline (device P) :=
  { faultless P with
    rely := fun w w' => TimePasses w w' ∧ t₀ ≤ w'.now.micros ∧ w'.now.micros ≤ t₁ }

/-- A moment between two instants at which the buffers and the time zone are those of `w₀`. -/
structure Between (t₀ t₁ : ℤ) (w₀ w : World) : Prop extends Stays w₀ w where
  after : t₀ ≤ w.now.micros
  before : w.now.micros ≤ t₁

theorem moves_between (t₀ t₁ : ℤ) (w₀ : World) :
    Moves (between P t₀ t₁) (Between t₀ t₁ w₀) False where
  rely w w' h ht := by
    obtain ⟨ht, h₀, h₁⟩ := ht
    refine ⟨?_, ht.calm⟩
    obtain ⟨t, rfl⟩ := ht
    exact ⟨⟨h.heap, h.zone⟩, h₀, h₁⟩
  quiet w w' h hq := ⟨trivial, ⟨hq.heap.trans h.heap, hq.zone.trans h.zone⟩,
    hq.now.symm ▸ h.after, hq.now.symm ▸ h.before⟩
  draw w h := ⟨trivial, ⟨h.heap, h.zone⟩, h.after, h.before⟩
  files w fs as h := ⟨⟨h.heap, h.zone⟩, h.after, h.before⟩
  fault _ _ _ := .inl
  free _ _ := trivial
  looks _ _ _ := id
  whole _ _ _ _ _ h := by cases h

/-! ## Imports one after another -/

/-- An import that has ended well: its record, and the zone in which it was written. -/
structure Import where
  record : VaultFileMeta
  zone : Zone

/-- The instant of an import. -/
def Import.instant (e : Import) : ℤ := e.record.createdAt.micros

/-- The imports whose metadata are still in the vault. -/
def remaining (P : Platform) (w : World) (es : List Import) : List Import :=
  es.filter fun e => (w.fs.files (metaKey P e.record.id)).isSome

/-- The imports on a device whose vault was empty in `w₀`, the latest first; the last one ended
before the instant `t`. Between them anything may happen but that files are added to the vault or
changed in it: the device travels, sources appear, entries are deleted. -/
inductive Imports (P : Platform) (w₀ : World) : List Import → ℤ → World → Prop
  | start (t : ℤ) (h₀ : ∀ n, w₀.fs.files ⟨vaultDir P, n⟩ = none) : Imports P w₀ [] t w₀
  | imported {es : List Import} {t t₀ t₁ : ℤ} {w w' : World} {source : File} {mimeType : Text}
      {kek : Ref} {moveFile : Bool} {m : VaultFileMeta} (h : Imports P w₀ es t w) (ht : t < t₀)
      (hw : t₀ ≤ w.now.micros ∧ w.now.micros ≤ t₁)
      (hc : (VaultRepository.importFile P source mimeType kek moveFile).Completes (between P t₀ t₁)
        w (.ok m) w') : Imports P w₀ (⟨m, w.zone⟩ :: remaining P w' es) t₁ w'
  | other {es : List Import} {t : ℤ} {w w' : World} (h : Imports P w₀ es t w)
      (hv : ∀ n, w'.fs.files ⟨vaultDir P, n⟩ = w.fs.files ⟨vaultDir P, n⟩ ∨
        w'.fs.files ⟨vaultDir P, n⟩ = none)
      (hu : w.uuids ≤ w'.uuids) : Imports P w₀ (remaining P w' es) t w'

/-- What is in the vault after imports. -/
structure Chronicle (P : Platform) (es : List Import) (t : ℤ) (w : World) : Prop where
  drawn : Drawn P w
  listed : ∀ id, w.fs.files (metaKey P id) ≠ none → ∃ e ∈ es, e.record.id = id
  stored : ∀ e ∈ es, w.fs.files (metaKey P e.record.id) = some (metaBytes e.zone e.record)
  readable : ∀ e ∈ es, e.record.Readable P
  instants : ∀ e ∈ es, e.instant ≤ t
  pairwise : es.Pairwise fun e e' => e'.instant < e.instant ∧ e.record.id ≠ e'.record.id

namespace Chronicle

variable {es : List Import} {t t' : ℤ} {w w' : World}

/-- The imports that remain where metadata files are removed and others are added. -/
theorem kept (h : Chronicle P es t w)
    (hv : ∀ e ∈ es, w'.fs.files (metaKey P e.record.id) = w.fs.files (metaKey P e.record.id) ∨
      w'.fs.files (metaKey P e.record.id) = none) {e : Import} (he : e ∈ remaining P w' es) :
    e ∈ es ∧ w'.fs.files (metaKey P e.record.id) = some (metaBytes e.zone e.record) := by
  obtain ⟨he, hs⟩ := List.mem_filter.mp he
  refine ⟨he, ?_⟩
  rcases hv e he with hv | hv
  · rw [hv, h.stored e he]
  · rw [hv] at hs
    cases hs

theorem other (h : Chronicle P es t w)
    (hv : ∀ n, w'.fs.files ⟨vaultDir P, n⟩ = w.fs.files ⟨vaultDir P, n⟩ ∨
      w'.fs.files ⟨vaultDir P, n⟩ = none) (hu : w.uuids ≤ w'.uuids) :
    Chronicle P (remaining P w' es) t w' := by
  have hkept {e : Import} (he : e ∈ remaining P w' es) := h.kept (fun e _ => hv _) he
  refine ⟨h.drawn.of_files hv hu, fun id hid => ?_, fun e he => (hkept he).2,
    fun e he => h.readable e (hkept he).1, fun e he => h.instants e (hkept he).1,
    h.pairwise.filter _⟩
  have hold := (hv (id ++ ".json".toList)).resolve_right hid
  obtain ⟨e, he, rfl⟩ := h.listed id (hold ▸ hid)
  exact ⟨e, List.mem_filter.mpr ⟨he, Option.isSome_iff_ne_none.mpr hid⟩, rfl⟩

theorem imported (haes : P.aes.Correct) (h : Chronicle P es t w) {t₀ t₁ : ℤ} (ht : t < t₀)
    (hw : t₀ ≤ w.now.micros ∧ w.now.micros ≤ t₁) {source : File} {mimeType : Text} {kek : Ref}
    {moveFile : Bool} {m : VaultFileMeta}
    (hc : (VaultRepository.importFile P source mimeType kek moveFile).Completes (between P t₀ t₁)
      w (.ok m) w') : Chronicle P (⟨m, w.zone⟩ :: remaining P w' es) t₁ w' := by
  have hJ : Between t₀ t₁ w w := ⟨⟨rfl, rfl⟩, hw.1, hw.2⟩
  obtain ⟨sk, data, hS, hM, -, hstored⟩ := VaultRepository.importFile_stored
    (moves_between t₀ t₁ w) (fun _ _ h => h.1) (fun _ h => h.toStays) haes h.drawn.fresh hJ hc
  obtain ⟨cipher, hE, hmeta, -⟩ := hstored.holds hS
  obtain ⟨w₁, hw₁, hat⟩ := hM.createdAt
  have hinstant : t₀ ≤ m.createdAt.micros ∧ m.createdAt.micros ≤ t₁ := by
    rw [hat]
    exact ⟨hw₁.after, hw₁.before⟩
  -- of the files that were there at most the source is removed
  have hne {e : Import} (he : e ∈ es) : e.record.id ≠ P.uuid w.uuids := by
    intro hid
    have hs := h.stored e he
    rw [hid, h.drawn.fresh.2] at hs
    cases hs
  have hothers {id : Text} (hid : id ≠ P.uuid w.uuids) :
      w'.fs.files (metaKey P id) = w.fs.files (metaKey P id) ∨ w'.fs.files (metaKey P id) = none :=
    hstored.others_or (dataKey_ne_metaKey _ _).symm (metaKey_injective.ne hid)
  have hkept {e : Import} (he : e ∈ remaining P w' es) := h.kept
    (fun e he => hothers (hne he)) he
  refine ⟨h.drawn.stored hstored, fun id hid => ?_, ?_, ?_, ?_, ?_⟩
  -- every metadata file belongs to the new import or to an earlier one
  · by_cases hnew : id = P.uuid w.uuids
    · exact ⟨_, List.mem_cons_self, hE.id.trans hnew.symm⟩
    have hold := (hothers hnew).resolve_right hid
    obtain ⟨e, he, rfl⟩ := h.listed id (hold ▸ hid)
    exact ⟨e, List.mem_cons_of_mem _ (List.mem_filter.mpr
      ⟨he, Option.isSome_iff_ne_none.mpr hid⟩), rfl⟩
  · rintro e (_ | ⟨_, he⟩)
    · rw [hE.id]
      exact hmeta
    · exact (hkept he).2
  · rintro e (_ | ⟨_, he⟩)
    · exact hE.readable
    · exact h.readable e (hkept he).1
  · rintro e (_ | ⟨_, he⟩)
    · exact hinstant.2
    · have hi := h.instants e (hkept he).1
      omega
  -- the new instant is later than all the others
  · refine List.pairwise_cons.mpr ⟨fun e he => ⟨?_, ?_⟩, h.pairwise.filter _⟩
    · have hi := h.instants e (hkept he).1
      have hnew : Import.instant ⟨m, w.zone⟩ = m.createdAt.micros := rfl
      omega
    · exact hE.id.trans_ne (hne (hkept he).1).symm

end Chronicle

theorem Imports.chronicle {w₀ w : World} {es : List Import} {t : ℤ} (haes : P.aes.Correct)
    (h : Imports P w₀ es t w) : Chronicle P es t w := by
  induction h with
  | start t h₀ =>
    refine ⟨fun n hn => absurd (h₀ n) hn, fun id hid => absurd (h₀ _) hid, ?_, ?_, ?_, .nil⟩
    all_goals exact fun e he => absurd he List.not_mem_nil
  | imported h ht hw hc ih => exact ih.imported haes ht hw hc
  | other h hv hu ih => exact ih.other hv hu

/-! ## The listing -/

/-- A listing shows the imports, the latest first, each with its instant. -/
def InOrder (es : List Import) (out : List VaultFileMeta) : Prop :=
  out.map (fun m => (m.id, m.createdAt.micros)) = es.map fun e => (e.record.id, e.instant)

/-- The time that the clock showed at the import is read as its instant. -/
def Import.Reread (z : Zone) (e : Import) : Prop :=
  z.instantOf (e.record.createdAt.wall e.zone) = e.instant

/-- What a reader makes of an import. -/
def Import.shown (z : Zone) (e : Import) : Option VaultFileMeta :=
  (DateTime.ofWall z (e.record.createdAt.wall e.zone)).map e.record.withCreatedAt

theorem Import.shown_of_reread {z : Zone} {e : Import} (h : e.Reread z) :
    ∃ m, e.shown z = some m ∧ m.id = e.record.id ∧ m.createdAt.micros = e.instant := by
  have hr := e.record.createdAt.inRange
  rw [Import.shown, DateTime.ofWall, dif_pos (by rw [h]; exact hr)]
  exact ⟨_, rfl, rfl, h⟩

theorem Import.reread_of_shown {z : Zone} {e : Import} {m : VaultFileMeta}
    (h : e.shown z = some m) (hm : m.createdAt.micros = e.instant) : e.Reread z := by
  obtain ⟨d, hd, rfl⟩ := Option.map_eq_some_iff.mp h
  unfold DateTime.ofWall at hd
  split at hd
  · cases hd
    exact hm
  · cases hd

theorem Import.id_of_shown {z : Zone} {e : Import} {m : VaultFileMeta} (h : e.shown z = some m) :
    m.id = e.record.id := by
  obtain ⟨d, -, rfl⟩ := Option.map_eq_some_iff.mp h
  rfl

/-- The metadata files are those of the imports. -/
theorem Chronicle.names {es : List Import} {t : ℤ} {w : World} (h : Chronicle P es t w)
    {names : List Text} (hn : w.fs.Lists (vaultDir P) names) :
    (names.filter VaultRepository.isMeta).Perm
      (es.map fun e => e.record.id ++ ".json".toList) := by
  have hnd : (es.map fun e => e.record.id ++ ".json".toList).Nodup :=
    List.pairwise_map.mpr (h.pairwise.imp fun hp he => hp.2 (List.append_cancel_right he))
  refine (List.perm_ext_iff_of_nodup (hn.1.filter _) hnd).mpr fun n => ?_
  rw [List.mem_filter, hn.2, List.mem_map]
  constructor
  · rintro ⟨hfile, hmeta⟩
    obtain ⟨id, rfl⟩ := List.isSuffixOf_iff_suffix.mp hmeta
    obtain ⟨e, he, rfl⟩ := h.listed id hfile
    exact ⟨e, he, rfl⟩
  · rintro ⟨e, he, rfl⟩
    refine ⟨fun hnone => ?_, VaultRepository.isMeta_append _⟩
    exact absurd ((h.stored e he).symm.trans hnone) nofun

/-- The records that a listing reads are those of the imports. -/
theorem Chronicle.reads {es : List Import} {t : ℤ} {w : World} (h : Chronicle P es t w)
    {names : List Text} {ms : List VaultFileMeta} (hn : w.fs.Lists (vaultDir P) names)
    (hms : Reads P False w.zone (fun n => w.fs.files ⟨vaultDir P, n⟩)
      (names.filter VaultRepository.isMeta) ms) : ms.Perm (es.filterMap (Import.shown w.zone)) := by
  have hread (e : Import) (he : e ∈ es) (now : DateTime) :
      metaOf P w.zone now (metaBytes e.zone e.record) = e.shown w.zone :=
    metaOf_metaBytes now (h.readable e he).make (h.readable e he).isUtc (h.readable e he).size
  let g (n : Text) : Option VaultFileMeta :=
    (w.fs.files ⟨vaultDir P, n⟩).bind (metaOf P w.zone w.now.local)
  have hg (e : Import) (he : e ∈ es) : g (e.record.id ++ ".json".toList) = e.shown w.zone := by
    have hfile : w.fs.files ⟨vaultDir P, e.record.id ++ ".json".toList⟩ = _ := h.stored e he
    simp only [g, hfile, Option.bind_some]
    exact hread e he _
  have heq : ms = (names.filter VaultRepository.isMeta).filterMap g := by
    refine hms.eq_filterMap fun n hn' => ?_
    obtain ⟨e, he, rfl⟩ := List.mem_map.mp ((h.names hn).mem_iff.mp hn')
    refine ⟨_, h.stored e he, fun now => ?_⟩
    rw [hread e he, hg e he]
  rw [heq]
  refine ((h.names hn).filterMap g).trans (List.Perm.of_eq ?_)
  rw [List.filterMap_map]
  exact List.filterMap_congr hg

/-- **The order of a listing**, by what is read of the imports. -/
theorem Chronicle.inOrder_iff {es : List Import} {t : ℤ} {w : World} (h : Chronicle P es t w)
    {ms : List VaultFileMeta} (hms : ms.Perm (es.filterMap (Import.shown w.zone))) :
    InOrder es (VaultRepository.sortMetas ms) ↔ ∀ e ∈ es, e.Reread w.zone := by
  have hsorted := List.mergeSort_perm ms fun a b =>
    decide (b.createdAt.micros ≤ a.createdAt.micros)
  constructor
  -- the listing shows the instant of each import, so the instant has been read back
  · intro ho e he
    have hmem : (e.record.id, e.instant) ∈
        (VaultRepository.sortMetas ms).map fun m => (m.id, m.createdAt.micros) := by
      rw [ho]
      exact List.mem_map.mpr ⟨e, he, rfl⟩
    obtain ⟨m, hm, hpair⟩ := List.mem_map.mp hmem
    obtain ⟨hid, hinstant⟩ := Prod.mk.inj hpair
    obtain ⟨e', he', hshown⟩ := List.mem_filterMap.mp (hms.mem_iff.mp (hsorted.mem_iff.mp hm))
    -- the record is that of the import, since its id is
    have hids : (es.map fun e => e.record.id).Nodup :=
      List.pairwise_map.mpr (h.pairwise.imp And.right)
    have hee : e' = e :=
      List.inj_on_of_nodup_map hids he' he ((Import.id_of_shown hshown).symm.trans hid)
    subst hee
    exact Import.reread_of_shown hshown hinstant
  -- two orders of the same records by distinct instants are the same
  · intro hall
    have hinstants : (es.map Import.instant).Nodup :=
      List.pairwise_map.mpr (h.pairwise.imp fun hp => hp.1.ne')
    let f (e : Import) : VaultFileMeta := (e.shown w.zone).getD e.record
    have hf (e : Import) (he : e ∈ es) : e.shown w.zone = some (f e) ∧
        (f e).id = e.record.id ∧ (f e).createdAt.micros = e.instant := by
      obtain ⟨m, hm, hid, hinstant⟩ := Import.shown_of_reread (hall e he)
      simp only [f, hm, Option.getD_some]
      exact ⟨trivial, hid, hinstant⟩
    have hperm : ms.Perm (es.map f) := by
      rwa [List.filterMap_congr fun e he => (hf e he).1, List.filterMap_eq_map'] at hms
    have hlatest : (es.map f).Pairwise fun a b => b.createdAt.micros ≤ a.createdAt.micros := by
      refine List.pairwise_map.mpr (h.pairwise.imp_of_mem fun he he' hp => ?_)
      rw [(hf _ he).2.2, (hf _ he').2.2]
      exact hp.1.le
    have hout : VaultRepository.sortMetas ms = es.map f := by
      refine (hsorted.trans hperm).eq_of_pairwise ?_ ?_ hlatest
      · intro a b ha hb hab hba
        obtain ⟨e, he, rfl⟩ := List.mem_map.mp ((hsorted.trans hperm).mem_iff.mp ha)
        obtain ⟨e', he', rfl⟩ := List.mem_map.mp hb
        have heq := le_antisymm hba hab
        rw [(hf e he).2.2, (hf e' he').2.2] at heq
        rw [List.inj_on_of_nodup_map hinstants he he' heq]
      · exact VaultRepository.pairwise_sortMetas ms
    rw [InOrder, hout, List.map_map]
    refine List.map_congr_left fun e he => ?_
    exact Prod.ext (hf e he).2.1 (hf e he).2.2

namespace VaultRepository

/-- **The order of a listing.** After imports at increasing instants, on a device that may travel
between and after them, a listing ends; it shows the imports in their order, each with its instant,
exactly if the time that the clock showed at each of them is read as its instant. -/
theorem listAll_inOrder_iff (haes : P.aes.Correct) {w₀ w : World} {es : List Import} {t : ℤ}
    (h : Imports P w₀ es t w) :
    (∃ r w', (listAll P).Completes (faultless P) w r w') ∧
      ∀ r w', (listAll P).Completes (faultless P) w r w' →
        ∃ out, r = .ok out ∧ (InOrder es out ↔ ∀ e ∈ es, e.Reread w.zone) := by
  have hchron := h.chronicle haes
  obtain ⟨names, hn⟩ := hchron.drawn.exists_lists
  refine ⟨listAll_completes hn, fun r w' hc => ?_⟩
  obtain ⟨-, -, names, ms, hn, rfl, hms⟩ := wp_completes listAll_sole hc
  exact ⟨_, rfl, hchron.inOrder_iff (hchron.reads hn hms)⟩

/-! ## A journey -/

/-- An import in a zone two hours ahead of UTC. -/
def departed : World :=
  { World.sample (List.replicate 32 2) [1] with zone := .fixed 7200000000 (by decide) }

def firstImport : Except DartError VaultFileMeta × World :=
  (importFile (.sample .marked) .sample ['t'] 0 false).run (device (.sample .marked))
    (fun _ => usual) 0 departed

/-- One hour later and five hours behind UTC. -/
def arrived : World :=
  { firstImport.2 with
    zone := .fixed (-18000000000) (by decide)
    now := ⟨3600000000, by decide⟩ }

def secondImport : Except DartError VaultFileMeta × World :=
  (importFile (.sample .marked) .sample ['t'] 0 false).run (device (.sample .marked))
    (fun _ => usual) 0 arrived

/-- An import of the sample file works as usual. -/
theorem importFile_completes_usual (w : World) :
    (importFile (.sample .marked) .sample ['t'] 0 false).Completes
      (between (.sample .marked) w.now.micros w.now.micros) w
      ((importFile (.sample .marked) .sample ['t'] 0 false).run (device (.sample .marked))
        (fun _ => usual) 0 w).1
      ((importFile (.sample .marked) .sample ['t'] 0 false).run (device (.sample .marked))
        (fun _ => usual) 0 w).2 := by
  refine Within.completes_run (D := between _ _ _) (G := Draws) (S := fun w' => w'.now = w.now)
    (fun w' h => ⟨⟨w'.now, rfl⟩, by rw [h], by rw [h]⟩) (fun _ w' _ _ hop => good_usual w' hop)
    (fun _ _ _ _ => trivial) (fun n w' op h _ => (World.now_exec w' op _).trans h) ?_
    (within_importFile removing_unlisted (fun _ _ => nofun) (fun _ _ h => h) _ _ _ _) 0 rfl
  rintro w₁ w₂ ⟨n, u, rfl⟩ h
  exact h

def firstRecord : VaultFileMeta := firstImport.1.toOption.get (by decide +kernel)

def secondRecord : VaultFileMeta := secondImport.1.toOption.get (by decide +kernel)

/-- The two imports; at the second, which was later, the clock showed an earlier time. -/
def journey : List Import := [⟨secondRecord, arrived.zone⟩, ⟨firstRecord, departed.zone⟩]

theorem imports_journey :
    Imports (.sample .marked) departed journey 3600000000 secondImport.2 := by
  have h₀ : Imports (.sample .marked) departed [] (-1) departed := .start (-1) fun n => rfl
  have hfirst : firstImport.1 = .ok firstRecord := ok_of_toOption (Option.some_get _).symm
  have hsecond : secondImport.1 = .ok secondRecord := ok_of_toOption (Option.some_get _).symm
  have hc₁ := importFile_completes_usual departed
  have hc₂ := importFile_completes_usual arrived
  change Completes _ _ _ firstImport.1 firstImport.2 at hc₁
  change Completes _ _ _ secondImport.1 secondImport.2 at hc₂
  rw [hfirst] at hc₁
  rw [hsecond] at hc₂
  have h₁ := Imports.imported h₀ (by decide) ⟨le_rfl, le_rfl⟩ hc₁
  have h₂ : Imports _ _ (remaining _ arrived _) _ arrived :=
    .other h₁ (fun n => .inl rfl) le_rfl
  have h₃ := Imports.imported h₂ (by decide) ⟨le_rfl, le_rfl⟩ hc₂
  -- the first entry is still there when the second import has ended
  have hkept (w : World) (h : (w.fs.files (metaKey (.sample .marked) firstRecord.id)).isSome = true) :
      remaining (.sample .marked) w [⟨firstRecord, departed.zone⟩] =
        [⟨firstRecord, departed.zone⟩] := List.filter_cons_of_pos h
  have harrived : remaining (.sample .marked) arrived
      (⟨firstRecord, departed.zone⟩ :: remaining (.sample .marked) firstImport.2 []) =
      [⟨firstRecord, departed.zone⟩] := hkept arrived (by decide +kernel)
  rw [harrived, hkept secondImport.2 (by decide +kernel)] at h₃
  exact h₃

/-- Where the second import was made, the first is not read as its instant. -/
theorem not_reread_journey : ¬ ∀ e ∈ journey, e.Reread secondImport.2.zone := by
  intro h
  have he := h ⟨firstRecord, departed.zone⟩ (List.mem_cons_of_mem _ List.mem_cons_self)
  revert he
  unfold Import.Reread
  decide +kernel

/-- The listing after the journey is not in the order of the imports. -/
theorem listAll_journey : Imports (.sample .marked) departed journey 3600000000 secondImport.2 ∧
    ∃ out w', (listAll (.sample .marked)).Completes (faultless (.sample .marked)) secondImport.2
      (.ok out) w' ∧ ¬ InOrder journey out := by
  refine ⟨imports_journey, ?_⟩
  have hchron := imports_journey.chronicle AesGcm.marked_correct
  obtain ⟨names, hn⟩ := hchron.drawn.exists_lists
  obtain ⟨r, w', hc⟩ := listAll_completes hn
  obtain ⟨-, -, names, ms, hn, rfl, hms⟩ := wp_completes listAll_sole hc
  exact ⟨_, w', hc, fun ho =>
    not_reread_journey ((hchron.inOrder_iff (hchron.reads hn hms)).mp ho)⟩

theorem listAll_inOrder_iff_journey :
    (∃ r w', (listAll (.sample .marked)).Completes (faultless (.sample .marked)) secondImport.2 r
      w') ∧
      ∀ r w', (listAll (.sample .marked)).Completes (faultless (.sample .marked)) secondImport.2 r
        w' → ∃ out, r = .ok out ∧
          (InOrder journey out ↔ ∀ e ∈ journey, e.Reread secondImport.2.zone) :=
  listAll_inOrder_iff AesGcm.marked_correct imports_journey

end VaultRepository

end CajaSegura
