import CajaSegura.Properties.Recovery

/-!
# What a move leaves outside the vault

An import that moves its source and returns, under every sequence of outcomes of its calls on files.

## Main definitions

* `Clears`: an import that returns has left the contents under no name of the source
* `Exposed`: the source was renamed and not erased, and then made anew and erased

## Main results

* `VaultRepository.importFile_clears_iff`: no contents are left outside unless `Exposed`
-/

namespace CajaSegura

open Codec Async
open Program hiding bind

variable {P : Platform} {α : Type}

/-- The source was renamed and stays under its temporary name; the overwriting has made a new file
under the old name, and that one was erased. -/
def Exposed (source : File) (l : List (Sigma Outcome)) : Prop :=
  ∃ t, RenamedTo source t l ∧ ¬ Erased t l ∧ Overwrote source l ∧ Erased source l

/-- If the result `r` is no error, the contents `b` are neither in the source nor under a name that
it was given. -/
def Clears (source : File) (b : Bytes) (l : List (Sigma Outcome)) (r : Except DartError α)
    (w' : World) : Prop :=
  ∀ a, r = .ok a → w'.fs.read source ≠ some b ∧ ∀ t, RenamedTo source t l → w'.fs.read t ≠ some b

/-- Whether the calls since `w` have cleared the contents depends on `Exposed`. -/
def Cleared (source : File) (b : Bytes) (w : World) (r : Except DartError α) (w' : World) : Prop :=
  ∃ l, w'.changes = l ++ w.changes ∧ (Clears source b l r w' ↔ ¬ Exposed source l)

variable {source : File} {sk : Key} {id : Text} {b : Bytes} {w w' : World}
  {l : List (Sigma Outcome)} {kek : Ref}

theorem cleared_of_error {e : DartError} (hl : w'.changes = l ++ w.changes)
    (hx : ¬ Exposed source l) : Cleared source b w (.error e : Except DartError α) w' :=
  ⟨l, hl, iff_of_true (fun _ ha => nomatch ha) hx⟩

/-- Calls on the files of an entry erase no other file. -/
theorem not_erased_of_entry (hs : source ≠ dataFileOf (vaultDir P) id ∧
    source ≠ metaFileOf (vaultDir P) id) (hl : ∀ a ∈ l, OfEntry P id a.1) : ¬ Erased source l := by
  intro h
  obtain ⟨f, hf, ⟨b, ho⟩ | ho⟩ := hl _ h
  · cases ho
  · obtain rfl : source = f := by simpa using ho
    exact hf.elim hs.1 hs.2

/-- A source that is exposed after calls on the files of an entry was renamed, emptied and erased
before them. -/
theorem Exposed.before {l₁ l₂ : List (Sigma Outcome)} (hx : Exposed source (l₂ ++ l₁))
    (hs : source ≠ dataFileOf (vaultDir P) id ∧ source ≠ metaFileOf (vaultDir P) id)
    (hl₂ : ∀ a ∈ l₂, OfEntry P id a.1) :
    (∃ t, RenamedTo source t l₁) ∧ Overwrote source l₁ ∧ Erased source l₁ := by
  obtain ⟨ho, hr⟩ := not_overwrote_of_entry hs hl₂
  have he := not_erased_of_entry hs hl₂
  obtain ⟨t, ht, -, hw, hx⟩ := hx
  exact ⟨⟨t, (List.mem_append.mp ht).resolve_left (hr t)⟩, (List.mem_append.mp hw).resolve_left ho,
    (List.mem_append.mp hx).resolve_left he⟩

namespace VaultRepository

/-- The removal of the source and, when it fails, of the entry. -/
theorem moveSource_cleared (hS : Source P w source sk b id) {w₁ : World} (hw₁ : Stays w w₁)
    (hd : ∀ p, w.fs.dirs p = true → w₁.fs.dirs p = true) (hf : w₁.fs.files sk = some b)
    {cipher text : Bytes} (hdata : w₁.fs.files (dataKey P id) = some cipher)
    (hmeta : w₁.fs.files (metaKey P id) = some text)
    (hl : w₁.changes = l ++ w.changes) (hle : ∀ a ∈ l, OfEntry P id a.1)
    (hln : ∀ f, ¬ Erased f l) :
    (moveSource source (dataFileOf (vaultDir P) id) (metaFileOf (vaultDir P) id)).wp (moves P)
      (Cleared source b w) w₁ := by
  have hD : Moves (moves P) (Stays w) True := moves_moves w
  have hs : w₁.fs.resolve source = some sk := Fs.resolve_mono hd hS.resolve
  have hdir : w₁.fs.dirs sk.dir = true := (w₁.fs.parent sk (by simp [hf])).1
  have hinert : Inert source l := by
    obtain ⟨ho, hr⟩ := not_overwrote_of_entry hS.ne_files hle
    exact ⟨ho, hr, hln⟩
  unfold moveSource
  rw [wp_tryCatch]
  refine wp_mono _ ?_ (deleteSource_wp hD (.refl hw₁) hs hdir hf)
  rintro r w₂ ⟨l', hl', hr, h₂⟩
  rw [List.append_nil] at h₂
  have hr := hr.after hinert
  have hchanges : w₂.changes = l' ++ l ++ w.changes := by
    rw [h₂.changes, hl, List.append_assoc]
  have hsource : w₂.fs.resolve source = some sk := Fs.resolve_mono h₂.dirs hs
  have htemp (now : Instant) : w₂.fs.resolve (tempFileOf source now) = some (tempKey sk now) :=
    resolve_temp hsource now
  cases r with
  | ok a =>
    refine ⟨l' ++ l, hchanges, ?_⟩
    unfold Clears
    rw [Fs.read_of_resolve hsource]
    have hread (now : Instant) : w₂.fs.read (tempFileOf source now) =
        w₂.fs.files (tempKey sk now) := Fs.read_of_resolve (htemp now)
    generalize w₂.fs.files = files₂ at hr hread
    cases hr with
    -- the source is deleted under its own name
    | gone hn =>
      refine iff_of_true (fun _ _ => ⟨?_, fun t ht => (hn t ht).elim⟩) fun ⟨t, ht, _⟩ => hn t ht
      simp
    | renamed _ now c ht he hok =>
      -- the contents are still under the temporary name
      have htn : RenamedTo source (tempFileOf source now) (l' ++ l) := (ht _).mpr rfl
      obtain ⟨hw, hx⟩ := hok.mp rfl
      refine iff_of_false (fun h => ?_) fun h => h ⟨_, htn, he, hw, hx⟩
      refine (h a rfl).2 _ htn ?_
      rw [hread, Function.update_self]
    -- it is deleted under the temporary name
    | renamedGone _ now ht he =>
      refine iff_of_true (fun _ _ => ⟨?_, fun t htt => ?_⟩) ?_
      · rw [Function.update_of_ne (tempKey_ne_self sk now).symm, Function.update_self]
        simp
      · rw [(ht t).mp htt, hread, Function.update_self]
        simp
      · rintro ⟨t, htt, hne, -, -⟩
        rw [(ht t).mp htt] at hne
        exact hne he
  -- the move has failed, so nothing is promised; the two halves of the entry go
  | error e =>
    have hdata₂ := hr.of_ne hS.ne_data.symm fun now => (tempKey_ne_dataKey sk now id).symm
    have hmeta₂ := hr.of_ne hS.ne_meta.symm fun now => (tempKey_ne_metaKey sk now id).symm
    dsimp only
    rw [wp_bind]
    refine wp_mono _ ?_ (cleanUp_wp hD h₂ (resolve_data w₁.fs hS.plain) (resolve_meta w₁.fs hS.plain)
      (dataKey_ne_metaKey id id) (hdata₂.trans hdata) (hmeta₂.trans hmeta))
    rintro _ w₃ ⟨rfl, l₂, hclean, h₃⟩
    have hl₂ : ∀ a ∈ l₂, OfEntry P id a.1 := fun a ha =>
      (hclean.calls a ha).elim (fun h => ⟨_, .inl rfl, .inr h⟩) fun h => ⟨_, .inr rfl, .inr h⟩
    have hl₃ : w₃.changes = l₂ ++ (l' ++ l) ++ w.changes := by
      rw [h₃.changes, hl]
      simp only [List.append_assoc]
    refine cleared_of_error hl₃ fun hx => ?_
    obtain ⟨⟨t, ht⟩, hw, he⟩ := hx.before hS.ne_files hl₂
    generalize w₂.fs.files = files₂ at hr
    cases hr with
    | kept _ hl => exact hl.renamed t ht
    | emptied _ _ hn => exact hn t ht
    | renamed _ _ _ _ _ hok => exact nomatch hok.mpr ⟨hw, he⟩

/-- **An import that moves its source** and returns leaves the contents in it or under its
temporary name only when it was renamed and not erased, and then made anew and erased. -/
theorem importFile_clears_iff (haes : P.aes.Correct) {w w' : World} {kek : Ref} {source : File}
    {b : Bytes} (hb : w.fs.read source = some b) (hne : b ≠ [])
    (hfresh : w.fs.files (dataKey P (P.uuid w.uuids)) = none ∧
      w.fs.files (metaKey P (P.uuid w.uuids)) = none) {mimeType : Text}
    {r : Except DartError VaultFileMeta}
    (hc : (importFile P source mimeType kek true).Completes (moves P) w r w') :
    ∃ l, w'.changes = l ++ w.changes ∧
      ((∀ m, r = .ok m → w'.fs.read source ≠ some b ∧
          ∀ t, RenamedTo source t l → w'.fs.read t ≠ some b) ↔
        ¬ Exposed source l) := by
  refine wp_completes (D := moves P) (Q := Cleared source b w) ?_ hc
  by_cases hkek : (w.heap kek).length = 32
  case neg =>
    -- an import under a key of another length is refused
    refine wp_mono _ ?_ (importFile_rejects_wp (F := True) (moves_moves w).toAlone
      (fun _ _ => id) (n := (w.heap kek).length) (fun w' h => by rw [h.heap]) ⟨rfl, rfl⟩
      (.inr (.inr hkek)))
    rintro _ w₁ ⟨⟨e, rfl⟩, -, -, -, hl⟩
    exact cleared_of_error (l := []) hl fun ⟨_, ht, _⟩ => nomatch ht
  obtain ⟨sk, hS⟩ := Source.of_fresh hb hne hfresh
  apply importFile_wp (F := True) (moves_moves w).toAlone haes hkek
    (fun w' _ _ _ h _ => congrFun h.heap kek) (fun w' h => (congrFun h.heap kek) ▸ hkek)
    (fun w' h => h.zone) ⟨rfl, rfl⟩ hS.resolve hS.files hne (fun _ _ => trivial)
  · exact fun _ _ _ _ _ _ => (moves_moves w).alters _
  · exact fun _ _ _ _ _ _ _ => (moves_moves w).alters _
  -- an import that fails at its writes has not renamed anything
  · rintro - e cipher text w₁ hw₁ ⟨-, -, l, hl, hle⟩
    refine cleared_of_error hl fun ⟨t, ht, _⟩ => ?_
    exact (not_overwrote_of_entry hS.ne_files (ofEntry_of_writes hle)).2 t ht
  · rintro m cipher w₁ hw₁ ⟨hfiles, hdirs, l, hl, hle⟩ hE -
    have hn : ∀ f, ¬ Erased f l := by
      intro f h
      rcases hle _ h with h | h <;> cases h
    have hsk : w₁.fs.files sk = some b := by
      rw [hfiles, written_of_ne hS.ne_data hS.ne_meta, hS.files]
    obtain ⟨m', cipher', -, hmeta, hdata⟩ :
        Holds P (w.heap kek) w.zone w₁.fs.files (P.uuid w.uuids) b := hfiles ▸ holds_written hE
    rw [wp_bind]
    refine wp_mono _ ?_ (moveSource_cleared hS hw₁ hdirs hsk hdata hmeta hl
      (ofEntry_of_writes hle) hn)
    rintro (e | a) w₂ ⟨l, hl, h⟩
    · exact ⟨l, hl, iff_of_true (fun _ hm => nomatch hm) (h.mp fun _ ha => nomatch ha)⟩
    · exact ⟨l, hl, Iff.trans ⟨fun hm _ _ => hm m rfl, fun ha _ _ => ha () rfl⟩ h⟩

/-- Deletions leave the file where it is; one of the source works after 25 calls. -/
def secondDelete (n : ℕ) : (op : Op) → Outcome op
  | .delete f => if f = File.sample ∧ 25 ≤ n then .done else .keeps
  | op => usual op

/-- The run of an import whose source is renamed, stays, and is overwritten under its old name. -/
def exposingImport : Except DartError VaultFileMeta × World :=
  (importFile (.sample .marked) .sample ['t'] 0 true).run (device (.sample .marked)) secondDelete 0
    (.sample (List.replicate 32 2) [1])

theorem exposingImport_completes :
    (importFile (.sample .marked) .sample ['t'] 0 true).Completes (moves (.sample .marked))
      (.sample (List.replicate 32 2) [1]) exposingImport.1 exposingImport.2 := by
  have hallow : ∀ n op, FailsWhole op (secondDelete n op) := by
    intro n op
    cases op with
    | writeAsBytes f b => exact fun n e h => nomatch h
    | fileExists f => rfl
    | _ => trivial
  exact completes_run (D := moves _) (fun w => ⟨w.now, rfl⟩) (fun n _ => hallow n)
    (fun _ _ _ => trivial) _ 0 _

/-- The import returns and the contents are under the temporary name. -/
theorem importFile_leaves_contents :
    (importFile (.sample .marked) .sample ['t'] 0 true).Completes (moves (.sample .marked))
        (.sample (List.replicate 32 2) [1]) exposingImport.1 exposingImport.2 ∧
      ¬ Clears .sample [1] exposingImport.2.changes exposingImport.1 exposingImport.2 := by
  refine ⟨exposingImport_completes, fun h => ?_⟩
  have hok : exposingImport.1.toOption.isSome = true := by decide +kernel
  obtain ⟨m, hm⟩ : ∃ m, exposingImport.1 = .ok m := by
    cases hr : exposingImport.1 with
    | error e => simp [hr, Except.toOption] at hok
    | ok m => exact ⟨m, rfl⟩
  have hrenamed : RenamedTo .sample (tempFileOf .sample ⟨0, by decide⟩) exposingImport.2.changes :=
    renamedTo_iff.mpr (by decide +kernel)
  have hread : exposingImport.2.fs.read (tempFileOf .sample ⟨0, by decide⟩) = some [1] := by
    decide +kernel
  exact (h m hm).2 _ hrenamed hread

theorem importFile_clears_iff_exposingImport :
    ∃ l, exposingImport.2.changes = l ++ [] ∧
      ((∀ m, exposingImport.1 = .ok m → exposingImport.2.fs.read .sample ≠ some [1] ∧
          ∀ t, RenamedTo .sample t l → exposingImport.2.fs.read t ≠ some [1]) ↔
        ¬ Exposed .sample l) :=
  importFile_clears_iff AesGcm.marked_correct (by decide) (by decide) ⟨by decide, by decide⟩
    exposingImport_completes

end VaultRepository

end CajaSegura
