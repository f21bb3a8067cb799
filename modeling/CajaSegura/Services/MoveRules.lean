import CajaSegura.Services.VaultRules

/-!
# The removal of an imported file

Every branch of the fallbacks of a move, by the outcomes of the calls that it makes.

## Main definitions

* `Moves`: a discipline in which calls on files may fail, but whole and not when they only look
* `Removal`: what is left of the source, and which calls have left it so

## Main results

* `resolve_temp`: the temporary name is a name of the same directory
* `VaultRepository.deleteSource_wp`, `VaultRepository.cleanUp_wp`
-/

namespace CajaSegura

open Codec Async
open Program hiding bind

variable {P : Platform}

/-! ## The temporary name -/

/-- What is added to the name of a file that is to be deleted. -/
def tempSuffix (now : Instant) : Text :=
  ".temp_delete_".toList ++ Json.encodeInt (now.micros.tdiv 1000)

/-- The file `k` under its temporary name. -/
def tempKey (k : Key) (now : Instant) : Key := ⟨k.dir, k.name ++ tempSuffix now⟩

theorem getLast?_encodeInt (n : ℤ) : ∃ c, (Json.encodeInt n).getLast? = some c ∧ c.isDigit = true := by
  have hne : Nat.toDigits 10 n.natAbs ≠ [] := Nat.toDigits_ne_nil
  refine ⟨(Nat.toDigits 10 n.natAbs).getLast hne, ?_,
    Json.isDigit_of_mem_toDigits (List.getLast_mem hne)⟩
  unfold Json.encodeInt
  split
  · rw [List.getLast?_cons, List.getLast?_eq_some_getLast hne, Option.getD_some]
  · rw [List.getLast?_eq_some_getLast hne]

theorem slash_notMem_tempSuffix (now : Instant) : '/' ∉ tempSuffix now := by
  have hi := Json.notMem_encodeInt (c := '/') rfl (by decide) (now.micros.tdiv 1000)
  unfold tempSuffix
  simp [hi]

theorem tempFileOf_eq (source : File) (now : Instant) :
    VaultRepository.tempFileOf source now = ⟨source.base, source.rel ++ tempSuffix now⟩ := by
  unfold VaultRepository.tempFileOf tempSuffix
  rw [List.append_assoc]

/-- The temporary name is a name of the same directory. -/
theorem resolve_temp {fs : Fs} {source : File} {sk : Key} (h : fs.resolve source = some sk)
    (now : Instant) :
    fs.resolve (VaultRepository.tempFileOf source now) = some (tempKey sk now) := by
  obtain ⟨cs, n, -, hrel, happ⟩ := Fs.splitOn_append source.rel
  have hl : 2 < (tempSuffix now).length := by
    unfold tempSuffix
    rw [List.length_append]
    exact Nat.lt_add_right _ (by decide)
  have hn : ¬ NoName (n ++ tempSuffix now) := not_noName_append hl
  rw [tempFileOf_eq]
  unfold Fs.resolve at h ⊢
  rw [hrel] at h
  rw [happ _ (slash_notMem_tempSuffix now)]
  simp only [List.getLastD_concat, List.dropLast_concat] at h ⊢
  rw [if_neg hn]
  split at h
  · cases h
  · obtain ⟨dir, hd, rfl⟩ := Option.map_eq_some_iff.mp h
    rw [hd]
    rfl

/-- No file of an entry has a temporary name. -/
theorem tempKey_ne {k : Key} {now : Instant} {dir : Path} {id ext : Text} {c : Char}
    (he : ext.getLast? = some c) (hc : c.isDigit = false) : tempKey k now ≠ ⟨dir, id ++ ext⟩ := by
  intro h
  have hn : k.name ++ tempSuffix now = id ++ ext := congrArg Key.name h
  obtain ⟨d, hd, hdigit⟩ := getLast?_encodeInt (now.micros.tdiv 1000)
  have hl := congrArg List.getLast? hn
  unfold tempSuffix at hl
  rw [List.getLast?_append, List.getLast?_append, hd, List.getLast?_append, he] at hl
  obtain rfl : d = c := by simpa using hl
  rw [hc] at hdigit
  cases hdigit

theorem tempKey_ne_dataKey (k : Key) (now : Instant) (id : Text) : tempKey k now ≠ dataKey P id :=
  tempKey_ne (c := 'c') rfl (by decide)

theorem tempKey_ne_metaKey (k : Key) (now : Instant) (id : Text) : tempKey k now ≠ metaKey P id :=
  tempKey_ne (c := 'n') rfl (by decide)

/-! ## The disciplines of a move -/

/-- A discipline that asks nothing of the program, in which calls on files may fail for `F`, but
writes are whole and looking whether a file is there works. -/
structure Moves (D : Discipline (device P)) (J : World → Prop) (F : Prop) : Prop
    extends Alone D J F where
  free : ∀ w w', D.guarantee w w'
  looks : ∀ w f o, D.allow w (.fileExists f) o → o = none
  whole : ∀ w f b n e, ¬ D.allow w (.writeAsBytes f b) (.cut n e)

variable {D : Discipline (device P)} {J : World → Prop} {F : Prop} {w₀ w : World}
  {l : List (Sigma Outcome)} {files : Key → Option Bytes} {f : File} {k : Key}

theorem Moves.alters (hD : Moves D J F) (S : (Key → Option Bytes) → Prop) : Alters D J w S :=
  fun _ _ _ _ _ _ _ => hD.free _ _

theorem After.resolve (h : After J w₀ l files w) (hf : w₀.fs.resolve f = some k) :
    w.fs.resolve f = some k := Fs.resolve_mono h.dirs hf

theorem Moves.delayed (hD : Moves D J F) (h : After J w₀ l files w) (n : ℕ) :
    (call (.delayed n)).wp D (fun r w' => r = .ok () ∧ After J w₀ l files w') w := by
  apply hD.wp_call (by simp [Op.Mutates]) h.keeps
  intro w₁ o _ _ _ w₂ hw₂ hc₂
  exact ⟨rfl, h.calm hw₂ hc₂⟩

theorem Moves.fileExists (hD : Moves D J F) (h : After J w₀ l files w)
    (hf : w₀.fs.resolve f = some k) : (call (.fileExists f)).wp D
      (fun r w' => r = .ok (files k).isSome ∧ After J w₀ l files w') w := by
  apply hD.wp_call (by simp [Op.Mutates]) h.keeps
  intro w₁ o hw₁ hc₁ ho w₂ hw₂ hc₂
  obtain rfl := hD.looks _ _ _ ho
  refine ⟨?_, h.calm hw₂ hc₂⟩
  have hread := Fs.read_of_resolve ((h.calm hw₁ hc₁).resolve hf)
  rw [(h.calm hw₁ hc₁).files] at hread
  exact congrArg (fun b => Except.ok (Option.isSome b)) hread

/-- A look whether a file is there does not fail. -/
theorem Moves.look {α : Type} (hD : Moves D J F) (h : After J w₀ l files w)
    (hf : w₀.fs.resolve f = some k) {p : Bool → App α} {Q : Except DartError α → World → Prop}
    (hp : ∀ w', After J w₀ l files w' → (p (files k).isSome).wp D Q w') :
    (call (.fileExists f) >>= p).wp D Q w := by
  rw [wp_bind]
  refine wp_mono _ ?_ (hD.fileExists h hf)
  rintro _ w' ⟨rfl, h'⟩
  exact hp w' h'

theorem Moves.delete (hD : Moves D J F) (h : After J w₀ l files w)
    (hf : w₀.fs.resolve f = some k) {b : Bytes} (hb : files k = some b) :
    (call (.delete f)).wp D (fun r w' => ∃ o, DeleteEnds files k o r w'.fs.files ∧
      (o = .done ∨ F) ∧ After J w₀ (⟨.delete f, o⟩ :: l) w'.fs.files w') w := by
  refine wp_mono _ ?_ (delete_wp hD.toAlone h.keeps (h.resolve hf) (h.files ▸ hb) (hD.alters _))
  rintro r w' ⟨o, ha, he⟩
  obtain ⟨w₁, ho⟩ := ha.allow
  exact ⟨o, h.files ▸ he, hD.fault _ _ _ ho, h.answered ha rfl⟩

theorem Moves.rename (hD : Moves D J F) (h : After J w₀ l files w)
    (hf : w₀.fs.resolve f = some k) {t : File} {k' : Key} (ht : w₀.fs.resolve t = some k')
    (hdir : k'.dir = k.dir) {b : Bytes} (hb : files k = some b) :
    (call (.rename f t)).wp D (fun r w' => ∃ o, RenameEnds files k k' o r w'.fs.files ∧
      (o = none ∨ F) ∧ After J w₀ (⟨.rename f t, o⟩ :: l) w'.fs.files w') w := by
  refine wp_mono _ ?_ (rename_wp hD.toAlone h.keeps (h.resolve hf) (h.resolve ht) hdir
    (h.files ▸ hb) (hD.alters _))
  rintro r w' ⟨o, ha, he⟩
  obtain ⟨w₁, ho⟩ := ha.allow
  exact ⟨o, h.files ▸ he, hD.fault _ _ _ ho, h.answered ha rfl⟩

theorem Moves.write (hD : Moves D J F) (h : After J w₀ l files w)
    (hf : w₀.fs.resolve f = some k) (hd : w₀.fs.dirs k.dir = true) (b : Bytes) :
    (call (.writeAsBytes f b)).wp D (fun r w' => ∃ o,
      ((o = .done ∧ r = .ok () ∧ w'.fs.files = Function.update files k (some b)) ∨
        ∃ e, o = .fails e ∧ F ∧ r = .error e ∧ w'.fs.files = files) ∧
      After J w₀ (⟨.writeAsBytes f b, o⟩ :: l) w'.fs.files w') w := by
  refine wp_mono _ ?_ (writeAsBytes_wp hD.toAlone h.keeps (h.resolve hf) (h.dirs _ hd)
    (hD.alters _))
  rintro r w' ⟨o, ha, he⟩
  obtain ⟨w₁, ho⟩ := ha.allow
  refine ⟨o, ?_, h.answered ha rfl⟩
  rw [h.files] at he
  rcases he with he | ⟨e, hr, ⟨rfl, he⟩ | ⟨n, rfl, -⟩⟩
  · exact .inl he
  · exact .inr ⟨e, rfl, (hD.fault _ _ _ ho).resolve_left nofun, hr, he⟩
  · exact absurd ho (hD.whole _ _ _ _ _)

/-! ## The source -/

/-- The calls by which a source is removed. -/
inductive OfSource (source : File) : Op → Prop
  | delete : OfSource source (.delete source)
  | rename (now : Instant) : OfSource source (.rename source (VaultRepository.tempFileOf source now))
  | deleteTemp (now : Instant) : OfSource source (.delete (VaultRepository.tempFileOf source now))
  | overwrite : OfSource source (.writeAsBytes source [])

/-- The source has been overwritten with nothing. -/
def Overwrote (source : File) (l : List (Sigma Outcome)) : Prop :=
  ⟨.writeAsBytes source [], WriteOutcome.done⟩ ∈ l

/-- The source has been given the name `t`. -/
def RenamedTo (source t : File) (l : List (Sigma Outcome)) : Prop :=
  ⟨.rename source t, (none : Option DartError)⟩ ∈ l

/-- The renaming that a call has done, if it has. -/
def renameOf : Sigma Outcome → Option (File × File)
  | ⟨.rename f t, none⟩ => some (f, t)
  | _ => none

theorem renamedTo_iff {source t : File} {l : List (Sigma Outcome)} :
    RenamedTo source t l ↔ (source, t) ∈ l.filterMap renameOf := by
  rw [List.mem_filterMap]
  refine ⟨fun h => ⟨_, h, rfl⟩, ?_⟩
  rintro ⟨⟨op, o⟩, hmem, h⟩
  cases op with
  | rename f t' =>
    cases o with
    | none =>
      cases h
      exact hmem
    | some e => cases h
  | _ => cases h

/-- The file `f` has been deleted. -/
def Erased (f : File) (l : List (Sigma Outcome)) : Prop := ⟨.delete f, DeleteOutcome.done⟩ ∈ l

/-- Calls that neither emptied nor renamed the source, and erased nothing. -/
structure Inert (source : File) (l : List (Sigma Outcome)) : Prop where
  overwrote : ¬ Overwrote source l
  renamed : ∀ t, ¬ RenamedTo source t l
  erased : ∀ f, ¬ Erased f l

/-- What is left of the source and its temporary name after the calls `l`. A source that has been
renamed and not erased stays under its temporary name; the removal returns then exactly if the
source was emptied, and so made anew, and erased. -/
inductive Removal (F : Prop) (source : File) (sk : Key) (b : Bytes) (files : Key → Option Bytes) :
    Except DartError Unit → List (Sigma Outcome) → (Key → Option Bytes) → Prop
  | kept {e : DartError} {l : List (Sigma Outcome)} (hF : F) (hl : Inert source l) :
      Removal F source sk b files (.error e) l files
  | gone {l : List (Sigma Outcome)} (hr : ∀ t, ¬ RenamedTo source t l) :
      Removal F source sk b files (.ok ()) l (Function.update files sk none)
  | emptied {e : DartError} {l : List (Sigma Outcome)} (hF : F) (hw : Overwrote source l)
      (hr : ∀ t, ¬ RenamedTo source t l) :
      Removal F source sk b files (.error e) l (Function.update files sk (some []))
  | renamed {r : Except DartError Unit} {l : List (Sigma Outcome)} (hF : F) (now : Instant)
      (c : Option Bytes)
      (hr : ∀ t, RenamedTo source t l ↔ t = VaultRepository.tempFileOf source now)
      (he : ¬ Erased (VaultRepository.tempFileOf source now) l)
      (hok : r = .ok () ↔ Overwrote source l ∧ Erased source l) : Removal F source sk b files r l
        (Function.update (Function.update files sk c) (tempKey sk now) (some b))
  | renamedGone {l : List (Sigma Outcome)} (hF : F) (now : Instant)
      (hr : ∀ t, RenamedTo source t l ↔ t = VaultRepository.tempFileOf source now)
      (he : Erased (VaultRepository.tempFileOf source now) l) :
      Removal F source sk b files (.ok ()) l
        (Function.update (Function.update files sk none) (tempKey sk now) none)

/-- How a stretch of the removal ends that starts after the calls `l`. -/
def Removes (J : World → Prop) (F : Prop) (w₀ : World) (source : File) (sk : Key) (b : Bytes)
    (l : List (Sigma Outcome)) (files : Key → Option Bytes) (r : Except DartError Unit)
    (w' : World) : Prop :=
  ∃ l', (∀ a ∈ l', OfSource source a.1) ∧ Removal F source sk b files r l' w'.fs.files ∧
    After J w₀ (l' ++ l) w'.fs.files w'

theorem length_tempSuffix_pos (now : Instant) : 0 < (tempSuffix now).length := by
  unfold tempSuffix
  rw [List.length_append]
  exact Nat.lt_add_right _ (by decide)

theorem tempKey_ne_self (k : Key) (now : Instant) : tempKey k now ≠ k := by
  intro h
  have hn := congrArg (fun k => k.name.length) h
  have hl := length_tempSuffix_pos now
  simp only [tempKey, List.length_append] at hn
  omega

theorem tempFileOf_ne_self (source : File) (now : Instant) :
    VaultRepository.tempFileOf source now ≠ source := by
  intro h
  have hrel := congrArg (fun f => f.rel.length) ((tempFileOf_eq source now).symm.trans h)
  simp only [List.length_append] at hrel
  have hl := length_tempSuffix_pos now
  omega

/-- What the cleaning leaves of two files that are there. -/
structure Cleaned (f₁ f₂ : File) (k₁ k₂ : Key) (files : Key → Option Bytes)
    (l : List (Sigma Outcome)) (files' : Key → Option Bytes) : Prop where
  calls : ∀ a ∈ l, a.1 = .delete f₁ ∨ a.1 = .delete f₂
  others : ∀ k, k ≠ k₁ → k ≠ k₂ → files' k = files k
  erased : Erased f₁ l ∨ Erased f₂ l → files' k₁ = none ∨ files' k₂ = none
  untouched : ¬ (Erased f₁ l ∨ Erased f₂ l) → files' = files

variable {source : File} {sk : Key} {b : Bytes}

theorem Inert.append {l₁ : List (Sigma Outcome)} (h₁ : Inert source l₁)
    (l₂ : List (Sigma Outcome)) :
    (Overwrote source (l₂ ++ l₁) ↔ Overwrote source l₂) ∧
      (∀ t, RenamedTo source t (l₂ ++ l₁) ↔ RenamedTo source t l₂) ∧
      ∀ f, Erased f (l₂ ++ l₁) ↔ Erased f l₂ := by
  obtain ⟨ho, hr, he⟩ := h₁
  refine ⟨?_, fun t => ?_, fun f => ?_⟩
  · exact List.mem_append.trans (or_iff_left ho)
  · exact List.mem_append.trans (or_iff_left (hr t))
  · exact List.mem_append.trans (or_iff_left (he f))

/-- Calls before it that left the file as it was. -/
theorem Removal.after {r : Except DartError Unit} {l₁ l₂ : List (Sigma Outcome)}
    {files' : Key → Option Bytes} (h : Removal F source sk b files r l₂ files')
    (h₁ : Inert source l₁) : Removal F source sk b files r (l₂ ++ l₁) files' := by
  obtain ⟨ho, hr, he⟩ := h₁.append l₂
  cases h with
  | kept hF hl =>
    exact .kept hF ⟨ho.not.mpr hl.overwrote, fun t => (hr t).not.mpr (hl.renamed t),
      fun f => (he f).not.mpr (hl.erased f)⟩
  | gone hn => exact .gone fun t => (hr t).not.mpr (hn t)
  | emptied hF hw hn => exact .emptied hF (ho.mpr hw) fun t => (hr t).not.mpr (hn t)
  | renamed hF now c ht ht' hok =>
    refine .renamed hF now c (fun t => (hr t).trans (ht t)) ((he _).not.mpr ht') ?_
    rw [hok, ho, he]
  | renamedGone hF now ht ht' =>
    exact .renamedGone hF now (fun t => (hr t).trans (ht t)) ((he _).mpr ht')

/-- How the second method ends: it does not rename the file, it erases no other, and it returns
exactly if it has emptied the file and erased it. -/
structure Second (source : File) (r : Except DartError Unit) (l : List (Sigma Outcome)) :
    Prop where
  renamed : ∀ t, ¬ RenamedTo source t l
  erased : ∀ f, Erased f l → f = source
  ok : r = .ok () ↔ Overwrote source l ∧ Erased source l

/-- What the second method adds to what the first has left. -/
theorem Removal.trans {e : DartError} {r : Except DartError Unit}
    {l₁ l₂ : List (Sigma Outcome)} {files₁ files₂ : Key → Option Bytes}
    (h₁ : Removal F source sk b files (.error e) l₁ files₁) (hw : ¬ Overwrote source l₁)
    (he : ¬ Erased source l₁) (h₂ : Removal F source sk b files₁ r l₂ files₂)
    (hs : Second source r l₂) : Removal F source sk b files r (l₂ ++ l₁) files₂ := by
  cases h₁ with
  -- the first attempt has done nothing
  | kept _ hl => exact h₂.after hl
  | emptied hF hw₁ hr₁ => exact absurd hw₁ hw
  | renamed hF now c ht ht' _ =>
    have hne : sk ≠ tempKey sk now := (tempKey_ne_self sk now).symm
    -- the file has its other name, and the second attempt is about the old one only
    have hrenamed (t : File) : RenamedTo source t (l₂ ++ l₁) ↔
        t = VaultRepository.tempFileOf source now :=
      List.mem_append.trans ((or_iff_right (hs.renamed t)).trans (ht t))
    have herased : ¬ Erased (VaultRepository.tempFileOf source now) (l₂ ++ l₁) := by
      intro h
      rcases List.mem_append.mp h with h | h
      · exact tempFileOf_ne_self source now (hs.erased _ h)
      · exact ht' h
    have hok : r = .ok () ↔ Overwrote source (l₂ ++ l₁) ∧ Erased source (l₂ ++ l₁) := by
      rw [hs.ok]
      exact and_congr (List.mem_append.trans (or_iff_left hw)).symm
        (List.mem_append.trans (or_iff_left he)).symm
    cases h₂ with
    | kept _ _ => exact .renamed hF now c hrenamed herased hok
    | gone =>
      rw [Function.update_comm hne.symm, Function.update_idem]
      exact .renamed hF now none hrenamed herased hok
    | emptied _ _ _ =>
      rw [Function.update_comm hne.symm, Function.update_idem]
      exact .renamed hF now (some []) hrenamed herased hok
    | renamed _ _ _ ht _ _ => exact absurd ((ht _).mpr rfl) (hs.renamed _)
    | renamedGone _ _ ht _ => exact absurd ((ht _).mpr rfl) (hs.renamed _)

/-- Other files are as they were. -/
theorem Removal.of_ne {r : Except DartError Unit} {l : List (Sigma Outcome)}
    {files' : Key → Option Bytes} (h : Removal F source sk b files r l files') (hk : k ≠ sk)
    (ht : ∀ now, k ≠ tempKey sk now) : files' k = files k := by
  cases h with
  | kept => rfl
  | gone => rw [Function.update_of_ne hk]
  | emptied => rw [Function.update_of_ne hk]
  | renamed _ now => rw [Function.update_of_ne (ht now), Function.update_of_ne hk]
  | renamedGone _ now => rw [Function.update_of_ne (ht now), Function.update_of_ne hk]

/-- The error that is thrown does not matter. -/
theorem Removal.throws {e e' : DartError} {l : List (Sigma Outcome)}
    {files' : Key → Option Bytes} (h : Removal F source sk b files (.error e) l files') :
    Removal F source sk b files (.error e') l files' := by
  cases h with
  | kept hF hl => exact .kept hF hl
  | emptied hF hw hr => exact .emptied hF hw hr
  | renamed hF now c hr he hok => exact .renamed hF now c hr he (by simpa using hok)

namespace VaultRepository

theorem verifyDeleted_wp (hD : Moves D J F) (hs : w₀.fs.resolve source = some sk)
    (attempts : List ℕ) : ∀ (attempt : ℕ) (still : Bool) (w : World), After J w₀ l files w →
      (verifyDeleted source still (attempt :: attempts)).wp D
        (fun r w' => r = .ok (files sk).isSome ∧ After J w₀ l files w') w := by
  induction attempts with
  | nil =>
    intro attempt still w h
    unfold verifyDeleted
    rw [wp_bind]
    refine wp_mono _ ?_ (hD.delayed h _)
    rintro _ w₁ ⟨rfl, h₁⟩
    apply hD.look h₁ hs
    intro w₂ h₂
    -- a file that is still there after the last attempt counts as there
    cases hb : (files sk).isSome with
    | true => exact ⟨rfl, h₂⟩
    | false => exact ⟨rfl, h₂⟩
  | cons a as ih =>
    intro attempt still w h
    unfold verifyDeleted
    rw [wp_bind]
    refine wp_mono _ ?_ (hD.delayed h _)
    rintro _ w₁ ⟨rfl, h₁⟩
    apply hD.look h₁ hs
    intro w₂ h₂
    cases hb : (files sk).isSome with
    | true =>
      have hgo := ih a true w₂ h₂
      rw [hb] at hgo
      exact hgo
    | false => exact ⟨rfl, h₂⟩

/-- A deletion after which the file must not be there any more. -/
theorem deleteChecked_wp (hD : Moves D J F) (h : After J w₀ l files w)
    (hf : w₀.fs.resolve f = some k) (hb : files k = some b) (e : DartError) :
    (do
      call (.delete f)
      let there : Bool ← call (.fileExists f)
      when there (throw e) : App Unit).wp D (fun r w' => ∃ o : DeleteOutcome,
        ((o = .done ∧ r = .ok () ∧ w'.fs.files = Function.update files k none) ∨
          F ∧ o ≠ .done ∧ (∃ e, r = .error e) ∧ w'.fs.files = files) ∧
        After J w₀ (⟨.delete f, o⟩ :: l) w'.fs.files w') w := by
  rw [wp_bind]
  refine wp_mono _ ?_ (hD.delete h hf hb)
  rintro r w₁ ⟨o, he, hF, h₁⟩
  rcases he with ⟨rfl, rfl, hf₁⟩ | ⟨hf₁, ⟨e, rfl, rfl⟩ | ⟨rfl, rfl⟩⟩
  · apply hD.look h₁ hf
    intro w₂ h₂
    rw [hf₁, Function.update_self]
    exact ⟨_, .inl ⟨rfl, rfl, h₂.files.trans hf₁⟩, h₂.files ▸ h₂⟩
  · exact ⟨.fails e, .inr ⟨hF.resolve_left nofun, nofun, ⟨e, rfl⟩, hf₁⟩, h₁⟩
  · apply hD.look h₁ hf
    intro w₂ h₂
    rw [hf₁, hb]
    exact ⟨.keeps, .inr ⟨hF.resolve_left nofun, nofun, ⟨e, rfl⟩, h₂.files.trans hf₁⟩,
      h₂.files ▸ h₂⟩

/-- The first method neither empties the file nor erases it under its own name. -/
theorem renameAndDelete_wp (hD : Moves D J F) (hF : F) (h : After J w₀ l files w)
    (hs : w₀.fs.resolve source = some sk) (hb : files sk = some b) :
    (renameAndDelete source).wp D (fun r w' => ∃ l', (∀ a ∈ l', OfSource source a.1) ∧
      (¬ Overwrote source l' ∧ ¬ Erased source l') ∧
      Removal F source sk b files r l' w'.fs.files ∧ After J w₀ (l' ++ l) w'.fs.files w') w := by
  unfold renameAndDelete
  rw [wp_bind, wp_get]
  generalize w.now = now
  have ht := resolve_temp hs now
  dsimp only
  rw [wp_bind]
  refine wp_mono _ ?_ (hD.rename h hs ht rfl hb)
  rintro r w₁ ⟨o, he, -, h₁⟩
  rcases he with ⟨rfl, rfl, hf₁⟩ | ⟨e, rfl, rfl, hf₁⟩
  · rw [hb] at hf₁
    -- renamed: the deletion is of the temporary name
    have htk : w₁.fs.files (tempKey sk now) = some b := by rw [hf₁, Function.update_self]
    refine wp_mono _ ?_ (deleteChecked_wp hD h₁ ht htk _)
    rintro r w₂ ⟨o, he, h₂⟩
    have hne := tempFileOf_ne_self source now
    have hr (t : File) : RenamedTo source t [⟨.delete (tempFileOf source now), o⟩,
        ⟨.rename source (tempFileOf source now), (none : Option DartError)⟩] ↔
          t = tempFileOf source now := by
      simp [RenamedTo]
    refine ⟨[⟨.delete (tempFileOf source now), o⟩,
      ⟨.rename source (tempFileOf source now), (none : Option DartError)⟩], ?_, ?_, ?_, h₂⟩
    · simp only [List.mem_cons, List.not_mem_nil, or_false, forall_eq_or_imp, forall_eq]
      exact ⟨.deleteTemp now, .rename now⟩
    · simp [Overwrote, Erased, hne.symm]
    · rcases he with ⟨rfl, rfl, hf₂⟩ | ⟨hF, ho, ⟨e, rfl⟩, hf₂⟩
      · rw [hf₂, hf₁, Function.update_idem]
        refine .renamedGone hF now hr ?_
        simp [Erased]
      · rw [hf₂, hf₁]
        refine .renamed hF now none hr ?_ ?_
        · simpa [Erased] using ho.symm
        · simp [Overwrote]
  -- not renamed
  · refine ⟨[⟨.rename source (tempFileOf source now), (some e : Option DartError)⟩], ?_, ?_, ?_, h₁⟩
    · simp only [List.mem_singleton, forall_eq]
      exact .rename now
    · simp [Overwrote, Erased]
    · rw [hf₁]
      refine .kept hF ⟨?_, ?_, ?_⟩
      · simp [Overwrote]
      · simp [RenamedTo]
      · simp [Erased]

theorem overwriteAndDelete_wp (hD : Moves D J F) (h : After J w₀ l files w)
    (hs : w₀.fs.resolve source = some sk) (hd : w₀.fs.dirs sk.dir = true) :
    (overwriteAndDelete source).wp D (fun r w' => ∃ l', (∀ a ∈ l', OfSource source a.1) ∧
      Second source r l' ∧ Removal F source sk b files r l' w'.fs.files ∧
      After J w₀ (l' ++ l) w'.fs.files w') w := by
  unfold overwriteAndDelete
  rw [wp_bind]
  refine wp_mono _ ?_ (hD.write h hs hd [])
  rintro r w₁ ⟨o, ⟨rfl, rfl, hf₁⟩ | ⟨e, rfl, hF, rfl, hf₁⟩, h₁⟩
  -- overwritten: the contents are lost, whether the deletion succeeds or not
  · have hsk : w₁.fs.files sk = some [] := by rw [hf₁, Function.update_self]
    refine wp_mono _ ?_ (deleteChecked_wp hD h₁ hs hsk _)
    rintro r w₂ ⟨o, he, h₂⟩
    have hr : ∀ t, ¬ RenamedTo source t [⟨.delete source, o⟩,
        ⟨.writeAsBytes source [], WriteOutcome.done⟩] := by
      simp [RenamedTo]
    refine ⟨[⟨.delete source, o⟩, ⟨.writeAsBytes source [], WriteOutcome.done⟩], ?_,
      ⟨hr, ?_, ?_⟩, ?_, h₂⟩
    · simp only [List.mem_cons, List.not_mem_nil, or_false, forall_eq_or_imp, forall_eq]
      exact ⟨.delete, .overwrite⟩
    · simp +contextual [Erased]
    · rcases he with ⟨rfl, rfl, -⟩ | ⟨-, ho, ⟨e, rfl⟩, -⟩
      · simp [Overwrote, Erased]
      · simpa [Overwrote, Erased] using ho.symm
    · rcases he with ⟨-, rfl, hf₂⟩ | ⟨hF, -, ⟨e, rfl⟩, hf₂⟩
      · rw [hf₂, hf₁, Function.update_idem]
        exact .gone hr
      · rw [hf₂, hf₁]
        refine .emptied hF ?_ hr
        simp [Overwrote]
  -- the write is refused
  · refine ⟨[⟨.writeAsBytes source [], WriteOutcome.fails e⟩], ?_, ⟨?_, ?_, ?_⟩, ?_, h₁⟩
    · simp only [List.mem_singleton, forall_eq]
      exact .overwrite
    · simp [RenamedTo]
    · simp [Erased]
    · simp [Overwrote]
    · rw [hf₁]
      refine .kept hF ⟨?_, ?_, ?_⟩
      · simp [Overwrote]
      · simp [RenamedTo]
      · simp [Erased]

theorem deleteOtherwise_wp (hD : Moves D J F) (hF : F) (h : After J w₀ l files w)
    (hs : w₀.fs.resolve source = some sk) (hd : w₀.fs.dirs sk.dir = true)
    (hb : files sk = some b) :
    (deleteOtherwise source).wp D (Removes J F w₀ source sk b l files) w := by
  unfold deleteOtherwise
  rw [wp_tryCatch]
  refine wp_mono _ ?_ (renameAndDelete_wp hD hF h hs hb)
  rintro (e | a) w₁ ⟨l₁, hl₁, ⟨hw₁, he₁⟩, hr₁, h₁⟩
  · dsimp only
    rw [wp_tryCatch]
    refine wp_mono _ ?_ (overwriteAndDelete_wp (b := b) hD h₁ hs hd)
    rintro r w₂ ⟨l₂, hl₂, hs₂, hr₂, h₂⟩
    have hr := hr₁.trans hw₁ he₁ hr₂ hs₂
    have hl : ∀ a ∈ l₂ ++ l₁, OfSource source a.1 := fun a ha =>
      (List.mem_append.mp ha).elim (hl₂ a) (hl₁ a)
    rw [← List.append_assoc] at h₂
    cases r with
    | error e => exact ⟨_, hl, hr.throws, h₂⟩
    | ok a => exact ⟨_, hl, hr, h₂⟩
  · exact ⟨l₁, hl₁, hr₁, h₁⟩

/-- **The removal of the source**, by what is left of it. -/
theorem deleteSource_wp (hD : Moves D J F) (h : After J w₀ l files w)
    (hs : w₀.fs.resolve source = some sk) (hd : w₀.fs.dirs sk.dir = true)
    (hb : files sk = some b) :
    (deleteSource source).wp D (Removes J F w₀ source sk b l files) w := by
  have hkept {w : World} (h : After J w₀ l files w) (hF : F) (e : DartError) :
      Removes J F w₀ source sk b l files (.error e) w := by
    refine ⟨[], List.forall_mem_nil _, ?_, h.files ▸ h⟩
    rw [h.files]
    exact .kept hF ⟨List.not_mem_nil, fun _ => List.not_mem_nil, fun _ => List.not_mem_nil⟩
  unfold deleteSource
  apply hD.look h hs
  intro w₁ h₁
  rw [hb]
  simp only [when, Option.isSome_some, if_true]
  -- two looks at the source, which change nothing
  have hstat : (call (.stat source)).wp D (Leads J F w₁ fun _ _ => True) w₁ := by
    apply hD.toAlone.look (by trivial) h₁.keeps
    rintro w₂ o _ _ _ rfl
    exact ⟨_, rfl, fun _ _ => trivial⟩
  apply Leads.seq hstat (fun hF e w₂ hw₂ hc₂ => hkept (h₁.calm hw₂ hc₂) hF e)
  intro _ w₂ hw₂ hc₂ _
  have h₂ := h₁.calm hw₂ hc₂
  have hread : (checkReadable source).wp D (Leads J F w₂ fun _ _ => True) w₂ := by
    unfold checkReadable
    rw [wp_tryCatch, wp_bind]
    refine wp_mono _ ?_ (readAsBytes_wp hD.toAlone h₂.keeps (h₂.resolve hs) (h₂.files ▸ hb))
    rintro (e | a) w₃ hL
    · exact ⟨hL.keeps, hL.calm, by rintro a ⟨⟩, fun _ _ => hL.error e rfl⟩
    · exact ⟨hL.keeps, hL.calm, fun _ _ => trivial, by rintro e ⟨⟩⟩
  apply Leads.seq hread (fun hF e w₃ hw₃ hc₃ => hkept (h₂.calm hw₃ hc₃) hF e)
  intro _ w₃ hw₃ hc₃ _
  have h₃ := h₂.calm hw₃ hc₃
  rw [wp_bind]
  refine wp_mono _ ?_ (hD.delete h₃ hs hb)
  rintro r w₄ ⟨o, he, hF, h₄⟩
  have hl : ∀ a ∈ ([⟨.delete source, o⟩] : List (Sigma Outcome)), OfSource source a.1 := by
    simp only [List.mem_singleton, forall_eq]
    exact .delete
  have hr : ∀ t, ¬ RenamedTo source t [⟨.delete source, o⟩] := by simp [RenamedTo]
  have hinert (ho : o ≠ .done) : Inert source [⟨.delete source, o⟩] := by
    refine ⟨?_, hr, fun f he => ?_⟩
    · simp [Overwrote]
    · obtain ⟨rfl, rfl⟩ : f = source ∧ DeleteOutcome.done = o := by simpa [Erased] using he
      exact ho rfl
  rcases he with ⟨rfl, rfl, hf₄⟩ | ⟨hf₄, ⟨e, rfl, rfl⟩ | ⟨rfl, rfl⟩⟩
  · -- the file is gone, as the verification finds
    dsimp only
    rw [wp_bind]
    refine wp_mono _ ?_ (verifyDeleted_wp hD hs _ _ _ _ h₄)
    rintro _ w₅ ⟨rfl, h₅⟩
    rw [hf₄, Function.update_self]
    refine ⟨_, hl, ?_, h₅.files ▸ h₅⟩
    rw [h₅.files, hf₄]
    exact .gone hr
  -- the deletion throws
  · refine ⟨_, hl, ?_, h₄⟩
    rw [hf₄]
    exact .kept (hF.resolve_left (by rintro ⟨⟩)) (hinert (by rintro ⟨⟩))
  · -- the deletion has returned and the file is there
    dsimp only
    rw [wp_bind]
    rw [hf₄] at h₄
    refine wp_mono _ ?_ (verifyDeleted_wp hD hs _ _ _ _ h₄)
    rintro _ w₅ ⟨rfl, h₅⟩
    rw [hb]
    simp only [Option.isSome_some, if_true]
    refine wp_mono _ ?_ (deleteOtherwise_wp hD (hF.resolve_left (by rintro ⟨⟩)) h₅ hs hd hb)
    rintro r w₆ ⟨l₆, hl₆, hr₆, h₆⟩
    refine ⟨l₆ ++ [⟨.delete source, .keeps⟩], ?_, ?_, ?_⟩
    · exact fun a ha => (List.mem_append.mp ha).elim (hl₆ a) (hl a)
    · exact hr₆.after (hinert (by rintro ⟨⟩))
    · rw [List.append_assoc]
      exact h₆

/-! ## The entry -/

theorem cleanUp_wp (hD : Moves D J F) (h : After J w₀ l files w) {f₁ f₂ : File} {k₁ k₂ : Key}
    (h₁ : w₀.fs.resolve f₁ = some k₁) (h₂ : w₀.fs.resolve f₂ = some k₂) (hne : k₁ ≠ k₂)
    {b₁ b₂ : Bytes} (hb₁ : files k₁ = some b₁) (hb₂ : files k₂ = some b₂) :
    (cleanUp f₁ f₂).wp D (fun r w' => r = .ok () ∧ ∃ l',
      Cleaned f₁ f₂ k₁ k₂ files l' w'.fs.files ∧ After J w₀ (l' ++ l) w'.fs.files w') w := by
  have hf : f₁ ≠ f₂ := by
    rintro rfl
    exact hne (Option.some.inj (h₁.symm.trans h₂))
  -- the second file, after the first has been left with the outcome `o`
  have hsecond {o : DeleteOutcome} {files₁ : Key → Option Bytes} {w₁ : World}
      (h : After J w₀ (⟨.delete f₁, o⟩ :: l) files₁ w₁)
      (ho : (o = .done ∧ files₁ = Function.update files k₁ none) ∨ o ≠ .done ∧ files₁ = files) :
      (do
        let metaThere : Bool ← call (.fileExists f₂)
        when metaThere (call (.delete f₂)) : App Unit).wp D (fun _ w' => ∃ l',
          Cleaned f₁ f₂ k₁ k₂ files l' w'.fs.files ∧ After J w₀ (l' ++ l) w'.fs.files w') w₁ := by
    have hb : files₁ k₂ = some b₂ := by
      rcases ho with ⟨-, rfl⟩ | ⟨-, rfl⟩
      · rw [Function.update_of_ne hne.symm, hb₂]
      · exact hb₂
    apply hD.look h h₂
    intro w₂ h'
    simp only [when, hb, Option.isSome_some, if_true]
    refine wp_mono _ ?_ (hD.delete h' h₂ hb)
    rintro r w₃ ⟨o', he, -, h''⟩
    refine ⟨[⟨.delete f₂, o'⟩, ⟨.delete f₁, o⟩], ?_, h''⟩
    have hcalls : ∀ a ∈ ([⟨.delete f₂, o'⟩, ⟨.delete f₁, o⟩] : List (Sigma Outcome)),
        a.1 = .delete f₁ ∨ a.1 = .delete f₂ := by
      simp
    have herased : Erased f₁ [⟨.delete f₂, o'⟩, ⟨.delete f₁, o⟩] ∨
        Erased f₂ [⟨.delete f₂, o'⟩, ⟨.delete f₁, o⟩] ↔ o = .done ∨ o' = .done := by
      simp [Erased, hf, eq_comm]
    have hothers {files₁ files' : Key → Option Bytes}
        (hf₁ : files₁ = Function.update files k₁ none ∨ files₁ = files)
        (hf₂ : files' = Function.update files₁ k₂ none ∨ files' = files₁) (k : Key)
        (hk₁ : k ≠ k₁) (hk₂ : k ≠ k₂) : files' k = files k := by
      rcases hf₁ with rfl | rfl <;> rcases hf₂ with rfl | rfl <;>
        simp [Function.update_of_ne, hk₁, hk₂]
    rcases he with ⟨rfl, -, he⟩ | ⟨he, ho'⟩
    · -- the second file is gone in any case
      refine ⟨hcalls, hothers (ho.imp And.right And.right) (.inl he), fun _ => .inr ?_, fun hn => ?_⟩
      · rw [he, Function.update_self]
      · exact absurd (herased.mpr (.inr rfl)) hn
    · refine ⟨hcalls, hothers (ho.imp And.right And.right) (.inr he), fun hd => .inl ?_, fun hn => ?_⟩
      · have hdone : o = .done := (herased.mp hd).resolve_right (by
          rcases ho' with ⟨e, rfl, -⟩ | ⟨rfl, -⟩ <;> rintro ⟨⟩)
        rcases ho with ⟨-, hf₁⟩ | ⟨hn, -⟩
        · rw [he, hf₁, Function.update_self]
        · exact absurd hdone hn
      · rcases ho with ⟨hdone, -⟩ | ⟨-, hf₁⟩
        · exact absurd (herased.mpr (.inl hdone)) hn
        · exact he.trans hf₁
  unfold cleanUp
  rw [wp_tryCatch]
  apply hD.look h h₁
  intro w₁ h'
  simp only [when, hb₁, Option.isSome_some, if_true]
  rw [wp_bind]
  refine wp_mono _ ?_ (hD.delete h' h₁ hb₁)
  rintro r w₂ ⟨o, he, -, h''⟩
  rcases he with ⟨rfl, rfl, hf₂⟩ | ⟨hf₂, ⟨e, rfl, rfl⟩ | ⟨rfl, rfl⟩⟩
  · dsimp only
    refine wp_mono _ ?_ (hsecond h'' (.inl ⟨rfl, hf₂⟩))
    rintro (e | a) w₃ hc
    · exact ⟨rfl, hc⟩
    · exact ⟨trivial, hc⟩
  -- the deletion of the first file throws, and the second is left alone
  · refine ⟨rfl, [⟨.delete f₁, .fails e⟩], ⟨?_, ?_, ?_, ?_⟩, h''⟩
    · simp
    · exact fun k _ _ => congrFun hf₂ k
    · simp [Erased]
    · exact fun _ => hf₂
  · dsimp only
    refine wp_mono _ ?_ (hsecond h'' (.inr ⟨by rintro ⟨⟩, hf₂⟩))
    rintro (e | a) w₃ hc
    · exact ⟨rfl, hc⟩
    · exact ⟨trivial, hc⟩

end VaultRepository

end CajaSegura
