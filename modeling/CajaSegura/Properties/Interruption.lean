import CajaSegura.Platform.Sample
import CajaSegura.Services.SoleRules
import CajaSegura.Services.VaultCalls

/-!
# Deletions that are interrupted, and deletions side by side

A deletion removes one file and then another, each if it has been found before. It may throw or die
with the process between any two calls, and other deletions may run beside it.

## Main definitions

* `cleared`: the files without the two of an entry
* `Deleting`: what a discipline grants and asks of a deletion
* `Attempts`: deletions of one entry that throw or are cut short
* `deletions`: the runs of deletions of several entries

## Main results

* `VaultRepository.deleteById_company`: a deletion that returns has removed both files
* `VaultRepository.deletions_agree`: one deletion that returns makes good for those cut short, and
  deletions of different entries lead to the same files in any order
-/

namespace CajaSegura

open Codec Async
open Program hiding bind

variable {P : Platform} {D : Discipline (device P)} {J K : World → Prop} {F : Prop} {id : Text}
  {w w' : World} {k : Key}

/-- The two files of the entry. -/
def HalfOf (P : Platform) (id : Text) (k : Key) : Prop := k = metaKey P id ∨ k = dataKey P id

/-- The files without the two of the entry. -/
def cleared (P : Platform) (files : Key → Option Bytes) (id : Text) : Key → Option Bytes :=
  Function.update (Function.update files (metaKey P id) none) (dataKey P id) none

/-- Entries of different identifiers have no file in common. -/
theorem HalfOf.eq {id' : Text} (h : HalfOf P id k) (h' : HalfOf P id' k) : id = id' := by
  rcases h with rfl | rfl <;> rcases h' with h' | h'
  · exact metaKey_injective h'
  · exact absurd h'.symm (dataKey_ne_metaKey _ _)
  · exact absurd h' (dataKey_ne_metaKey _ _)
  · exact dataKey_injective h'

theorem cleared_of (files : Key → Option Bytes) (h : HalfOf P id k) :
    cleared P files id k = none := by
  unfold cleared
  rcases h with rfl | rfl
  · rw [Function.update_of_ne (dataKey_ne_metaKey _ _).symm, Function.update_self]
  · exact Function.update_self ..

theorem cleared_of_not (files : Key → Option Bytes) (h : ¬ HalfOf P id k) :
    cleared P files id k = files k := by
  obtain ⟨hm, hd⟩ := not_or.mp h
  rw [cleared, Function.update_of_ne hd, Function.update_of_ne hm]

/-- Files that differ from others in the two of the entry only, which are gone. -/
theorem eq_cleared {files files' : Key → Option Bytes}
    (hgone : ∀ k, HalfOf P id k → files' k = none)
    (hsame : ∀ k, ¬ HalfOf P id k → files' k = files k) : files' = cleared P files id := by
  funext k
  by_cases hk : HalfOf P id k
  · rw [hgone k hk, cleared_of files hk]
  · rw [hsame k hk, cleared_of_not files hk]

/-- A deletion of a file leaves the others. -/
theorem files_delete_of_ne {f : File} {k' : Key} (hf : w.fs.resolve f = some k) (hne : k' ≠ k)
    (o : DeleteOutcome) : (w.exec P (.delete f) o).2.fs.files k' = w.fs.files k' := by
  change (w.fs.onDelete f o).2.files k' = w.fs.files k'
  rcases Fs.onDelete_files w.fs f o with hs | ⟨-, k₁, hk₁, hs⟩
  · rw [hs]
  · obtain rfl : k = k₁ := Option.some.inj (hf.symm.trans hk₁)
    rw [hs, Function.update_of_ne hne]

/-! ## A deletion -/

/-- What a discipline grants and asks of a deletion: the others leave the two files alone, and the
program may delete them. -/
structure Deleting (D : Discipline (device P)) (J : World → Prop) (F : Prop) (id : Text) :
    Prop where
  firm : Firm D J F
  lasts : ∀ k, HalfOf P id k → ∀ b, Lasts D J fun w => w.fs.files k = b
  delete : ∀ w f k o, J w → HalfOf P id k → w.fs.resolve f = some k → D.allow w (.delete f) o →
    o ≠ .keeps ∧ D.guarantee w (w.exec P (.delete f) o).2 ∧ J (w.exec P (.delete f) o).2

namespace VaultRepository

/-- Whether a file of the entry is there. -/
theorem fileExists_deleting (hJ : Deleting D J F id) (hw : J w) (hK : Lasts D J K) (hk : K w)
    {f : File} (hkey : HalfOf P id k) (hf : ∀ fs : Fs, fs.resolve f = some k) :
    (call (.fileExists f)).wp D
      (Ends (fun w => J w ∧ K w) F fun b w' => b = (w'.fs.files k).isSome) w := by
  apply (hJ.firm.and hK).look (by trivial) ⟨hw, hk⟩
  · intro b
    refine ⟨fun w₁ w₂ h hb hr => ?_, fun w₁ w₂ h hb hq => ?_⟩
    · rw [(hJ.lasts k hkey _).rely w₁ w₂ h.1 rfl hr]
      exact hb
    · rw [(hJ.lasts k hkey _).quiet w₁ w₂ h.1 rfl hq]
      exact hb
  · rintro w₁ o _ _ rfl
    refine ⟨_, rfl, ?_⟩
    change (w₁.fs.read f).isSome = _
    rw [Fs.read_of_resolve (hf _)]
    rfl

/-- A file that may be there is deleted if it was found. -/
theorem deleteFound_deleting (hJ : Deleting D J F id) (hw : J w) (hK : Lasts D J K) (hk : K w)
    {f : File} (hkey : HalfOf P id k) (hf : ∀ fs : Fs, fs.resolve f = some k)
    (hdel : ∀ w w', (∀ k', k' ≠ k → w'.fs.files k' = w.fs.files k') → w'.fs.files k = none →
      K w → K w') :
    (when (w.fs.files k).isSome (call (.delete f))).wp D
      (fun r w' => J w' ∧ (∀ e, r = .error e → F) ∧
        (r = .ok () → K w' ∧ w'.fs.files k = none)) w := by
  cases hb : w.fs.files k with
  -- the half is not there, and nothing is called
  | none => exact ⟨hw, nofun, fun _ => ⟨hk, hb⟩⟩
  | some b =>
    change (call (.delete f)).wp D _ w
    rw [wp_call]
    intro w₁ h₁ o ho
    have hw₁ := hJ.firm.rely _ _ hw h₁
    have hk₁ := hK.rely _ _ hw hk h₁
    have hb₁ := (hJ.lasts k hkey _).rely _ _ hw hb h₁
    obtain ⟨hkeeps, hg, hw₂⟩ := hJ.delete w₁ f k o hw₁ hkey (hf _) ho
    refine ⟨hg, fun w₃ h₃ _ => ?_⟩
    have hw₃ := hJ.firm.rely _ _ hw₂ h₃
    obtain ⟨-, ⟨-, hr, hfiles⟩ | ⟨-, ⟨e, rfl, hr⟩ | ⟨rfl, -⟩⟩⟩ :=
      Fs.onDelete_of_resolve (hf w₁.fs) hb₁ o
    -- deleted
    · have hgone : (w₁.exec P (.delete f) o).2.fs.files k = none := by
        change (w₁.fs.onDelete f o).2.files k = none
        rw [hfiles, Function.update_self]
      have hk₂ : K (w₁.exec P (.delete f) o).2 := by
        refine hdel w₁ _ (fun k' hne => ?_) hgone hk₁
        change (w₁.fs.onDelete f o).2.files k' = _
        rw [hfiles, Function.update_of_ne hne]
      refine ⟨hw₃, fun e he => ?_, fun _ => ⟨hK.rely _ _ hw₂ hk₂ h₃, ?_⟩⟩
      · cases hr.symm.trans he
      · exact (hJ.lasts k hkey _).rely _ _ hw₂ hgone h₃
    -- refused, which only a discipline with faults allows
    · refine ⟨hw₃, fun e' _ => (hJ.firm.fault _ _ _ ho).resolve_left nofun, fun hok => ?_⟩
      cases hr.symm.trans hok
    · exact absurd rfl hkeeps

/-- A first part that changes no file. -/
theorem then_of_ends {α β : Type} {p : App α} {f : α → App β} {R : α → World → Prop}
    {Q : Except DartError β → World → Prop} (hp : p.wp D (Ends J F R) w)
    (he : F → ∀ e w', J w' → Q (.error e) w')
    (hf : ∀ a w', J w' → R a w' → (f a).wp D Q w') : (p >>= f).wp D Q w := by
  rw [wp_bind]
  refine wp_mono p ?_ hp
  rintro (e | a) w' ⟨hw', hok, herr⟩
  · exact he (herr e rfl) e w' hw'
  · exact hf a w' hw' (hok a rfl)

/-- **A deletion** that returns has removed both files, whatever else goes on. -/
theorem deleteById_company (hJ : Deleting D J F id) (hid : '/' ∉ id) (hw : J w) :
    (deleteById id).wp D (fun r w' => J w' ∧ (∀ e, r = .error e → F ∨ id = []) ∧
      (r = .ok () → ∀ k, HalfOf P id k → w'.fs.files k = none)) w := by
  by_cases hne : id = []
  · subst hne
    exact ⟨hw, fun _ _ => .inr rfl, nofun⟩
  have hempty : id.isEmpty = false := by simpa using hne
  have hfail {e : DartError} {w' : World} (h : F) (hw' : J w') : J w' ∧
      (∀ e', (Except.error e : Except DartError Unit) = .error e' → F ∨ id = []) ∧
      ((Except.error e : Except DartError Unit) = .ok () →
        ∀ k, HalfOf P id k → w'.fs.files k = none) := ⟨hw', fun _ _ => .inl h, nofun⟩
  have hmeta (fs : Fs) := resolve_meta (P := P) fs hid
  have hdata (fs : Fs) := resolve_data (P := P) fs hid
  have htrue : Lasts D J fun _ => True := lasts_const True
  unfold deleteById
  rw [hempty]
  apply then_of_ends (hJ.firm.awaited (fun a => hJ.firm.lasts_found) (ensureVaultDir_firm hJ.firm hw))
    fun h _ _ => hfail h
  rintro _ w₁ hw₁ ⟨rfl, -⟩
  apply then_of_ends (hJ.firm.awaited (fun a => lasts_const _)
    (Ends.pure hw₁ (R := fun a _ => a = metaFileOf (vaultDir P) id) rfl)) fun h _ _ => hfail h
  rintro _ w₂ hw₂ rfl
  apply then_of_ends (hJ.firm.awaited (fun a => lasts_const _)
    (Ends.pure hw₂ (R := fun a _ => a = dataFileOf (vaultDir P) id) rfl)) fun h _ _ => hfail h
  rintro _ w₃ hw₃ rfl
  apply then_of_ends (fileExists_deleting hJ hw₃ htrue trivial (.inl rfl) hmeta)
    fun h _ _ hw => hfail h hw.1
  rintro metaExists w₄ ⟨hw₄, -⟩ hm₄
  -- what was found of the metadata file still holds when the other file has been looked for
  apply then_of_ends (fileExists_deleting hJ hw₄ (hJ.lasts _ (.inl rfl) _) rfl (.inr rfl) hdata)
    fun h _ _ hw => hfail h hw.1
  rintro dataExists w₅ ⟨hw₅, hm₅⟩ hd₅
  rw [← hm₅] at hm₄
  subst hm₄ hd₅
  -- nothing to delete, or the metadata first and then the contents
  split
  · rename_i hnone
    obtain ⟨hm, hd⟩ : w₅.fs.files (metaKey P id) = none ∧ w₅.fs.files (dataKey P id) = none := by
      simpa using hnone
    refine ⟨hw₅, nofun, fun _ k hk => ?_⟩
    rcases hk with rfl | rfl
    · exact hm
    · exact hd
  · rw [wp_bind]
    refine wp_mono _ ?_ (deleteFound_deleting hJ hw₅ (hJ.lasts _ (.inr rfl) _) rfl (.inl rfl)
      hmeta fun w w' hsame _ h => (hsame _ (dataKey_ne_metaKey id id)).trans h)
    rintro (e | u) w₆ ⟨hw₆, herr₆, hok₆⟩
    · exact hfail (herr₆ e rfl) hw₆
    · obtain ⟨hd₆, hm₆⟩ := hok₆ rfl
      dsimp only
      rw [← hd₆]
      refine wp_mono _ ?_ (deleteFound_deleting hJ hw₆ (hJ.lasts _ (.inl rfl) none) hm₆ (.inr rfl)
        hdata fun w w' hsame _ h => (hsame _ (dataKey_ne_metaKey id id).symm).trans h)
      rintro r w₇ ⟨hw₇, herr₇, hok₇⟩
      refine ⟨hw₇, fun e he => .inl (herr₇ e he), fun hr k hk => ?_⟩
      obtain ⟨hm₇, hd₇⟩ := hok₇ hr
      rcases hk with rfl | rfl
      · exact hm₇
      · exact hd₇

/-! ## Deletions that are cut short -/

/-- A call works, or throws and changes no file. -/
def WorksOrThrows (P : Platform) (w : World) (op : Op) (o : Outcome op) : Prop :=
  Good w op o ∨ ∃ e, (w.exec P op o).1 = .error e ∧ (w.exec P op o).2.fs = w.fs

/-- A program that runs alone and whose calls may throw. -/
def throwing (P : Platform) : Discipline (device P) where
  allow := WorksOrThrows P
  deliver := fun _ _ _ => True
  rely := TimePasses
  guarantee := fun _ _ => True

/-- Deletions of the entry that were started one after another, each up to some moment: it threw
there, or the process died. Between them everything but the files may change. -/
inductive Attempts (P : Platform) (id : Text) (w₀ : World) : World → Prop
  | start {w : World} (hfs : w.fs = w₀.fs) : Attempts P id w₀ w
  | attempt {w w₁ w₂ : World} (h : Attempts P id w₀ w)
    (hdel : (deleteById id).Reaches (throwing P) w w₁) (hfs : w₂.fs = w₁.fs) : Attempts P id w₀ w₂

/-- The other files are as in `w₀`. -/
def Spared (P : Platform) (id : Text) (w₀ w : World) : Prop :=
  ∀ k, ¬ HalfOf P id k → w.fs.files k = w₀.fs.files k

theorem deleting_throwing (id : Text) (w₀ : World) :
    Deleting ((throwing P).keeping (Spared P id w₀)) (Spared P id w₀) True id where
  firm := by
    refine ⟨fun w w' h ht => ?_, fun w w' _ ht => ht.calm.dirs, fun w w' h hq => ?_,
      fun _ _ _ _ => .inr trivial⟩
    · obtain ⟨t, rfl⟩ := ht
      exact h
    · have hw' : Spared P id w₀ w' := fun k hk => (congrFun hq.files k).trans (h k hk)
      exact ⟨fun _ => hw', hw'⟩
  lasts k _ b := by
    refine ⟨fun w w' _ hb ht => ?_, fun w w' _ hb hq => (congrFun hq.files k).trans hb⟩
    obtain ⟨t, rfl⟩ := ht
    exact hb
  delete w f k o hw hk hf ho := by
    have hkeeps : o ≠ .keeps := by
      rintro rfl
      rcases ho with ho | ⟨e, he, -⟩
      · cases (ho : _ = _)
      · cases he
    have hw' : Spared P id w₀ (w.exec P (.delete f) o).2 := by
      intro k' hk'
      refine (files_delete_of_ne hf ?_ o).trans (hw k' hk')
      rintro rfl
      exact hk' hk
    exact ⟨hkeeps, fun _ => hw', hw'⟩

/-- Whatever was cut short, the other files are as they were. -/
theorem Attempts.spared {w₀ : World} (hid : '/' ∉ id) (h : Attempts P id w₀ w) :
    Spared P id w₀ w := by
  induction h with
  | start hfs => exact fun k _ => by rw [hfs]
  | @attempt w w₁ w₂ _ hdel hfs ih =>
    have hw₁ : Spared P id w₀ w₁ := by
      refine keeps_reaches (fun w w' ht hw => ?_)
        (deleteById_company (deleting_throwing id w₀) hid ih) hdel ih
      obtain ⟨t, rfl⟩ := ht
      exact hw
    intro k hk
    rw [hfs]
    exact hw₁ k hk

/-- **A deletion that returns makes good for those cut short.** -/
theorem Attempts.deleted {w₀ : World} (hid : '/' ∉ id) (h : Attempts P id w₀ w)
    (hc : (deleteById id).Completes (throwing P) w (.ok ()) w') :
    w'.fs.files = cleared P w₀.fs.files id := by
  have hwp : (deleteById id).wp (throwing P) _ w :=
    wp_weaken (D := (throwing P).keeping (Spared P id w₀)) (deleteById id) (fun _ _ _ h => h)
      (fun _ _ _ h => h) (fun _ _ h => h) (fun _ _ _ => trivial)
      (deleteById_company (deleting_throwing id w₀) hid (h.spared hid))
  obtain ⟨hspared, -, hgone⟩ := wp_completes hwp hc
  exact eq_cleared (hgone rfl) hspared

/-! ## Deletions side by side -/

/-- The thread `i` deletes the entry of the `i`-th identifier. Calls work, and a file is deleted by
one call only. -/
def deletions (P : Platform) (ids : List Text) : System (device P) where
  Action := Unit
  program i _ := match ids[i]? with
    | some id => deleteById id
    | none => return ()
  enabled _ _ := True
  allow := Good
  deliver _ _ _ := True
  crash _ _ := False

variable {ids : List Text}

/-- The files of the entry that the thread `i` deletes. -/
def Mine (P : Platform) (ids : List Text) (i : ℕ) (k : Key) : Prop :=
  ∃ id, ids[i]? = some id ∧ HalfOf P id k

/-- The others leave the files of the thread alone, and it leaves theirs alone. -/
def apart (P : Platform) (ids : List Text) (i : ℕ) : Discipline (device P) where
  allow := Good
  deliver _ _ _ := True
  rely w w' := (∀ k, Mine P ids i k → w'.fs.files k = w.fs.files k) ∧
    ∀ p, w.fs.dirs p = true → w'.fs.dirs p = true
  guarantee w w' := (∀ k, ¬ Mine P ids i k → w'.fs.files k = w.fs.files k) ∧
    ∀ p, w.fs.dirs p = true → w'.fs.dirs p = true

theorem Mine.eq {i j : ℕ} (hnd : ids.Nodup) (h : Mine P ids i k) (h' : Mine P ids j k) : i = j := by
  obtain ⟨id, hi, hk⟩ := h
  obtain ⟨id', hj, hk'⟩ := h'
  obtain rfl := hk.eq hk'
  obtain ⟨hi', rfl⟩ := List.getElem?_eq_some_iff.mp hi
  obtain ⟨hj', he⟩ := List.getElem?_eq_some_iff.mp hj
  exact (hnd.getElem_inj_iff.mp he).symm

theorem deleting_apart {i : ℕ} (hi : ids[i]? = some id) :
    Deleting (apart P ids i) (fun _ => True) False id where
  firm := ⟨fun _ _ _ _ => trivial, fun _ _ _ h => h.2,
    fun _ _ _ hq => ⟨⟨fun k _ => congrFun hq.files k, hq.dirs⟩, trivial⟩, fun _ _ _ h => .inl h⟩
  lasts k hk b := ⟨fun _ _ _ hb hr => (hr.1 k ⟨id, hi, hk⟩).trans hb,
    fun _ _ _ hb hq => (congrFun hq.files k).trans hb⟩
  delete w f k o _ hk hf ho := by
    obtain rfl : o = .done := ho
    refine ⟨nofun, ⟨fun k' hk' => files_delete_of_ne hf ?_ .done, w.dirs_exec _ _⟩, trivial⟩
    rintro rfl
    exact hk' ⟨id, hi, hk⟩

/-- A thread that has ended has removed its files. -/
def Done (P : Platform) (ids : List Text) (i : ℕ) (w : World) : Prop :=
  ∀ k, Mine P ids i k → w.fs.files k = none

theorem sound_deletions (hnd : ids.Nodup) (hids : ∀ id ∈ ids, '/' ∉ id ∧ id ≠ []) (w₀ : World) :
    (deletions P ids).GhostSound (fun i _ => (apart P ids i).ghost) ()
      (fun _ w => ∀ k, (∀ i, ¬ Mine P ids i k) → w.fs.files k = w₀.fs.files k)
      (fun i _ _ => Done P ids i) where
  allow _ _ _ _ _ _ _ h := h
  deliver _ _ _ _ _ _ _ h := h
  rely_refl _ _ _ _ := ⟨fun _ _ => rfl, fun _ h => h⟩
  rely_trans _ _ _ _ _ _ h h' :=
    ⟨fun k hk => (h'.1 k hk).trans (h.1 k hk), fun p hp => h'.2 p (h.2 p hp)⟩
  compat i j _ _ _ _ _ _ hij _ hg :=
    ⟨fun k hk => hg.1 k fun hi => hij (hi.eq hnd hk), hg.2⟩
  inv i _ _ _ _ _ hw hg k hk := (hg.1 k (hk i)).trans (hw k hk)
  start i _ _ w _ _ _ := by
    change (match ids[i]? with
      | some id => deleteById id
      | none => return () : App Unit).gwp _ _ _ _
    rw [gwp_ghost]
    cases hi : ids[i]? with
    | none =>
      rintro k ⟨id, hid, -⟩
      rw [hi] at hid
      cases hid
    | some id =>
      obtain ⟨hslash, hne⟩ := hids id (List.mem_of_getElem? hi)
      refine wp_mono _ ?_ (deleteById_company (deleting_apart hi) hslash trivial)
      rintro (e | u) w' ⟨-, herr, hgone⟩ k ⟨id', hid', hk⟩
      · exact ((herr e rfl).elim (fun h => h) hne).elim
      · rw [hi] at hid'
        cases hid'
        exact hgone rfl k hk
  post _ _ _ _ _ h hr k hk := (hr.1 k hk).trans (h k hk)
  crash _ _ _ _ h := h.elim

/-- Deletions one after another. -/
theorem foldl_cleared (ids : List Text) (files : Key → Option Bytes) (k : Key) :
    ((∃ id ∈ ids, HalfOf P id k) → ids.foldl (cleared P) files k = none) ∧
      ((∀ id ∈ ids, ¬ HalfOf P id k) → ids.foldl (cleared P) files k = files k) := by
  induction ids generalizing files with
  | nil => exact ⟨fun ⟨_, h, _⟩ => (List.not_mem_nil h).elim, fun _ => rfl⟩
  | cons id ids ih =>
    rw [List.foldl_cons]
    obtain ⟨hin, hout⟩ := ih (cleared P files id)
    refine ⟨fun ⟨id', hid', hk⟩ => ?_, fun h => ?_⟩
    · by_cases hk' : ∃ id ∈ ids, HalfOf P id k
      · exact hin hk'
      · rw [hout fun id hid h => hk' ⟨id, hid, h⟩]
        rcases List.mem_cons.mp hid' with rfl | hid'
        · exact cleared_of files hk
        · exact absurd ⟨id', hid', hk⟩ hk'
    · obtain ⟨hk, hks⟩ := List.forall_mem_cons.mp h
      rw [hout hks, cleared_of_not files hk]

/-- The files after deletions of different entries that ran side by side. -/
theorem files_of_deletions (hnd : ids.Nodup) (hids : ∀ id ∈ ids, '/' ∉ id ∧ id ≠ []) {w₀ : World}
    {c : (deletions P ids).Config} (hc : System.Reachable _ w₀ c)
    (hended : ∀ i < ids.length, c.threads i = some ((), .finished)) :
    c.world.fs.files = ids.foldl (cleared P) w₀.fs.files := by
  obtain ⟨gs, hok⟩ := (sound_deletions hnd hids w₀).reachable (fun _ _ => rfl) hc
  funext k
  obtain ⟨hin, hout⟩ := foldl_cleared (P := P) ids w₀.fs.files k
  by_cases hk : ∃ id ∈ ids, HalfOf P id k
  · rw [hin hk]
    obtain ⟨id, hid, hk⟩ := hk
    obtain ⟨i, hi, rfl⟩ := List.mem_iff_getElem.mp hid
    have hdone : Done P ids i c.world := hok.meets i () .finished (hended i hi)
    exact hdone k ⟨_, List.getElem?_eq_getElem hi, hk⟩
  · rw [hout fun id hid h => hk ⟨id, hid, h⟩]
    refine hok.inv k ?_
    rintro i ⟨id, hi, h⟩
    exact hk ⟨id, List.mem_of_getElem? hi, h⟩

/-- **A deletion that was interrupted can be finished**: one that returns leaves the files that a
single uninterrupted one leaves. Deletions of different entries that have ended leave the same files
in any order and however they ran side by side. -/
theorem deletions_agree (P : Platform) :
    (∀ id w₀ w w', '/' ∉ id → Attempts P id w₀ w →
      (deleteById id).Completes (throwing P) w (.ok ()) w' →
        w'.fs.files (metaKey P id) = none ∧ w'.fs.files (dataKey P id) = none ∧
        (∀ k, k ≠ metaKey P id → k ≠ dataKey P id → w'.fs.files k = w₀.fs.files k) ∧
        ∀ w₁, (deleteById id).Completes (throwing P) w₀ (.ok ()) w₁ → w'.fs.files = w₁.fs.files) ∧
    ∀ ids : List Text, ids.Nodup → (∀ id ∈ ids, '/' ∉ id ∧ id ≠ []) → ∀ w₀,
      ∀ c : (deletions P ids).Config, System.Reachable _ w₀ c →
        (∀ i < ids.length, c.threads i = some ((), .finished)) →
          ∀ ids' : List Text, ids'.Perm ids →
            c.world.fs.files = ids'.foldl (cleared P) w₀.fs.files := by
  constructor
  · intro id w₀ w w' hid h hc
    have hfiles := h.deleted hid hc
    refine ⟨?_, ?_, fun k hm hd => ?_, fun w₁ h₁ => ?_⟩
    · rw [hfiles, cleared_of _ (.inl rfl)]
    · rw [hfiles, cleared_of _ (.inr rfl)]
    · rw [hfiles, cleared_of_not _ (not_or.mpr ⟨hm, hd⟩)]
    · rw [hfiles, (Attempts.start rfl).deleted hid h₁]
  · intro ids hnd hids w₀ c hc hended ids' hperm
    rw [files_of_deletions hnd hids hc hended]
    funext k
    obtain ⟨hin, hout⟩ := foldl_cleared (P := P) ids w₀.fs.files k
    obtain ⟨hin', hout'⟩ := foldl_cleared (P := P) ids' w₀.fs.files k
    by_cases hk : ∃ id ∈ ids, HalfOf P id k
    · obtain ⟨id, hid, hk⟩ := hk
      rw [hin ⟨id, hid, hk⟩, hin' ⟨id, hperm.mem_iff.mpr hid, hk⟩]
    · rw [hout fun id hid h => hk ⟨id, hid, h⟩,
        hout' fun id hid h => hk ⟨id, hperm.mem_iff.mp hid, h⟩]

/-- The directory of the vault, without a file. -/
def bare : Fs := (Fs.sample []).create (vaultDir (.sample .marked))

theorem fits_json : bare.dirs (vaultDir (.sample .marked)) = true ∧ Plain "a.json".toList := by
  decide

theorem fits_enc : bare.dirs (vaultDir (.sample .marked)) = true ∧ Plain "b.enc".toList := by
  decide

/-- A vault with the metadata of one entry and the contents of another. -/
def halves : World :=
  { World.sample [] [] with
    fs := (bare.put ⟨vaultDir (.sample .marked), "a.json".toList⟩ [1] fits_json).put
      ⟨vaultDir (.sample .marked), "b.enc".toList⟩ [2] fits_enc }

/-- The world after a deletion without failures. -/
def afterDelete (id : Text) (w : World) : World :=
  ((deleteById id).run (device (.sample .marked)) (fun _ => usual) 0 w).2

theorem completes_afterDelete (id : Text) (w : World) :
    (deleteById id).Completes (throwing (.sample .marked)) w
      ((deleteById id).run (device (.sample .marked)) (fun _ => usual) 0 w).1 (afterDelete id w) :=
  Within.completes_run (D := throwing (.sample .marked)) (S := fun _ => True)
    (fun w _ => ⟨w.now, rfl⟩) (fun _ w _ _ h => .inl (good_usual w h)) (fun _ _ _ _ => trivial)
    (fun _ _ _ _ _ => trivial) (fun _ _ _ _ => trivial)
    (within_deleteById (G := fun _ _ => True) removing_unlisted id) 0 trivial

/-- The two deletions, one after the other. -/
def bothDeleted : (deletions (.sample .marked) [['a'], ['b']]).Config :=
  ((System.Config.idle halves).update 0 () (.finished, afterDelete ['a'] halves)).update 1 ()
    (.finished, afterDelete ['b'] (afterDelete ['a'] halves))

theorem reachable_bothDeleted : System.Reachable _ halves bothDeleted := by
  have hrun {c : (deletions (.sample .marked) [['a'], ['b']]).Config} {i : ℕ} {id : Text}
      (hi : [['a'], ['b']][i]? = some id) (hfree : c.threads i = none) :
      System.Steps _ c (c.update i () (.finished, afterDelete id c.world)) := by
    have hprogram : (deletions (.sample .marked) [['a'], ['b']]).program i () = deleteById id := by
      change (match [['a'], ['b']][i]? with
        | some id => deleteById id
        | none => return () : App Unit) = _
      rw [hi]
    have hwithin := within_deleteById (G := fun _ _ => True) removing_unlisted id
    rw [← hprogram] at hwithin
    have hsteps := System.steps_run (S := deletions (.sample .marked) [['a'], ['b']])
      (T := fun _ => True) (fun _ w _ _ h => good_usual w h) (fun _ _ _ _ _ => trivial)
      (fun _ _ _ _ _ => trivial)
      (fun _ _ _ _ => trivial) hwithin hfree trivial trivial
    rw [hprogram] at hsteps
    exact hsteps
  exact (hrun (i := 0) rfl rfl).trans (hrun (i := 1) rfl rfl)

/-- An entry is deleted twice, and two entries are deleted in the other order. -/
theorem deletions_agree_halves :
    (afterDelete ['a'] (afterDelete ['a'] halves)).fs.files (metaKey (.sample .marked) ['a']) = none ∧
      bothDeleted.world.fs.files =
        [['b'], ['a']].foldl (cleared (.sample .marked)) halves.fs.files := by
  constructor
  · have hfirst := (completes_afterDelete ['a'] halves).reaches
    exact ((deletions_agree (.sample .marked)).1 ['a'] halves _ _ (by decide)
      (.attempt (.start rfl) hfirst rfl) (completes_afterDelete ['a'] _)).1
  · refine (deletions_agree (.sample .marked)).2 [['a'], ['b']] (by decide) (by decide) halves _
      reachable_bothDeleted ?_ [['b'], ['a']] (List.Perm.swap _ _ _)
    intro i hi
    match i, hi with
    | 0, _ => rfl
    | 1, _ => rfl

end VaultRepository

end CajaSegura
