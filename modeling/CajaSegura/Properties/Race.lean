import CajaSegura.Platform.Sample
import CajaSegura.Services.AuthService
import CajaSegura.Services.CompanyRules
import CajaSegura.Services.MoveRules
import CajaSegura.Services.VaultCalls

/-!
# Imports of one file that race

Any number of imports move the same file. Whoever deletes it has stored it before, and keeps what it
has stored; the others find the file gone and erase their own copies, or have nothing left to do and
keep them.

## Main definitions

* `race`: the runs of imports that move one file
* `Raced`: what such a run has left when every call has ended
* `Share`: the ghost state of an import, which says what is its own
* `Racing`: the invariant

## Main results

* `race_ends`: the file is neither lost nor leaked
-/

namespace CajaSegura

open Codec Async
open Program hiding bind

/-! ## The runs -/

/-- An import of the source, or the clock moves. -/
inductive RaceAction
  | importFile (mimeType : Text) (kek : Ref)
  | tick (now : Instant)

def RaceAction.program (P : Platform) (source : File) (self : ℕ) : RaceAction → App Unit
  | .importFile mimeType kek => reporting self do
      return [← VaultRepository.importFile P source mimeType kek true]
  | .tick now => Program.modify (AuthService.clocked now)

/-- Keys are valid, and callers pass a type. -/
def RaceAction.Enabled (P : Platform) (w : World) : RaceAction → Prop
  | .importFile mimeType kek => (w.heap kek).length = 32 ∧ (P.asserts = true → mimeType ≠ [])
  | .tick _ => True

/-- Imports that move one file, on a file system that does what it is asked. -/
def race (P : Platform) (source : File) : System (device P) where
  Action := RaceAction
  program := RaceAction.program P source
  enabled := RaceAction.Enabled P
  allow := Good
  deliver _ _ _ := True
  crash _ _ := False

/-- What a run of imports has left when every call has ended. `called i r` says that the thread `i`
is a call under the key in the buffer `r`. -/
structure Raced (P : Platform) (sk : Key) (b : Bytes) (w₀ : World) (called : ℕ → Ref → Prop)
    (w : World) : Prop where
  /-- Every call has ended in one way. -/
  reported : ∀ i r, called i r → ∃ x, (∀ y, (i, y) ∈ w.record.results ↔ y = x) ∧
    ((∃ m, x = .ok [m]) ∨ ∃ e, x = .error e)
  /-- A call that has returned has stored the contents under an identifier of its own. -/
  stored : ∀ i r m, called i r → (i, .ok [m]) ∈ w.record.results →
    w₀.fs.files (dataKey P m.id) = none ∧ w₀.fs.files (metaKey P m.id) = none ∧
      Holds P (w₀.heap r) w₀.zone w.fs.files m.id b
  own : ∀ i j m m', (i, .ok [m]) ∈ w.record.results → (j, .ok [m']) ∈ w.record.results →
    m.id = m'.id → i = j
  /-- No other file was added, changed or removed. -/
  others : ∀ k, k ≠ sk → w.fs.files k ≠ w₀.fs.files k →
    ∃ i m, (i, .ok [m]) ∈ w.record.results ∧ (k = dataKey P m.id ∨ k = metaKey P m.id)
  /-- Some call has returned. -/
  kept : (∃ i r, called i r) → ∃ i m, (i, .ok [m]) ∈ w.record.results

/-! ## What is whose -/

/-- What an import has made: its identifier, the contents of its two files, whether it has deleted
the source, and whether it has ended. -/
structure Share where
  own : Option ℕ
  data : Option Bytes
  text : Option Bytes
  won : Bool
  ended : Bool

def Share.idle : Share := ⟨none, none, none, false, false⟩

/-- What the other imports may do. -/
structure Leaves (P : Platform) (sk : Key) (i : ℕ) (γ : Share) (w w' : World) : Prop
    extends Stays w w' where
  dirs : ∀ p, w.fs.dirs p = true → w'.fs.dirs p = true
  uuids : w.uuids ≤ w'.uuids
  source : w'.fs.files sk = w.fs.files sk ∨ w'.fs.files sk = none
  data : ∀ n, γ.own = some n →
    w'.fs.files (dataKey P (P.uuid n)) = w.fs.files (dataKey P (P.uuid n))
  text : ∀ n, γ.own = some n →
    w'.fs.files (metaKey P (P.uuid n)) = w.fs.files (metaKey P (P.uuid n))
  results : ∀ r, (i, r) ∈ w'.record.results ↔ (i, r) ∈ w.record.results

/-- What a step of an import may do. -/
structure Makes (P : Platform) (sk : Key) (i : ℕ) (γ γ' : Share) (w w' : World) : Prop
    extends Stays w w' where
  dirs : ∀ p, w.fs.dirs p = true → w'.fs.dirs p = true
  own : γ'.own = γ.own ∧ w'.uuids = w.uuids ∨
    γ.own = none ∧ γ'.own = some w.uuids ∧ w'.uuids = w.uuids + 1
  source : w'.fs.files sk = w.fs.files sk ∧ γ'.won = γ.won ∨
    w'.fs.files sk = none ∧ γ'.won = true
  data : (γ'.data = γ.data ∧ ∀ n, γ'.own = some n →
      w'.fs.files (dataKey P (P.uuid n)) = w.fs.files (dataKey P (P.uuid n))) ∨
    ∃ n, γ'.own = some n ∧ w'.fs.files (dataKey P (P.uuid n)) = γ'.data
  text : (γ'.text = γ.text ∧ ∀ n, γ'.own = some n →
      w'.fs.files (metaKey P (P.uuid n)) = w.fs.files (metaKey P (P.uuid n))) ∨
    ∃ n, γ'.own = some n ∧ w'.fs.files (metaKey P (P.uuid n)) = γ'.text
  others : ∀ k, k ≠ sk → (∀ n, γ'.own = some n → k ≠ dataKey P (P.uuid n) ∧
    k ≠ metaKey P (P.uuid n)) → w'.fs.files k = w.fs.files k
  results : w'.record.results = w.record.results ∧ γ'.ended = γ.ended ∨
    ∃ r, w'.record.results = (i, r) :: w.record.results ∧ γ'.ended = true

def racing (P : Platform) (sk : Key) (i : ℕ) : GhostDiscipline (device P) Share where
  allow := Good
  deliver _ _ _ := True
  rely := Leaves P sk i
  guarantee := Makes P sk i

/-- The invariant of the imports together. -/
structure Racing (P : Platform) (sk : Key) (b : Bytes) (w₀ : World) (gs : ℕ → Share) (w : World) :
    Prop extends Stays w₀ w where
  dirs : ∀ p, w₀.fs.dirs p = true → w.fs.dirs p = true
  uuids : w₀.uuids ≤ w.uuids
  unowned : ∀ i, (gs i).own = none → (gs i).data = none ∧ (gs i).text = none
  drawn : ∀ i n, (gs i).own = some n → w₀.uuids ≤ n ∧ n < w.uuids
  data : ∀ i n, (gs i).own = some n → w.fs.files (dataKey P (P.uuid n)) = (gs i).data
  text : ∀ i n, (gs i).own = some n → w.fs.files (metaKey P (P.uuid n)) = (gs i).text
  distinct : ∀ i j n, (gs i).own = some n → (gs j).own = some n → i = j
  others : ∀ k, k ≠ sk → (∀ i n, (gs i).own = some n → k ≠ dataKey P (P.uuid n) ∧
    k ≠ metaKey P (P.uuid n)) → w.fs.files k = w₀.fs.files k
  source : w.fs.files sk = some b ∧ (∀ i, (gs i).won = false) ∨
    w.fs.files sk = none ∧ ∃ i, (gs i).won = true
  results : ∀ i r, (i, r) ∈ w.record.results → (gs i).ended = true

/-- The identifiers that will be drawn name no file. -/
def FreshFrom (P : Platform) (w : World) : Prop := ∀ n, w.uuids ≤ n →
  w.fs.files (dataKey P (P.uuid n)) = none ∧ w.fs.files (metaKey P (P.uuid n)) = none

section Together

variable {P : Platform} {sk : Key} {b : Bytes} {w₀ w w' : World} {gs : ℕ → Share} {γ' : Share}
  {i j n : ℕ}

/-- The source is no file of an entry to come. -/
theorem FreshFrom.ne_source (hfresh : FreshFrom P w₀) (hb : w₀.fs.files sk = some b)
    (hn : w₀.uuids ≤ n) : dataKey P (P.uuid n) ≠ sk ∧ metaKey P (P.uuid n) ≠ sk := by
  obtain ⟨hd, hm⟩ := hfresh n hn
  refine ⟨?_, ?_⟩
  · rintro rfl
    cases hd.symm.trans hb
  · rintro rfl
    cases hm.symm.trans hb

/-- Nobody has drawn an identifier twice. -/
theorem Racing.ne_own (h : Racing P sk b w₀ gs w) (hg : Makes P sk i (gs i) γ' w w')
    (hij : i ≠ j) (hj : (gs j).own = some n) {n' : ℕ} (hi : γ'.own = some n') : n ≠ n' := by
  rintro rfl
  rcases hg.own with ⟨hown, -⟩ | ⟨-, hown, -⟩
  · exact hij (h.distinct i j n (hown ▸ hi) hj)
  · obtain rfl : w.uuids = n := Option.some.inj (hown.symm.trans hi)
    exact absurd (h.drawn j _ hj).2 (lt_irrefl _)

/-- What one import makes the others may leave. -/
theorem Racing.compat (hfresh : FreshFrom P w₀) (hb : w₀.fs.files sk = some b)
    (h : Racing P sk b w₀ gs w) (hg : Makes P sk i (gs i) γ' w w') (hij : i ≠ j) :
    Leaves P sk j (gs j) w w' where
  toStays := hg.toStays
  dirs := hg.dirs
  uuids := by
    rcases hg.own with ⟨-, hu⟩ | ⟨-, -, hu⟩ <;> omega
  source := hg.source.imp And.left And.left
  data n hn := by
    have hne := (hfresh.ne_source hb (h.drawn j n hn).1).1
    refine hg.others _ hne fun n' hn' => ⟨fun he => ?_, dataKey_ne_metaKey _ _⟩
    exact h.ne_own hg hij hn hn' (P.uuid_injective (dataKey_injective he))
  text n hn := by
    have hne := (hfresh.ne_source hb (h.drawn j n hn).1).2
    refine hg.others _ hne fun n' hn' => ⟨(dataKey_ne_metaKey _ _).symm, fun he => ?_⟩
    exact h.ne_own hg hij hn hn' (P.uuid_injective (metaKey_injective he))
  results r := by
    rcases hg.results with ⟨hr, -⟩ | ⟨x, hr, -⟩
    · rw [hr]
    · rw [hr, List.mem_cons, or_iff_right]
      intro he
      exact hij (congrArg Prod.fst he).symm

/-- Whoever owns an identifier after a step owned it before or has drawn it now. -/
theorem Racing.drawn_makes (h : Racing P sk b w₀ gs w) (hg : Makes P sk i (gs i) γ' w w')
    (hn : γ'.own = some n) : w₀.uuids ≤ n ∧ n < w'.uuids := by
  rcases hg.own with ⟨hown, hu⟩ | ⟨-, hown, hu⟩
  · have hn' := h.drawn i n (hown ▸ hn)
    omega
  · obtain rfl : w.uuids = n := Option.some.inj (hown.symm.trans hn)
    have hu₀ := h.uuids
    omega

/-- The files under an identifier that is drawn now are not there, as its owner has it. -/
theorem Racing.files_drawn (hfresh : FreshFrom P w₀) (hb : w₀.fs.files sk = some b)
    (h : Racing P sk b w₀ gs w) (hg : Makes P sk i (gs i) γ' w w') (hn : γ'.own = some n)
    (hnew : (gs i).own ≠ some n) : w.fs.files (dataKey P (P.uuid n)) = (gs i).data ∧
      w.fs.files (metaKey P (P.uuid n)) = (gs i).text := by
  rcases hg.own with ⟨hown, -⟩ | ⟨hnone, hown, -⟩
  · exact absurd (hown ▸ hn) hnew
  obtain rfl : w.uuids = n := Option.some.inj (hown.symm.trans hn)
  have hf := hfresh w.uuids h.uuids
  have hne := hfresh.ne_source hb h.uuids
  have hunowned (j m : ℕ) (hj : (gs j).own = some m) : P.uuid w.uuids ≠ P.uuid m := by
    intro he
    exact absurd (P.uuid_injective he ▸ (h.drawn j m hj).2) (lt_irrefl _)
  rw [(h.unowned i hnone).1, (h.unowned i hnone).2]
  constructor
  · rw [h.others _ hne.1 fun j m hj => ⟨fun he => hunowned j m hj (dataKey_injective he),
      dataKey_ne_metaKey _ _⟩, hf.1]
  · rw [h.others _ hne.2 fun j m hj => ⟨(dataKey_ne_metaKey _ _).symm,
      fun he => hunowned j m hj (metaKey_injective he)⟩, hf.2]

/-- One file of every entry, of which `held` says what is in it, after a step. -/
theorem held_update {key : ℕ → Key} {held : Share → Option Bytes}
    (hmakes : (held γ' = held (gs i) ∧ ∀ n, γ'.own = some n →
        w'.fs.files (key n) = w.fs.files (key n)) ∨
      ∃ n, γ'.own = some n ∧ w'.fs.files (key n) = held γ')
    (hheld : ∀ j n, (gs j).own = some n → w.fs.files (key n) = held (gs j))
    (hdrawn : ∀ n, γ'.own = some n → (gs i).own ≠ some n → w.fs.files (key n) = held (gs i))
    (hleaves : ∀ j, j ≠ i → ∀ n, (gs j).own = some n →
      w'.fs.files (key n) = w.fs.files (key n)) :
    ∀ j n, (Function.update gs i γ' j).own = some n →
      w'.fs.files (key n) = held (Function.update gs i γ' j) := by
  refine (Function.forall_update_iff gs fun _ γ => ∀ n, γ.own = some n →
    w'.fs.files (key n) = held γ).mpr ⟨fun n hn => ?_, fun j hij n hn => ?_⟩
  · rcases hmakes with ⟨he, hf⟩ | ⟨n', hn', hf⟩
    · rw [hf n hn, he]
      by_cases hold : (gs i).own = some n
      · exact hheld i n hold
      · exact hdrawn n hn hold
    · obtain rfl : n' = n := Option.some.inj (hn'.symm.trans hn)
      exact hf
  · rw [hleaves j hij n hn, hheld j n hn]

/-- An import without an identifier has no files. -/
theorem Racing.unowned_makes (h : Racing P sk b w₀ gs w) (hg : Makes P sk i (gs i) γ' w w')
    (hnone : γ'.own = none) : γ'.data = none ∧ γ'.text = none := by
  have hown : (gs i).own = none := by
    rcases hg.own with ⟨hown, -⟩ | ⟨-, hown, -⟩
    · exact hown ▸ hnone
    · cases hown.symm.trans hnone
  obtain ⟨hd, ht⟩ := h.unowned i hown
  constructor
  · rcases hg.data with ⟨he, -⟩ | ⟨n, hn, -⟩
    · exact he.trans hd
    · cases hn.symm.trans hnone
  · rcases hg.text with ⟨he, -⟩ | ⟨n, hn, -⟩
    · exact he.trans ht
    · cases hn.symm.trans hnone

/-- The source is there as long as nobody has deleted it. -/
theorem Racing.source_makes (h : Racing P sk b w₀ gs w) (hg : Makes P sk i (gs i) γ' w w') :
    w'.fs.files sk = some b ∧ (∀ j, (Function.update gs i γ' j).won = false) ∨
      w'.fs.files sk = none ∧ ∃ j, (Function.update gs i γ' j).won = true := by
  rcases hg.source with ⟨hs, hwon⟩ | ⟨hs, hwon⟩
  · -- nobody has won by this step, so that the same have won as before
    have hsame (j : ℕ) : (Function.update gs i γ' j).won = (gs j).won := by
      by_cases hij : j = i
      · rw [hij, Function.update_self, hwon]
      · rw [Function.update_of_ne hij]
    simp only [hs, hsame]
    exact h.source
  · exact .inr ⟨hs, i, by rw [Function.update_self, hwon]⟩

theorem Racing.inv (hfresh : FreshFrom P w₀) (hb : w₀.fs.files sk = some b)
    (h : Racing P sk b w₀ gs w) (hg : Makes P sk i (gs i) γ' w w') :
    Racing P sk b w₀ (Function.update gs i γ') w' := by
  have hother {j : ℕ} (hij : j ≠ i) := h.compat hfresh hb hg (Ne.symm hij)
  have hsame {j : ℕ} (hij : j ≠ i) : Function.update gs i γ' j = gs j :=
    Function.update_of_ne hij ..
  have hself : Function.update gs i γ' i = γ' := Function.update_self ..
  constructor
  case toStays => exact ⟨hg.heap.trans h.heap, hg.zone.trans h.zone⟩
  case dirs => exact fun p hp => hg.dirs p (h.dirs p hp)
  case uuids =>
    have hu := h.uuids
    rcases hg.own with ⟨-, hu'⟩ | ⟨-, -, hu'⟩ <;> omega
  case unowned =>
    refine (Function.forall_update_iff gs fun _ γ => γ.own = none →
      γ.data = none ∧ γ.text = none).mpr ⟨h.unowned_makes hg, fun j _ => h.unowned j⟩
  case drawn =>
    refine (Function.forall_update_iff gs fun _ γ => ∀ n, γ.own = some n →
      w₀.uuids ≤ n ∧ n < w'.uuids).mpr ⟨fun n hn => h.drawn_makes hg hn, fun j hij n hn => ?_⟩
    exact ⟨(h.drawn j n hn).1, (h.drawn j n hn).2.trans_le (hother hij).uuids⟩
  case data =>
    exact held_update hg.data h.data (fun n hn hnew => (h.files_drawn hfresh hb hg hn hnew).1)
      fun j hij => (hother hij).data
  case text =>
    exact held_update hg.text h.text (fun n hn hnew => (h.files_drawn hfresh hb hg hn hnew).2)
      fun j hij => (hother hij).text
  case distinct =>
    intro j k n hj hk
    by_cases hij : j = i
    · by_cases hik : k = i
      · exact hij.trans hik.symm
      · subst hij
        rw [hself] at hj
        rw [hsame hik] at hk
        exact absurd rfl (h.ne_own hg (Ne.symm hik) hk hj)
    · by_cases hik : k = i
      · subst hik
        rw [hself] at hk
        rw [hsame hij] at hj
        exact absurd rfl (h.ne_own hg (Ne.symm hij) hj hk)
      · rw [hsame hij] at hj
        rw [hsame hik] at hk
        exact h.distinct j k n hj hk
  -- a file that belongs to nobody now belonged to nobody before
  case others =>
    intro k hk hothers
    have hi := hothers i
    rw [hself] at hi
    rw [hg.others k hk hi]
    refine h.others k hk fun j n hn => ?_
    by_cases hij : j = i
    · subst hij
      rcases hg.own with ⟨hown, -⟩ | ⟨hown, -⟩
      · exact hi n (hown.trans hn)
      · cases hown.symm.trans hn
    · exact hothers j n (by rwa [hsame hij])
  case source => exact h.source_makes hg
  -- only the thread that has stepped can have recorded its end
  case results =>
    intro j r hr
    by_cases hij : j = i
    · subst hij
      rw [hself]
      rcases hg.results with ⟨he, hended⟩ | ⟨x, -, hended⟩
      · rw [hended]
        exact h.results j r (he ▸ hr)
      · exact hended
    · rw [hsame hij]
      exact h.results j r (((hother hij).results r).mp hr)

end Together

/-! ## One import -/

/-- What an import knows of the others. -/
structure Entering (sk : Key) (b : Bytes) (i : ℕ) (w₀ w : World) : Prop extends Stays w₀ w where
  dirs : ∀ p, w₀.fs.dirs p = true → w.fs.dirs p = true
  uuids : w₀.uuids ≤ w.uuids
  source : w.fs.files sk = some b ∨ w.fs.files sk = none
  results : ∀ r, (i, r) ∉ w.record.results

/-- What it knows of its own files, once it has drawn its identifier. -/
structure Owning (P : Platform) (sk : Key) (b : Bytes) (i n : ℕ) (w₀ : World) (γ : Share)
    (w : World) : Prop extends Entering sk b i w₀ w where
  data : w.fs.files (dataKey P (P.uuid n)) = γ.data
  text : w.fs.files (metaKey P (P.uuid n)) = γ.text

section Alone

variable {P : Platform} {sk : Key} {b : Bytes} {w₀ w w' : World} {γ : Share} {i n : ℕ}

theorem makes_quiet (hq : w.Quiet w') : Makes P sk i γ γ w w' where
  heap := hq.heap
  zone := hq.zone
  dirs := hq.dirs
  own := .inl ⟨rfl, hq.uuids⟩
  source := .inl ⟨congrFun hq.files sk, rfl⟩
  data := .inl ⟨rfl, fun _ _ => congrFun hq.files _⟩
  text := .inl ⟨rfl, fun _ _ => congrFun hq.files _⟩
  others k _ _ := congrFun hq.files k
  results := .inl ⟨hq.results, rfl⟩

theorem Entering.leaves (h : Entering sk b i w₀ w) (hl : Leaves P sk i γ w w') :
    Entering sk b i w₀ w' where
  heap := hl.heap.trans h.heap
  zone := hl.zone.trans h.zone
  dirs p hp := hl.dirs p (h.dirs p hp)
  uuids := h.uuids.trans hl.uuids
  source := by
    rcases hl.source with hs | hs
    · exact hs ▸ h.source
    · exact .inr hs
  results r hr := h.results r ((hl.results r).mp hr)

/-- What a step of the import leaves of this. -/
theorem Entering.makes {γ' : Share} (h : Entering sk b i w₀ w) (hg : Makes P sk i γ γ' w w')
    (hended : γ'.ended = false) : Entering sk b i w₀ w' where
  heap := hg.heap.trans h.heap
  zone := hg.zone.trans h.zone
  dirs p hp := hg.dirs p (h.dirs p hp)
  uuids := by
    have hu := h.uuids
    rcases hg.own with ⟨-, hu'⟩ | ⟨-, -, hu'⟩ <;> omega
  source := by
    rcases hg.source with ⟨hs, -⟩ | ⟨hs, -⟩
    · exact hs ▸ h.source
    · exact .inr hs
  results r hr := by
    rcases hg.results with ⟨he, -⟩ | ⟨x, -, he⟩
    · exact h.results r (he ▸ hr)
    · exact absurd (hended.symm.trans he) nofun

theorem Entering.firm (hended : γ.ended = false) :
    Firm ((racing P sk i).fixed γ) (Entering sk b i w₀) False where
  rely _ _ h hl := h.leaves hl
  dirs _ _ _ hl := hl.dirs
  quiet w w' h hq := by
    have hg : Makes P sk i γ γ w w' := makes_quiet hq
    exact ⟨hg, h.makes hg hended⟩
  fault _ _ _ := .inl

theorem Owning.leaves (hn : γ.own = some n) (h : Owning P sk b i n w₀ γ w)
    (hl : Leaves P sk i γ w w') : Owning P sk b i n w₀ γ w' :=
  ⟨h.toEntering.leaves hl, (hl.data n hn).trans h.data, (hl.text n hn).trans h.text⟩

/-- A step of the import is known to it. -/
theorem Owning.makes {γ' : Share} (hn : γ'.own = some n) (h : Owning P sk b i n w₀ γ w)
    (hg : Makes P sk i γ γ' w w') (hended : γ'.ended = false) : Owning P sk b i n w₀ γ' w' where
  toEntering := h.toEntering.makes hg hended
  data := by
    rcases hg.data with ⟨hd, hsame⟩ | ⟨m, hm, hd⟩
    · rw [hsame n hn, h.data, hd]
    · obtain rfl : m = n := Option.some.inj (hm.symm.trans hn)
      exact hd
  text := by
    rcases hg.text with ⟨ht, hsame⟩ | ⟨m, hm, ht⟩
    · rw [hsame n hn, h.text, ht]
    · obtain rfl : m = n := Option.some.inj (hm.symm.trans hn)
      exact ht

theorem Owning.firm (hn : γ.own = some n) (hended : γ.ended = false) :
    Firm ((racing P sk i).fixed γ) (Owning P sk b i n w₀ γ) False where
  rely _ _ h hl := h.leaves hn hl
  dirs _ _ _ hl := hl.dirs
  quiet _ _ h hq := ⟨makes_quiet hq, h.makes hn (makes_quiet hq) hended⟩
  fault _ _ _ := .inl

/-- A source that is gone does not come back. -/
theorem gone_leaves (h : w.fs.files sk = none) (hl : Leaves P sk i γ w w') :
    w'.fs.files sk = none := by
  rcases hl.source with hs | hs
  · exact hs.trans h
  · exact hs

theorem lasts_gone {J : World → Prop} : Lasts ((racing P sk i).fixed γ) J
    fun w => w.fs.files sk = none where
  rely _ _ _ hn hl := gone_leaves hn hl
  quiet _ _ _ hn hq := (congrFun hq.files sk).trans hn

/-! ### Its changes of files -/

variable {as : List (Sigma Outcome)} {x : Option Bytes} (hd : w'.fs.dirs = w.fs.dirs)
  (hw' : w' = w.refile w'.fs as)

include hd hw'

theorem makes_refile {γ' : Share} (hown : γ'.own = γ.own) (hended : γ'.ended = γ.ended)
    (hsource : w'.fs.files sk = w.fs.files sk ∧ γ'.won = γ.won ∨
      w'.fs.files sk = none ∧ γ'.won = true)
    (hdata : (γ'.data = γ.data ∧ ∀ n, γ.own = some n →
        w'.fs.files (dataKey P (P.uuid n)) = w.fs.files (dataKey P (P.uuid n))) ∨
      ∃ n, γ.own = some n ∧ w'.fs.files (dataKey P (P.uuid n)) = γ'.data)
    (htext : (γ'.text = γ.text ∧ ∀ n, γ.own = some n →
        w'.fs.files (metaKey P (P.uuid n)) = w.fs.files (metaKey P (P.uuid n))) ∨
      ∃ n, γ.own = some n ∧ w'.fs.files (metaKey P (P.uuid n)) = γ'.text)
    (hothers : ∀ k, k ≠ sk → (∀ n, γ.own = some n → k ≠ dataKey P (P.uuid n) ∧
      k ≠ metaKey P (P.uuid n)) → w'.fs.files k = w.fs.files k) : Makes P sk i γ γ' w w' := by
  have hsame : w'.heap = w.heap ∧ w'.zone = w.zone ∧ w'.uuids = w.uuids ∧
      w'.record.results = w.record.results := by
    rw [hw']
    exact ⟨rfl, rfl, rfl, rfl⟩
  exact ⟨⟨hsame.1, hsame.2.1⟩, fun p hp => hd ▸ hp, .inl ⟨hown, hsame.2.2.1⟩, hsource,
    hown ▸ hdata, hown ▸ htext, hown ▸ hothers, .inl ⟨hsame.2.2.2, hended⟩⟩

/-- The contents of its entry are written or removed. -/
theorem makes_data (hn : γ.own = some n) (hne : dataKey P (P.uuid n) ≠ sk)
    (hf : w'.fs.files = Function.update w.fs.files (dataKey P (P.uuid n)) x) :
    Makes P sk i γ { γ with data := x } w w' := by
  refine makes_refile hd hw' rfl rfl ?_ ?_ ?_ ?_
  · exact .inl ⟨by rw [hf, Function.update_of_ne hne.symm], rfl⟩
  · exact .inr ⟨n, hn, by rw [hf, Function.update_self]⟩
  · exact .inl ⟨rfl, fun m _ => by rw [hf, Function.update_of_ne (dataKey_ne_metaKey _ _).symm]⟩
  · exact fun k _ hk => by rw [hf, Function.update_of_ne (hk n hn).1]

/-- Its metadata are written or removed. -/
theorem makes_text (hn : γ.own = some n) (hne : metaKey P (P.uuid n) ≠ sk)
    (hf : w'.fs.files = Function.update w.fs.files (metaKey P (P.uuid n)) x) :
    Makes P sk i γ { γ with text := x } w w' := by
  refine makes_refile hd hw' rfl rfl ?_ ?_ ?_ ?_
  · exact .inl ⟨by rw [hf, Function.update_of_ne hne.symm], rfl⟩
  · exact .inl ⟨rfl, fun m _ => by rw [hf, Function.update_of_ne (dataKey_ne_metaKey _ _)]⟩
  · exact .inr ⟨n, hn, by rw [hf, Function.update_self]⟩
  · exact fun k _ hk => by rw [hf, Function.update_of_ne (hk n hn).2]

/-- The source is deleted. -/
theorem makes_source (hne : ∀ n, γ.own = some n → dataKey P (P.uuid n) ≠ sk ∧
    metaKey P (P.uuid n) ≠ sk) (hf : w'.fs.files = Function.update w.fs.files sk none) :
    Makes P sk i γ { γ with won := true } w w' := by
  refine makes_refile hd hw' rfl rfl ?_ ?_ ?_ ?_
  · exact .inr ⟨by rw [hf, Function.update_self], rfl⟩
  · exact .inl ⟨rfl, fun m hm => by rw [hf, Function.update_of_ne (hne m hm).1]⟩
  · exact .inl ⟨rfl, fun m hm => by rw [hf, Function.update_of_ne (hne m hm).2]⟩
  · exact fun k hk _ => by rw [hf, Function.update_of_ne hk]

/-- Nothing was there to be deleted. -/
theorem makes_same (hf : w'.fs.files = w.fs.files) : Makes P sk i γ γ w w' := by
  refine makes_refile hd hw' rfl rfl ?_ ?_ ?_ ?_
  · exact .inl ⟨congrFun hf _, rfl⟩
  · exact .inl ⟨rfl, fun m _ => congrFun hf _⟩
  · exact .inl ⟨rfl, fun m _ => congrFun hf _⟩
  · exact fun k _ _ => congrFun hf k

end Alone

/-! ## The removal of the source -/

namespace VaultRepository

section Removing

variable {P : Platform} {source : File} {sk : Key} {b : Bytes} {w₀ w : World} {γ : Share}
  {i n : ℕ} (hs : w₀.fs.resolve source = some sk)

include hs

theorem Entering.reads (h : Entering sk b i w₀ w) : w.fs.read source = w.fs.files sk :=
  Fs.read_of_resolve (Fs.resolve_mono h.dirs hs)

/-- A look for the source that does not find it is right for ever. -/
theorem lookFor_race {J : World → Prop} (hJ : Firm ((racing P sk i).fixed γ) J False)
    (henter : ∀ w, J w → Entering sk b i w₀ w) (hw : J w) :
    (call (.fileExists source)).wp ((racing P sk i).fixed γ)
      (Ends J False fun there w' => there = false → w'.fs.files sk = none) w := by
  refine hJ.look (by trivial) hw (fun there => ?_) ?_
  · exact ⟨fun _ _ _ h hl ht => gone_leaves (h ht) hl,
      fun _ _ _ h hq ht => (congrFun hq.files sk).trans (h ht)⟩
  · rintro w₁ o hw₁ _ rfl
    refine ⟨_, rfl, fun hthere => ?_⟩
    have hnone : w₁.fs.read source = none := by simpa using hthere
    exact (Entering.reads hs (henter w₁ hw₁)).symm.trans hnone

/-- Once it is gone, the source is not found again. -/
theorem verifyDeleted_race {J : World → Prop} (hJ : Firm ((racing P sk i).fixed γ) J False)
    (henter : ∀ w, J w → Entering sk b i w₀ w) (hw : J w ∧ w.fs.files sk = none) :
    (verifyDeleted source false [1, 2, 3]).wp ((racing P sk i).fixed γ)
      (Ends (fun w => J w ∧ w.fs.files sk = none) False fun x _ => x = false) w := by
  have hgone := hJ.and lasts_gone
  have hdelayed : (call (.delayed (50 * 1))).wp ((racing P sk i).fixed γ)
      (Ends (fun w => J w ∧ w.fs.files sk = none) False fun _ _ => True) w := by
    apply hgone.step id hw
    intro w₁ o _ _
    exact ⟨_, trivial, lasts_const True, fun w₂ hw₂ _ => ⟨hw₂, fun _ _ => trivial, nofun⟩⟩
  rw [verifyDeleted]
  apply Ends.bind hdelayed
  intro _ w₁ hw₁ _
  have hlook : (call (.fileExists source)).wp ((racing P sk i).fixed γ)
      (Ends (fun w => J w ∧ w.fs.files sk = none) False fun x _ => x = false) w₁ := by
    apply hgone.look (by trivial) hw₁ fun x => lasts_const _
    rintro w₂ o hw₂ _ rfl
    refine ⟨_, rfl, ?_⟩
    rw [Entering.reads hs (henter w₂ hw₂.1), hw₂.2]
    rfl
  apply Ends.bind hlook
  rintro _ w₂ hw₂ rfl
  exact Ends.pure hw₂ rfl

/-- A source that cannot be read is gone. -/
theorem checkReadable_race {J : World → Prop} (hJ : Firm ((racing P sk i).fixed γ) J False)
    (henter : ∀ w, J w → Entering sk b i w₀ w) (hw : J w) :
    (checkReadable source).wp ((racing P sk i).fixed γ)
      (fun r w' => J w' ∧ ∀ e, r = .error e → w'.fs.files sk = none) w := by
  unfold checkReadable
  rw [wp_tryCatch, wp_bind]
  apply hJ.step id hw
  rintro w₁ o hw₁ ho
  obtain rfl : o = none := ho
  cases hf : w₁.fs.files sk with
  | some c =>
    refine ⟨_, trivial, lasts_const True, fun w₂ hw₂ _ => ?_⟩
    have hok : (w₁.exec P (.readAsBytes source) none).1 = .ok c := by
      simp [World.exec, World.effect, World.readFile, Entering.reads hs (henter w₁ hw₁), hf]
    rw [hok]
    exact ⟨hw₂, fun _ h => by cases h⟩
  | none =>
    have hq := World.quiet_exec (P := P) w₁ (show ¬ (Op.readAsBytes source).Mutates from id) none
    refine ⟨_, (congrFun hq.files sk).trans hf, lasts_gone, fun w₂ hw₂ hgone => ?_⟩
    have herr : ∃ e, (w₁.exec P (.readAsBytes source) none).1 = .error e := by
      simp [World.exec, World.effect, World.readFile, Entering.reads hs (henter w₁ hw₁), hf]
    obtain ⟨e, he⟩ := herr
    rw [he]
    exact ⟨hw₂, fun _ _ => hgone⟩

section Half

omit hs

variable {f : File} {k : Key} {x : Bytes} (hn : γ.own = some n)
  (hf : ∀ fs : Fs, fs.resolve f = some k)
  (hx : ∀ w, Owning P sk b i n w₀ γ w → w.fs.files k = some x)

include hn hf hx

/-- The cleaning finds either file of the entry. -/
theorem lookHalf_race (hended : γ.ended = false)
    (hw : Owning P sk b i n w₀ γ w ∧ w.fs.files sk = none) :
    (call (.fileExists f)).wp ((racing P sk i).fixed γ)
      (Ends (fun w => Owning P sk b i n w₀ γ w ∧ w.fs.files sk = none) False
        fun there _ => there = true) w := by
  apply ((Owning.firm hn hended).and lasts_gone).look (by trivial) hw fun _ => lasts_const _
  rintro w₁ o hw₁ _ rfl
  refine ⟨_, rfl, ?_⟩
  rw [Fs.read_of_resolve (hf w₁.fs), hx w₁ hw₁.1]
  rfl

/-- And removes it. -/
theorem eraseHalf_race (γ' : Share) (hn' : γ'.own = some n) (hended : γ'.ended = false)
    (hk : k ≠ sk)
    (hmakes : ∀ (w w' : World) as, w'.fs.dirs = w.fs.dirs → w' = w.refile w'.fs as →
      w'.fs.files = Function.update w.fs.files k none → Makes P sk i γ γ' w w')
    (hw : Owning P sk b i n w₀ γ w ∧ w.fs.files sk = none) :
    (call (.delete f)).gwp (racing P sk i) (fun r γ₁ w' => r = .ok () ∧ γ₁ = γ' ∧
      Owning P sk b i n w₀ γ' w' ∧ w'.fs.files sk = none) γ w := by
  apply gwp_delete (fun _ _ _ h => h)
    (J := fun w => Owning P sk b i n w₀ γ w ∧ w.fs.files sk = none)
    (fun _ _ h hl => ⟨h.1.leaves hn hl, gone_leaves h.2 hl⟩) (fun w₁ _ => hf w₁.fs) hw
  intro w₁ w₂ r hw₁ hdirs hfiles hr hw₂
  have hthere : w₁.fs.files k ≠ none := by
    rw [hx w₁ hw₁.1]
    exact Option.some_ne_none x
  obtain rfl := hr.mpr hthere
  have hg : Makes P sk i γ γ' w₁ w₂ := hmakes w₁ w₂ _ hdirs hw₂ hfiles
  have hgone : w₂.fs.files sk = none := by
    rw [hfiles, Function.update_of_ne hk.symm, hw₁.2]
  refine ⟨γ', hg, fun w₃ h₃ => ⟨rfl, rfl, ?_, gone_leaves hgone h₃⟩⟩
  exact (hw₁.1.makes hn' hg hended).leaves hn' h₃

end Half

variable (hn : γ.own = some n) (hended : γ.ended = false)
  (hne : dataKey P (P.uuid n) ≠ sk ∧ metaKey P (P.uuid n) ≠ sk)

include hn hended hne

/-- The removal of the source: whoever deletes it goes on, and so does whoever finds it gone at the
first look; one who finds it gone later fails. -/
theorem deleteSource_race (hw : Owning P sk b i n w₀ γ w) :
    (deleteSource source).gwp (racing P sk i) (fun r γ' w' =>
      Owning P sk b i n w₀ γ' w' ∧ w'.fs.files sk = none ∧
        (r = .ok () ∧ (γ' = γ ∨ γ' = { γ with won := true }) ∨ (∃ e, r = .error e) ∧ γ' = γ))
      γ w := by
  have hJ : Firm ((racing P sk i).fixed γ) (Owning P sk b i n w₀ γ) False := Owning.firm hn hended
  have henter (w : World) (h : Owning P sk b i n w₀ γ w) : Entering sk b i w₀ w := h.toEntering
  unfold deleteSource
  apply Ends.seq (lookFor_race hs hJ henter hw) False.elim
  intro there w₁ hw₁ hgone
  cases there with
  -- the source is not found, and the move ends well without it
  | false => exact ⟨hw₁, hgone rfl, .inl ⟨rfl, .inl rfl⟩⟩
  | true =>
    simp only [when, if_true]
    have hstat : (call (.stat source)).wp ((racing P sk i).fixed γ)
        (Ends (Owning P sk b i n w₀ γ) False fun _ _ => True) w₁ := by
      apply hJ.look (by trivial) hw₁ fun _ => lasts_const _
      rintro w₂ o _ _ rfl
      exact ⟨_, rfl, trivial⟩
    apply Ends.seq hstat False.elim
    intro _ w₂ hw₂ _
    apply gwp_then (checkReadable_race hs hJ henter hw₂)
    -- the source is unreadable only if it is gone
    case herr =>
      rintro e w₃ ⟨hw₃, hgone⟩
      exact ⟨hw₃, hgone e rfl, .inr ⟨⟨e, rfl⟩, rfl⟩⟩
    rintro _ w₃ ⟨hw₃, -⟩
    have hresolve (w : World) (h : Owning P sk b i n w₀ γ w) : w.fs.resolve source = some sk :=
      Fs.resolve_mono h.dirs hs
    rw [gwp_bind]
    apply gwp_delete (fun _ _ _ h => h) (fun _ _ h => h.leaves hn) hresolve hw₃
    intro w₄ w₅ r hw₄ hdirs hfiles hr hw₅
    by_cases hthere : w₄.fs.files sk = none
    · -- somebody else has deleted it since
      have hsame : w₅.fs.files = w₄.fs.files := by
        rw [hfiles, ← hthere]
        exact Function.update_eq_self ..
      have hg : Makes P sk i γ γ w₄ w₅ := makes_same hdirs hw₅ hsame
      refine ⟨γ, hg, fun w₆ h₆ => ?_⟩
      have hw₆ := (hw₄.makes hn hg hended).leaves hn h₆
      have hgone := gone_leaves ((congrFun hsame sk).trans hthere) h₆
      cases r with
      | ok u => exact absurd hthere (hr.mp rfl)
      | error e => exact ⟨hw₆, hgone, .inr ⟨⟨e, rfl⟩, rfl⟩⟩
    · -- the source is this import's to delete
      obtain rfl := hr.mpr hthere
      have hown : ({ γ with won := true } : Share).own = some n := hn
      have hg : Makes P sk i γ { γ with won := true } w₄ w₅ := by
        refine makes_source hdirs hw₅ (fun m hm => ?_) hfiles
        obtain rfl : n = m := Option.some.inj (hn.symm.trans hm)
        exact hne
      refine ⟨_, hg, fun w₆ h₆ => ?_⟩
      have hw₆ := (hw₄.makes hown hg hended).leaves hown h₆
      have hgone := gone_leaves (by rw [hfiles, Function.update_self]) h₆
      dsimp only
      apply Ends.seq (verifyDeleted_race hs (Owning.firm hown hended)
        (fun _ h => h.toEntering) ⟨hw₆, hgone⟩) False.elim
      rintro _ w₇ ⟨hw₇, hgone⟩ rfl
      exact ⟨hw₇, hgone, .inl ⟨rfl, .inr rfl⟩⟩

omit hs

/-- The files of the entry are there to be removed. -/
theorem cleanUp_race {x y : Bytes} (hx : γ.data = some x) (hy : γ.text = some y)
    (hw : Owning P sk b i n w₀ γ w ∧ w.fs.files sk = none) :
    (cleanUp (dataFileOf (vaultDir P) (P.uuid n)) (metaFileOf (vaultDir P) (P.uuid n))).gwp
      (racing P sk i) (fun r γ' w' => r = .ok () ∧ γ' = { γ with data := none, text := none } ∧
        Owning P sk b i n w₀ γ' w' ∧ w'.fs.files sk = none) γ w := by
  have hslash := (P.uuid_plain n).1
  have hdata (fs : Fs) := resolve_data (P := P) fs hslash
  have hmeta (fs : Fs) := resolve_meta (P := P) fs hslash
  unfold cleanUp
  rw [gwp_tryCatch]
  -- the contents are there, since nobody else deletes them, and go
  apply Ends.seq (lookHalf_race hn hdata (fun _ h => h.data.trans hx) hended hw) False.elim
  rintro _ w₁ hw₁ rfl
  simp only [when, if_true]
  rw [gwp_bind]
  refine gwp_mono _ ?_ (eraseHalf_race hn hdata (fun _ h => h.data.trans hx)
    { γ with data := none } hn hended hne.1
    (fun _ _ _ hd hw' hf => makes_data hd hw' hn hne.1 hf) hw₁)
  rintro _ _ w₂ ⟨rfl, rfl, hw₂⟩
  dsimp only
  -- and so are the metadata
  have hn₂ : ({ γ with data := none } : Share).own = some n := hn
  have htext (w : World) (h : Owning P sk b i n w₀ { γ with data := none } w) :
      w.fs.files (metaKey P (P.uuid n)) = some y := h.text.trans hy
  apply Ends.seq (lookHalf_race hn₂ hmeta htext hended hw₂) False.elim
  rintro _ w₃ hw₃ rfl
  simp only [if_true]
  refine gwp_mono _ ?_ (eraseHalf_race hn₂ hmeta htext
    { γ with data := none, text := none } hn hended hne.2 (fun _ _ _ hd hw' hf => makes_text hd hw' hn₂ hne.2 hf) hw₃)
  rintro _ _ w₄ ⟨rfl, rfl, hw₄⟩
  exact ⟨trivial, rfl, hw₄⟩

include hs

/-- The source is moved, or the entry is taken back; it is gone in any case. -/
theorem moveSource_race {x y : Bytes} (hx : γ.data = some x) (hy : γ.text = some y)
    (hw : Owning P sk b i n w₀ γ w) :
    (moveSource source (dataFileOf (vaultDir P) (P.uuid n))
      (metaFileOf (vaultDir P) (P.uuid n))).gwp (racing P sk i) (fun r γ' w' =>
        Owning P sk b i n w₀ γ' w' ∧ w'.fs.files sk = none ∧
          (r = .ok () ∧ (γ' = γ ∨ γ' = { γ with won := true }) ∨
            (∃ e, r = .error e) ∧ γ' = { γ with data := none, text := none })) γ w := by
  unfold moveSource
  rw [gwp_tryCatch]
  refine gwp_mono _ ?_ (deleteSource_race hs hn hended hne hw)
  rintro r γ' w₁ ⟨hw₁, hgone, ⟨rfl, hγ⟩ | ⟨⟨e, rfl⟩, rfl⟩⟩
  · exact ⟨hw₁, hgone, .inl ⟨rfl, hγ⟩⟩
  · dsimp only
    rw [gwp_bind]
    refine gwp_mono _ ?_ (cleanUp_race hn hended hne hx hy ⟨hw₁, hgone⟩)
    rintro _ _ w₂ ⟨rfl, rfl, hw₂, hgone⟩
    exact ⟨hw₂, hgone, .inr ⟨⟨_, rfl⟩, rfl⟩⟩

end Removing

/-! ## A whole import -/

/-- What has become of an import that has ended: it has stored the contents, or has left nothing. -/
def Fate (P : Platform) (b : Bytes) (w₀ : World) (kek : Ref) (γ : Share)
    (x : Except DartError VaultFileMeta) : Prop :=
  (∃ m n cipher, x = .ok m ∧ γ.own = some n ∧ γ.data = some cipher ∧
      γ.text = some (metaBytes w₀.zone m) ∧ Entry P (w₀.heap kek) (P.uuid n) b m cipher) ∨
    (∃ e, x = .error e) ∧ γ.data = none ∧ γ.text = none ∧ γ.won = false

section Importing

variable {P : Platform} {source : File} {sk : Key} {b : Bytes} {w₀ w : World} {i : ℕ} {kek : Ref}
  (hs : w₀.fs.resolve source = some sk)

include hs

theorem preparing_race : Preparing P (racing P sk i) False source kek (w₀.heap kek) Share.idle
    (fun n => { Share.idle with own := some n }) (Entering sk b i w₀)
    (fun n w => Entering sk b i w₀ w ∧ w₀.uuids ≤ n)
    (fun n a w => Entering sk b i w₀ w ∧ w₀.uuids ≤ n ∧ a = b) fun w => w.fs.files sk = none where
  begun := Entering.firm rfl
  drawn _ := (Entering.firm rfl).and (lasts_const _)
  read _ _ := (Entering.firm rfl).and (lasts_const _)
  gone₀ := lasts_gone
  gone₁ _ := lasts_gone
  missing₀ _ h hnone := (Entering.reads hs h).symm.trans hnone
  missing₁ _ _ h hnone := (Entering.reads hs h.1).symm.trans hnone
  length _ h := congrArg List.length (congrFun h.heap kek)
  key _ _ _ _ _ _ h _ := congrFun h.1.heap kek
  draw w h _ := by
    have hg : Makes P sk i Share.idle { Share.idle with own := some w.uuids } w
        { w with uuids := w.uuids + 1 } :=
      ⟨⟨rfl, rfl⟩, fun _ => id, .inr ⟨rfl, rfl, rfl⟩, .inl ⟨rfl, rfl⟩, .inl ⟨rfl, fun _ _ => rfl⟩,
        .inl ⟨rfl, fun _ _ => rfl⟩, fun _ _ _ => rfl, .inl ⟨rfl, rfl⟩⟩
    exact ⟨hg, h.makes hg rfl, h.uuids⟩
  reading n w a h _ ha := by
    have hq := World.quiet_exec (P := P) w (show ¬ (Op.readAsBytes source).Mutates from id) none
    have hg : Makes P sk i Share.idle Share.idle w _ := makes_quiet hq
    refine ⟨h.1.makes hg rfl, h.2, ?_⟩
    have hsome : w.fs.files sk = some a := (Entering.reads hs h.1).symm.trans ha
    rcases h.1.source with hb | hnone
    · exact Option.some.inj (hsome.symm.trans hb)
    · cases hsome.symm.trans hnone

variable (hb : w₀.fs.files sk = some b) (hfresh : FreshFrom P w₀) (haes : P.aes.Correct)
  (hk : (w₀.heap kek).length = 32) {mimeType : Text} (hmime : P.asserts = true → mimeType ≠ [])
  (hnil : b ≠ []) (hlength : P.asserts = true → b.length < 2 ^ 63)

include hb hfresh haes hk hmime hnil hlength

/-- An import ends when the source is gone, whoever has moved it. -/
theorem importFile_race (hw : Entering sk b i w₀ w) :
    (importFile P source mimeType kek true).gwp (racing P sk i) (fun x γ w' =>
      Entering sk b i w₀ w' ∧ w'.fs.files sk = none ∧ γ.ended = false ∧ Fate P b w₀ kek γ x)
      Share.idle w := by
  have hname : originalName source ≠ [] := by
    obtain ⟨hn, hne⟩ := originalName_of_resolve hs
    rwa [hn]
  apply importFile_company (preparing_race hs) hname hw
  -- before an identifier is drawn an import fails only because the source is gone
  case hbegun =>
    rintro e w₁ hw₁ (⟨⟨⟩⟩ | hgone | hlen)
    · exact ⟨hw₁, hgone, rfl, .inr ⟨⟨e, rfl⟩, rfl, rfl, rfl⟩⟩
    · exact absurd hk hlen
  case hdrawn =>
    rintro n e w₁ ⟨hw₁, -⟩ (⟨⟨⟩⟩ | hgone)
    exact ⟨hw₁, hgone, rfl, .inr ⟨⟨e, rfl⟩, rfl, rfl, rfl⟩⟩
  case hread =>
    rintro n a e w₁ ⟨-, -, rfl⟩ (⟨⟨⟩⟩ | hempty | ⟨ha, hm | hl⟩)
    · exact absurd hempty hnil
    · exact absurd hm (hmime ha)
    · exact absurd (hlength ha) (not_lt.mpr hl)
  case hwrite =>
    rintro n a m cipher w₁ ⟨hw₁, hn, rfl⟩ hd - hid hreadable - hentry
    have hne := hfresh.ne_source hb hn
    have hE := hentry haes
    -- the share of the import before the two writes, between them and after them
    let γ₁ : Share := { Share.idle with own := some n, data := some cipher }
    let γ₂ : Share := { γ₁ with text := some (metaBytes w₀.zone m) }
    have hwritten : (writeEntry m cipher (dataFileOf (vaultDir P) (P.uuid n))
        (metaFileOf (vaultDir P) (P.uuid n))).gwp (racing P sk i)
        (fun r γ' w' => r = .ok () ∧ γ' = γ₂ ∧ Owning P sk a i n w₀ γ₂ w')
        { Share.idle with own := some n } w₁ := by
      refine writeEntry_company (D := racing P sk i) (fun _ _ _ h => h)
        (J := fun w => Entering sk a i w₀ w ∧ w.fs.dirs (vaultDir P) = true)
        (fun _ _ h hl => ⟨h.1.leaves hl, hl.dirs _ h.2⟩)
        (fun w w' (h : (Entering sk a i w₀ w ∧ w.fs.dirs (vaultDir P) = true) ∧
          w.fs.files (dataKey P (P.uuid n)) = some cipher) (hl : Leaves P sk i γ₁ w w') =>
          ⟨⟨h.1.1.leaves hl, hl.dirs _ h.1.2⟩, (hl.data n rfl).trans h.2⟩)
        (fun _ _ h (hl : Leaves P sk i γ₂ _ _) => h.leaves rfl hl) (P.uuid_plain n).1
        (fun _ h => h.2) (fun _ h => h.1.2) (fun _ h => h.1.1.zone) ?_ ?_ ⟨hw₁, hd⟩
      · intro w₂ w₃ h₂ hdirs hfiles hw₃
        have hg : Makes P sk i { Share.idle with own := some n } γ₁ w₂ w₃ :=
          makes_data hdirs hw₃ rfl hne.1 hfiles
        refine ⟨hg, ⟨h₂.1.makes hg rfl, hdirs ▸ h₂.2⟩, ?_⟩
        rw [hfiles, Function.update_self]
      · intro w₂ w₃ h₂ hdirs hfiles hw₃
        have hg : Makes P sk i γ₁ γ₂ w₂ w₃ := makes_text hdirs hw₃ rfl hne.2 hfiles
        refine ⟨hg, h₂.1.1.makes hg rfl, ?_, ?_⟩
        · rw [hfiles, Function.update_of_ne (dataKey_ne_metaKey _ _), h₂.2]
        · rw [hfiles, Function.update_self]
    rw [gwp_bind]
    refine gwp_mono _ ?_ hwritten
    rintro _ _ w₂ ⟨rfl, rfl, hw₂⟩
    dsimp only
    rw [gwp_bind]
    have hmoved := moveSource_race hs rfl rfl hne rfl rfl hw₂
    refine gwp_mono _ ?_ hmoved
    -- the source is gone when the move ends; who has lost it has no entry
    rintro r γ' w₃ ⟨hw₃, hgone, ⟨rfl, hγ⟩ | ⟨⟨e, rfl⟩, rfl⟩⟩
    · have hkept : Fate P a w₀ kek γ' (.ok m) := by
        rcases hγ with rfl | rfl <;> exact .inl ⟨m, n, cipher, rfl, rfl, rfl, rfl, hE⟩
      have hended : γ'.ended = false := by rcases hγ with rfl | rfl <;> rfl
      exact ⟨hw₃.toEntering, hgone, hended, hkept⟩
    · exact ⟨hw₃.toEntering, hgone, rfl, .inr ⟨⟨e, rfl⟩, rfl, rfl, rfl⟩⟩

end Importing

/-! ## Runs -/

/-- What a call that has ended leaves for good. -/
def Left (P : Platform) (sk : Key) (b : Bytes) (w₀ : World) (i : ℕ) (γ : Share) (w : World) :
    RaceAction → Prop
  | .importFile _ kek => ∃ x, (∀ y, (i, y) ∈ w.record.results ↔ y = x.map fun m => [m]) ∧
      w.fs.files sk = none ∧ Fate P b w₀ kek γ x
  | .tick _ => γ = Share.idle

section Runs

variable {P : Platform} {source : File} {sk : Key} {b : Bytes} {w₀ : World}

theorem leaves_trans {i : ℕ} {γ : Share} {w₁ w₂ w₃ : World} (h : Leaves P sk i γ w₁ w₂)
    (h' : Leaves P sk i γ w₂ w₃) : Leaves P sk i γ w₁ w₃ where
  heap := h'.heap.trans h.heap
  zone := h'.zone.trans h.zone
  dirs p hp := h'.dirs p (h.dirs p hp)
  uuids := h.uuids.trans h'.uuids
  source := by
    rcases h'.source with hs | hs
    · rw [hs]
      exact h.source
    · exact .inr hs
  data n hn := (h'.data n hn).trans (h.data n hn)
  text n hn := (h'.text n hn).trans (h.text n hn)
  results r := (h'.results r).trans (h.results r)

/-- The end of a call is recorded. -/
theorem makes_reported {i : ℕ} {γ : Share} {w : World}
    (x : Except DartError (List VaultFileMeta)) :
    Makes P sk i γ { γ with ended := true } w (World.reported i x w) :=
  ⟨⟨rfl, rfl⟩, fun _ => id, .inl ⟨rfl, rfl⟩, .inl ⟨rfl, rfl⟩, .inl ⟨rfl, fun _ _ => rfl⟩,
    .inl ⟨rfl, fun _ _ => rfl⟩, fun _ _ _ => rfl, .inr ⟨x, rfl, rfl⟩⟩

theorem sound_race (haes : P.aes.Correct) (hs : w₀.fs.resolve source = some sk)
    (hb : w₀.fs.files sk = some b) (hnil : b ≠ []) (hlength : P.asserts = true → b.length < 2 ^ 63)
    (hfresh : FreshFrom P w₀) :
    (race P source).GhostSound (fun i _ => racing P sk i) Share.idle (Racing P sk b w₀)
      fun i a γ w => Left P sk b w₀ i γ w a where
  allow _ _ _ _ _ _ _ h := h
  deliver _ _ _ _ _ _ _ h := h
  rely_refl _ _ _ _ := ⟨⟨rfl, rfl⟩, fun _ => id, le_rfl, .inl rfl, fun _ _ => rfl, fun _ _ => rfl,
    fun _ => Iff.rfl⟩
  rely_trans _ _ _ _ _ _ h h' := leaves_trans h h'
  compat _ _ _ _ _ _ _ _ hij h hg := h.compat hfresh hb hg hij
  inv _ _ _ _ _ _ h hg := h.inv hfresh hb hg
  start i a gs w hidle h ha := by
    -- a thread that starts has recorded nothing
    have hw : Entering sk b i w₀ w := by
      refine ⟨h.toStays, h.dirs, h.uuids, h.source.imp And.left And.left, fun r hr => ?_⟩
      have hended := h.results i r hr
      rw [hidle] at hended
      cases hended
    cases a with
    | tick now =>
      refine ⟨Share.idle, ?_, rfl⟩
      exact ⟨⟨rfl, rfl⟩, fun _ => id, .inl ⟨rfl, rfl⟩, .inl ⟨rfl, rfl⟩, .inl ⟨rfl, fun _ _ => rfl⟩,
        .inl ⟨rfl, fun _ _ => rfl⟩, fun _ _ _ => rfl, .inl ⟨rfl, rfl⟩⟩
    | importFile mimeType kek =>
      obtain ⟨hk, hmime⟩ := ha
      rw [h.heap] at hk
      change (reporting i (do return [← importFile P source mimeType kek true])).gwp _ _ _ _
      unfold reporting
      rw [gwp_handle, gwp_bind]
      refine gwp_mono _ ?_ (importFile_race hs hb hfresh haes hk hmime hnil hlength hw)
      rintro x γ w₁ ⟨hw₁, hgone, hended, hfate⟩
      -- the end is recorded, and nothing was recorded before
      have hleft (y : Except DartError (List VaultFileMeta)) (hy : y = x.map fun m => [m]) :
          (Program.modify (World.reported i y)).gwp (racing P sk i)
            (fun _ γ w => Left P sk b w₀ i γ w (.importFile mimeType kek)) γ w₁ := by
        rw [gwp_modify]
        refine ⟨_, makes_reported y, x, fun z => ?_, hgone, hfate⟩
        refine List.mem_cons.trans ((or_iff_left (hw₁.results z)).trans ?_)
        rw [← hy]
        exact ⟨fun he => congrArg Prod.snd he, fun he => he ▸ rfl⟩
      cases x with
      | error e => exact hleft (.error e) rfl
      | ok m => exact hleft (.ok [m]) rfl
  post i a γ w w' h hr := by
    cases a with
    | tick now => exact h
    | importFile mimeType kek =>
      obtain ⟨x, hx, hgone, hfate⟩ := h
      exact ⟨x, fun y => (hr.results y).trans (hx y), gone_leaves hgone hr, hfate⟩
  crash _ _ _ _ h := h.elim

/-! ### When all calls have ended -/

section Ended

variable {gs : ℕ → Share} {w : World} {i : ℕ} {m : VaultFileMeta}

/-- Whoever owns, has won or has been recorded is a call that has ended. -/
def AllEnded (P : Platform) (sk : Key) (b : Bytes) (w₀ : World) (gs : ℕ → Share) (w : World) :
    Prop :=
  ∀ i, gs i ≠ Share.idle → ∃ mimeType kek, Left P sk b w₀ i (gs i) w (.importFile mimeType kek)

/-- What a call has made that is recorded as having returned. -/
theorem share_of_left {mimeType : Text} {kek : Ref} {γ : Share}
    (h : Left P sk b w₀ i γ w (.importFile mimeType kek)) (hm : (i, .ok [m]) ∈ w.record.results) :
    ∃ n cipher, γ.own = some n ∧ γ.data = some cipher ∧ γ.text = some (metaBytes w₀.zone m) ∧
      Entry P (w₀.heap kek) (P.uuid n) b m cipher := by
  obtain ⟨x, hx, -, ⟨m', n, cipher, rfl, hown, hd, ht, hE⟩ | ⟨⟨e, rfl⟩, -⟩⟩ := h
  · obtain rfl : m = m' := by simpa [Except.map] using (hx _).mp hm
    exact ⟨n, cipher, hown, hd, ht, hE⟩
  · cases (hx _).mp hm

/-- And its identifier is its own. -/
theorem recorded_own (h : Racing P sk b w₀ gs w) (hall : AllEnded P sk b w₀ gs w)
    (hm : (i, .ok [m]) ∈ w.record.results) : ∃ n, (gs i).own = some n ∧ m.id = P.uuid n := by
  have hne : gs i ≠ Share.idle := by
    intro he
    have hi := h.results i _ hm
    rw [he] at hi
    cases hi
  obtain ⟨mimeType, kek, hleft⟩ := hall i hne
  obtain ⟨n, cipher, hown, -, -, hE⟩ := share_of_left hleft hm
  exact ⟨n, hown, hE.id⟩

/-- A call that has returned has stored the contents. -/
theorem recorded_stored (h : Racing P sk b w₀ gs w) (hfresh : FreshFrom P w₀) {mimeType : Text}
    {kek : Ref} (hleft : Left P sk b w₀ i (gs i) w (.importFile mimeType kek))
    (hm : (i, .ok [m]) ∈ w.record.results) :
    w₀.fs.files (dataKey P m.id) = none ∧ w₀.fs.files (metaKey P m.id) = none ∧
      Holds P (w₀.heap kek) w₀.zone w.fs.files m.id b := by
  obtain ⟨n, cipher, hown, hd, ht, hE⟩ := share_of_left hleft hm
  have hf := hfresh n (h.drawn i n hown).1
  rw [hE.id]
  exact ⟨hf.1, hf.2, m, cipher, hE, (h.text i n hown).trans ht, (h.data i n hown).trans hd⟩

/-- A file that has changed belongs to a call that has returned. -/
theorem changed_recorded (h : Racing P sk b w₀ gs w) (hfresh : FreshFrom P w₀)
    (hall : AllEnded P sk b w₀ gs w) {k : Key} (hk : k ≠ sk)
    (hchanged : w.fs.files k ≠ w₀.fs.files k) :
    ∃ i m, (i, .ok [m]) ∈ w.record.results ∧ (k = dataKey P m.id ∨ k = metaKey P m.id) := by
  have howner : ∃ i n, (gs i).own = some n ∧
      (k = dataKey P (P.uuid n) ∨ k = metaKey P (P.uuid n)) := by
    by_contra hno
    refine hchanged (h.others k hk fun i n hn => ⟨fun he => hno ⟨i, n, hn, .inl he⟩,
      fun he => hno ⟨i, n, hn, .inr he⟩⟩)
  obtain ⟨i, n, hown, hkey⟩ := howner
  have hne : gs i ≠ Share.idle := by
    intro he
    rw [he] at hown
    cases hown
  obtain ⟨mimeType, kek, x, hx, -, hfate⟩ := hall i hne
  rcases hfate with ⟨m, n', cipher, rfl, hown', -, -, hE⟩ | ⟨-, hd, ht, -⟩
  · obtain rfl : n = n' := Option.some.inj (hown.symm.trans hown')
    refine ⟨i, m, (hx _).mpr rfl, ?_⟩
    rwa [hE.id]
  · -- what a call that failed had made is gone again
    have hf := hfresh n (h.drawn i n hown).1
    rcases hkey with rfl | rfl
    · exact absurd ((h.data i n hown).trans (hd.trans hf.1.symm)) hchanged
    · exact absurd ((h.text i n hown).trans (ht.trans hf.2.symm)) hchanged

/-- Where the source is gone, some call has returned. -/
theorem gone_recorded (h : Racing P sk b w₀ gs w) (hall : AllEnded P sk b w₀ gs w)
    (hgone : w.fs.files sk = none) : ∃ i m, (i, .ok [m]) ∈ w.record.results := by
  rcases h.source with ⟨hthere, -⟩ | ⟨-, j, hwon⟩
  · cases hgone.symm.trans hthere
  have hne : gs j ≠ Share.idle := by
    intro he
    rw [he] at hwon
    cases hwon
  obtain ⟨mimeType, kek, x, hx, -, ⟨m, -, -, rfl, -⟩ | ⟨-, -, -, hlost⟩⟩ := hall j hne
  · exact ⟨j, m, (hx _).mpr rfl⟩
  · cases hlost.symm.trans hwon

end Ended

/-- **The file is neither lost nor leaked** when any number of imports race for it: those that have
returned have stored its contents, the others have left nothing, and at least one has returned. -/
theorem race_ends (haes : P.aes.Correct) (hs : w₀.fs.resolve source = some sk)
    (hb : w₀.fs.files sk = some b) (hnil : b ≠ []) (hlength : P.asserts = true → b.length < 2 ^ 63)
    (hfresh : FreshFrom P w₀) (hresults : w₀.record.results = []) {c : (race P source).Config}
    (hc : System.Reachable _ w₀ c) (hended : ∀ i a t, c.threads i = some (a, t) → t = .finished) :
    Raced P sk b w₀ (fun i r => ∃ mimeType, c.threads i = some (.importFile mimeType r, .finished))
      c.world := by
  have h₀ : Racing P sk b w₀ (fun _ => Share.idle) w₀ :=
    ⟨⟨rfl, rfl⟩, fun _ => id, le_rfl, fun _ _ => ⟨rfl, rfl⟩, nofun, nofun, nofun, nofun,
      fun _ _ _ => rfl, .inl ⟨hb, fun _ => rfl⟩, fun i r hr => by rw [hresults] at hr; cases hr⟩
  obtain ⟨gs, hok⟩ := (sound_race haes hs hb hnil hlength hfresh).reachable h₀ hc
  have hinv := hok.inv
  have hleft {i : ℕ} {r : Ref}
      (hi : ∃ mimeType, c.threads i = some (.importFile mimeType r, .finished)) :
      ∃ mimeType, Left P sk b w₀ i (gs i) c.world (.importFile mimeType r) := by
    obtain ⟨mimeType, hi⟩ := hi
    exact ⟨mimeType, hok.meets i _ _ hi⟩
  have hall : AllEnded P sk b w₀ gs c.world := by
    intro i hi
    cases ht : c.threads i with
    | none => exact absurd (hok.idle i ht) hi
    | some at' =>
      obtain ⟨a, t⟩ := at'
      obtain rfl := hended i a t ht
      have hmeets : Left P sk b w₀ i (gs i) c.world a := hok.meets i a _ ht
      cases a with
      | tick now => exact absurd hmeets hi
      | importFile mimeType kek => exact ⟨mimeType, kek, hmeets⟩
  constructor
  case reported =>
    intro i r hi
    obtain ⟨mimeType, x, hx, -, ⟨m, -, -, rfl, -⟩ | ⟨⟨e, rfl⟩, -⟩⟩ := hleft hi
    · exact ⟨_, hx, .inl ⟨m, rfl⟩⟩
    · exact ⟨_, hx, .inr ⟨e, rfl⟩⟩
  case stored =>
    intro i r m hi hm
    obtain ⟨mimeType, hl⟩ := hleft hi
    exact recorded_stored hinv hfresh hl hm
  case own =>
    intro i j m m' hm hm' hid
    obtain ⟨n, hown, hn⟩ := recorded_own hinv hall hm
    obtain ⟨n', hown', hn'⟩ := recorded_own hinv hall hm'
    obtain rfl : n = n' := P.uuid_injective (hn.symm.trans (hid.trans hn'))
    exact hinv.distinct i j n hown hown'
  case others => exact fun k hk hchanged => changed_recorded hinv hfresh hall hk hchanged
  case kept =>
    rintro ⟨i, r, hi⟩
    obtain ⟨mimeType, x, -, hgone, -⟩ := hleft hi
    exact gone_recorded hinv hall hgone

end Runs

/-! ## Two imports -/

/-- A device with the file `a`, which holds one byte. -/
def contested : World := .sample (List.replicate 32 2) [1]

theorem contested_fresh : FreshFrom (.sample .marked) contested := by
  have hdir : ["home".toList] ≠ vaultDir (.sample .marked) := by decide
  have hnone (k : Key) (hk : k.dir = vaultDir (.sample .marked)) : contested.fs.files k = none := by
    refine (Function.update_of_ne ?_ ..).trans rfl
    rintro rfl
    exact hdir hk
  exact fun n _ => ⟨hnone _ rfl, hnone _ rfl⟩

/-- A device on which these imports run. -/
abbrev sampleRace : System (device (.sample .marked)) := race (.sample .marked) .sample

/-- The import begins. -/
def begins (c : sampleRace.Config) (i : ℕ) : sampleRace.Config :=
  c.update i (.importFile ['t'] 0)
    (settle (RaceAction.program (.sample .marked) .sample i (.importFile ['t'] 0)) c.world)

/-- The first import has read the file. -/
def oneReading : sampleRace.Config := sampleRace.advance usual 0 8 (begins (.idle contested) 0)

/-- The second import stores the file and deletes it, and then the first one goes on. -/
def bothImported : sampleRace.Config :=
  sampleRace.advance usual 0 30 (sampleRace.advance usual 1 30 (begins oneReading 1))

/-- No other import has begun. -/
theorem threads_bothImported {i : ℕ} (h₀ : i ≠ 0) (h₁ : i ≠ 1) : bothImported.threads i = none :=
  calc bothImported.threads i
    _ = (sampleRace.advance usual 1 30 (begins oneReading 1)).threads i :=
      sampleRace.threads_advance usual h₀ 30 _
    _ = (begins oneReading 1).threads i := sampleRace.threads_advance usual h₁ 30 _
    _ = oneReading.threads i := Function.update_of_ne h₁ ..
    _ = (begins (.idle contested) 0).threads i := sampleRace.threads_advance usual h₀ 8 _
    _ = none := Function.update_of_ne h₀ ..

theorem reachable_bothImported : System.Reachable _ contested bothImported := by
  have hwithin (i : ℕ) : (RaceAction.program (.sample .marked) .sample i (.importFile ['t'] 0)).Within
      (fun op => ∀ dir, op ≠ .listSync dir) (fun _ _ => True) := by
    refine Within.handle (Within.bind (within_importFile removing_unlisted
      (fun _ _ _ => nofun) (fun _ _ _ => trivial) _ _ _ _) fun _ => trivial) fun _ => ?_
    exact ⟨fun _ => trivial, trivial⟩
  have hbegins {c : sampleRace.Config} {i : ℕ} (hi : c.threads i = none)
      (hk : (c.world.heap 0).length = 32) : sampleRace.Step c (begins c i) :=
    .start (S := sampleRace) i (.importFile ['t'] 0) hi ⟨hk, fun _ => by decide⟩
  have hadvance {c : sampleRace.Config} (i n : ℕ)
      (hc : c.Within (fun op => ∀ dir, op ≠ .listSync dir) fun _ _ => True) :
      System.Steps _ c (sampleRace.advance usual i n c) :=
    System.steps_advance_within (fun w _ h => good_usual w h) (fun _ _ _ _ => trivial) i n hc
  have hbegun : (begins (.idle contested) 0).Within (fun op => ∀ dir, op ≠ .listSync dir)
      fun _ _ => True := (System.Config.Within.idle _).update 0 _ (hwithin 0) _
  have hone : oneReading.Within (fun op => ∀ dir, op ≠ .listSync dir) fun _ _ => True :=
    hbegun.advance 0 8
  have hboth : (begins oneReading 1).Within (fun op => ∀ dir, op ≠ .listSync dir)
      fun _ _ => True := hone.update 1 _ (hwithin 1) _
  refine .head (hbegins rfl rfl) ((hadvance 0 8 hbegun).trans ?_)
  refine .head (hbegins (sampleRace.threads_advance usual Nat.one_ne_zero 8 _)
    (by decide +kernel)) ?_
  exact (hadvance 1 30 hboth).trans (hadvance 0 30 (hboth.advance 1 30))

theorem race_ends_bothImported :
    (bothImported.world.record.results.map fun x => (x.1, x.2.toOption.isSome)) =
      [(0, true), (1, true)] ∧
    Raced (.sample .marked) ⟨["home".toList], "a".toList⟩ [1] contested
      (fun i r => ∃ mimeType, bothImported.threads i = some (.importFile mimeType r, .finished))
      bothImported.world := by
  refine ⟨by decide +kernel, race_ends AesGcm.marked_correct (by decide) (by decide) (by decide)
    (by rintro ⟨⟩) contested_fresh rfl reachable_bothImported ?_⟩
  intro i a t hi
  have hends {j : ℕ} (hj : bothImported.threads j = some (a, t))
      (h : (bothImported.threads j).map (fun x => x.2.isFinished) = some true) : t = .finished := by
    rw [hj] at h
    exact Thread.eq_finished (Option.some.inj h)
  match i, hi with
  | 0, hi => exact hends hi (by decide +kernel)
  | 1, hi => exact hends hi (by decide +kernel)
  | n + 2, hi =>
    cases (threads_bothImported (i := n + 2) (by omega) (by omega)).symm.trans hi

end VaultRepository

end CajaSegura
