import CajaSegura.Codec.Base64
import Mathlib.Logic.Function.Basic
import Mathlib.Tactic.Common

/-!
# Files

A file system as the application sees it: directories, and the files in them by name. A `File` of
the application is a text; the system follows its components, so that one file has many texts.

## Main definitions

* `Fs`, `Key`: the directories, and the files by directory and name
* `File`, `Fs.resolve`: a path text below a directory, and the file it leads to
* `Fs.read`, `Fs.write`, `Fs.remove`, `Fs.rename`, `Fs.create`

## Main results

* `Fs.Lists.put`, `Fs.Lists.erase`: the listing of a directory that gains or loses a file
* `Fs.resolve_plain`: a text without separators names a file of the directory itself
* `Fs.resolve_mono`: a path leads to the same file when directories are added
* `Fs.resolve_ofPath`: a path text leads through the directory that it begins with
-/

namespace CajaSegura

open Codec

/-- A directory, by its components from the root. -/
abbrev Path := List Text

def pathText (p : Path) : Text := p.flatMap fun c => '/' :: c

/-- A file by its directory and name. -/
structure Key where
  dir : Path
  name : Text
  deriving DecidableEq

/-- A path as the application writes it: `base/rel`. -/
structure File where
  base : Path
  rel : Text
  deriving DecidableEq

def File.path (f : File) : Text := pathText f.base ++ '/' :: f.rel

/-- A file by an absolute path. -/
def File.ofPath (path : Text) : File := ⟨[], path.tail⟩

/-- `source.uri.pathSegments`. -/
def File.pathSegments (f : File) : List Text := f.base ++ f.rel.splitOn '/'

/-- Names that no file has. -/
def NoName (name : Text) : Prop := name = [] ∨ name = ['.'] ∨ name = ['.', '.']

instance : DecidablePred NoName := fun _ => inferInstanceAs (Decidable (_ ∨ _ ∨ _))

/-- Names that a file can have. -/
def Plain (name : Text) : Prop := '/' ∉ name ∧ ¬ NoName name

instance : DecidablePred Plain := fun _ => inferInstanceAs (Decidable (_ ∧ _))

/-- Directories and files; every file lies in a directory and has a name. -/
structure Fs where
  dirs : Path → Bool
  files : Key → Option Bytes
  parent : ∀ k, files k ≠ none → dirs k.dir = true ∧ Plain k.name

namespace Fs

/-- One component of a path to a directory. -/
def enter (p : Path) (c : Text) : Path :=
  if c = [] ∨ c = ['.'] then p else if c = ['.', '.'] then p.dropLast else p ++ [c]

/-- The directory that components lead to; each on the way has to exist. -/
def walk (fs : Fs) : Path → List Text → Option Path
  | p, [] => some p
  | p, c :: cs => if fs.dirs (enter p c) then fs.walk (enter p c) cs else none

/-- The file a path leads to, which need not exist. -/
def resolve (fs : Fs) (f : File) : Option Key :=
  if NoName ((f.rel.splitOn '/').getLastD []) then none
  else (fs.walk f.base (f.rel.splitOn '/').dropLast).map
    fun dir => ⟨dir, (f.rel.splitOn '/').getLastD []⟩

/-- The contents of a file, if it exists. -/
def read (fs : Fs) (f : File) : Option Bytes := (fs.resolve f).bind fs.files

/-- The file `k` of a directory that exists has the contents `b`. -/
def put (fs : Fs) (k : Key) (b : Bytes) (hk : fs.dirs k.dir = true ∧ Plain k.name) : Fs where
  dirs := fs.dirs
  files := Function.update fs.files k (some b)
  parent := by
    intro j hj
    by_cases h : j = k
    · exact h ▸ hk
    · rw [Function.update_of_ne h] at hj
      exact fs.parent j hj

/-- The file `k` is gone. -/
def erase (fs : Fs) (k : Key) : Fs where
  dirs := fs.dirs
  files := Function.update fs.files k none
  parent := by
    intro j hj
    by_cases h : j = k
    · rw [h, Function.update_self] at hj
      exact absurd rfl hj
    · rw [Function.update_of_ne h] at hj
      exact fs.parent j hj

/-- A file is created or overwritten in a directory that exists. -/
def write (fs : Fs) (f : File) (b : Bytes) : Option Fs :=
  match fs.resolve f with
  | some k => if hk : fs.dirs k.dir = true ∧ Plain k.name then some (fs.put k b hk) else none
  | none => none

/-- A file is removed. -/
def remove (fs : Fs) (f : File) : Option Fs :=
  match fs.resolve f with
  | some k => (fs.files k).map fun _ => fs.erase k
  | none => none

/-- A file is given another name, replacing the file that had it. -/
def rename (fs : Fs) (f t : File) : Option Fs :=
  match fs.read f with
  | some b => (fs.remove f).bind fun fs => fs.write t b
  | none => none

/-- The listing of a directory: each of its names once. -/
def Lists (fs : Fs) (dir : Path) (names : List Text) : Prop :=
  names.Nodup ∧ ∀ n, n ∈ names ↔ fs.files ⟨dir, n⟩ ≠ none

/-- The directory and those above it. -/
def create (fs : Fs) (dir : Path) : Fs where
  dirs := fun p => fs.dirs p || p.isPrefixOf dir
  files := fs.files
  parent := by
    intro k hk
    simp [fs.parent k hk]

/-! ## Paths without separators -/

theorem splitOn_plain {name : Text} (h : '/' ∉ name) : name.splitOn '/' = [name] :=
  List.splitOn_eq_singleton h

/-- The components of a path text, and how they change when the last of them is extended. -/
theorem splitOn_append (rel : Text) : ∃ cs n, '/' ∉ n ∧ rel.splitOn '/' = cs ++ [n] ∧
    ∀ s, '/' ∉ s → (rel ++ s).splitOn '/' = cs ++ [n ++ s] := by
  by_cases h : '/' ∈ rel
  · obtain ⟨as, bs, hr, has⟩ := List.eq_append_cons_of_mem (List.mem_reverse.mpr h)
    have hrel : rel = bs.reverse ++ '/' :: as.reverse := by
      rw [← List.reverse_reverse rel, hr]
      simp
    have hplain : '/' ∉ as.reverse := by simpa using has
    refine ⟨bs.reverse.splitOn '/', as.reverse, hplain, ?_, fun s hs => ?_⟩
    · rw [hrel, List.splitOn_append_cons_self, splitOn_plain hplain]
    · have hs' : '/' ∉ as.reverse ++ s := by simp [has, hs]
      rw [hrel, List.append_assoc, List.cons_append, List.splitOn_append_cons_self,
        splitOn_plain hs']
  · refine ⟨[], rel, h, splitOn_plain h, fun s hs => ?_⟩
    have hs' : '/' ∉ rel ++ s := by simp [h, hs]
    exact splitOn_plain hs'

/-- A path leads to a name that a file can have. -/
theorem plain_of_resolve {fs : Fs} {f : File} {k : Key} (h : fs.resolve f = some k) :
    Plain k.name := by
  obtain ⟨cs, n, hn, hrel, -⟩ := splitOn_append f.rel
  unfold resolve at h
  rw [hrel, List.getLastD_concat] at h
  split at h
  · cases h
  · rename_i hname
    obtain ⟨dir, -, rfl⟩ := Option.map_eq_some_iff.mp h
    exact ⟨hn, hname⟩

/-- A text without separators names a file of the directory itself. -/
theorem resolve_plain (fs : Fs) {dir : Path} {name : Text} (h : Plain name) :
    fs.resolve ⟨dir, name⟩ = some ⟨dir, name⟩ := by
  rw [resolve, splitOn_plain h.1]
  simp [walk, h.2]

/-- More directories, the same files. -/
theorem resolve_mono {fs fs' : Fs} (h : ∀ p, fs.dirs p = true → fs'.dirs p = true) {f : File}
    {k : Key} (hk : fs.resolve f = some k) : fs'.resolve f = some k := by
  have hw : ∀ (cs : List Text) (p q : Path), fs.walk p cs = some q → fs'.walk p cs = some q := by
    intro cs
    induction cs with
    | nil => exact fun p q => id
    | cons c cs ih =>
      intro p q hq
      rw [walk] at hq ⊢
      split at hq
      · rename_i hd
        rw [if_pos (h _ hd)]
        exact ih _ _ hq
      · cases hq
  unfold resolve at hk ⊢
  split at hk
  · cases hk
  · rename_i hn
    rw [if_neg hn]
    obtain ⟨q, hq, rfl⟩ := Option.map_eq_some_iff.mp hk
    rw [hw _ _ _ hq]
    rfl

/-- Where a path leads depends on the directories only. -/
theorem resolve_congr {fs fs' : Fs} (h : fs'.dirs = fs.dirs) (f : File) :
    fs'.resolve f = fs.resolve f := by
  apply Option.ext
  intro k
  exact ⟨resolve_mono fun p hp => h ▸ hp, resolve_mono fun p hp => by rw [h, hp]⟩

/-- A directory with ordinary names that exists with all those above it. -/
structure Rooted (fs : Fs) (dir : Path) : Prop where
  plain : ∀ c ∈ dir, Plain c
  dirs : ∀ p, p <+: dir → fs.dirs p = true

theorem walk_append {fs : Fs} {base dir : Path} (hplain : ∀ c ∈ dir, Plain c)
    (hdirs : ∀ p, p <+: dir → fs.dirs (base ++ p) = true) (cs : List Text) :
    fs.walk base (dir ++ cs) = fs.walk (base ++ dir) cs := by
  induction dir generalizing base with
  | nil => rw [List.nil_append, List.append_nil]
  | cons c dir ih =>
    have hc := hplain c List.mem_cons_self
    have henter : enter base c = base ++ [c] := by
      unfold enter
      rw [if_neg fun h => hc.2 (h.imp_right .inl), if_neg fun h => hc.2 (.inr (.inr h))]
    have hd : fs.dirs (base ++ [c]) = true := hdirs [c] ⟨dir, rfl⟩
    rw [List.cons_append, walk, henter, if_pos hd, ih fun d hd => hplain d (List.mem_cons_of_mem c hd)]
    · rw [List.append_assoc, List.singleton_append]
    · intro p hp
      rw [List.append_assoc, List.singleton_append]
      exact hdirs (c :: p) (List.cons_prefix_cons.mpr ⟨rfl, hp⟩)

theorem splitOn_path {dir : Path} (hplain : ∀ c ∈ dir, '/' ∉ c) (rel : Text) :
    (pathText dir ++ '/' :: rel).tail.splitOn '/' = dir ++ rel.splitOn '/' := by
  induction dir with
  | nil => rfl
  | cons c dir ih =>
    have hc := hplain c List.mem_cons_self
    have ih := ih fun d hd => hplain d (List.mem_cons_of_mem c hd)
    have htail : pathText dir ++ '/' :: rel = '/' :: (pathText dir ++ '/' :: rel).tail := by
      cases dir <;> rfl
    rw [pathText, List.flatMap_cons, List.cons_append, List.cons_append, List.tail_cons,
      List.append_assoc]
    change (c ++ (pathText dir ++ '/' :: rel)).splitOn '/' = _
    rw [htail, List.splitOn_append_cons_self, splitOn_plain hc, ih]
    rfl

/-- A path text leads through the directory that it begins with. -/
theorem resolve_ofPath {fs : Fs} {dir : Path} (h : Rooted fs dir) (rel : Text) :
    fs.resolve (.ofPath (pathText dir ++ '/' :: rel)) = fs.resolve ⟨dir, rel⟩ := by
  obtain ⟨cs, n, -, hrel, -⟩ := splitOn_append rel
  have hwalk := @walk_append fs [] dir h.plain (fun p hp => h.dirs p hp) cs
  unfold resolve File.ofPath
  rw [splitOn_path (fun c hc => (h.plain c hc).1), hrel, ← List.append_assoc]
  simp only [List.getLastD_concat, List.dropLast_concat]
  rw [hwalk, List.nil_append]

theorem read_of_resolve {fs : Fs} {f : File} {k : Key} (h : fs.resolve f = some k) :
    fs.read f = fs.files k := by
  rw [read, h]
  rfl

/-- New directories hide no file. -/
theorem read_mono {fs fs' : Fs} (hd : ∀ p, fs.dirs p = true → fs'.dirs p = true)
    (hf : fs'.files = fs.files) {f : File} {k : Key} (h : fs.resolve f = some k) :
    fs'.read f = fs.read f := by
  rw [read_of_resolve (resolve_mono hd h), read_of_resolve h, hf]

/-! ## Listings -/

variable {fs fs' : Fs} {dir : Path} {names : List Text} {n : Text}

theorem Lists.congr (h : fs.Lists dir names) (hf : fs'.files = fs.files) : fs'.Lists dir names := by
  unfold Lists at h ⊢
  rwa [hf]

theorem Lists.put (h : fs.Lists dir names) (hn : n ∉ names) {b : Bytes}
    (hk : fs.dirs dir = true ∧ Plain n) : (fs.put ⟨dir, n⟩ b hk).Lists dir (n :: names) := by
  refine ⟨List.nodup_cons.mpr ⟨hn, h.1⟩, fun m => ?_⟩
  by_cases hm : m = n
  · subst hm
    simp [Fs.put]
  · have hne : (⟨dir, m⟩ : Key) ≠ ⟨dir, n⟩ := fun he => hm (congrArg Key.name he)
    have hf : (fs.put ⟨dir, n⟩ b hk).files ⟨dir, m⟩ = fs.files ⟨dir, m⟩ :=
      Function.update_of_ne hne ..
    rw [List.mem_cons, or_iff_right hm, h.2 m, hf]

theorem Lists.erase (h : fs.Lists dir names) (n : Text) :
    (fs.erase ⟨dir, n⟩).Lists dir (names.erase n) := by
  refine ⟨h.1.erase n, fun m => ?_⟩
  rw [h.1.mem_erase_iff]
  by_cases hm : m = n
  · subst hm
    simp [Fs.erase]
  · have hne : (⟨dir, m⟩ : Key) ≠ ⟨dir, n⟩ := fun he => hm (congrArg Key.name he)
    have hf : (fs.erase ⟨dir, n⟩).files ⟨dir, m⟩ = fs.files ⟨dir, m⟩ := Function.update_of_ne hne ..
    rw [and_iff_right hm, h.2 m, hf]

end Fs

end CajaSegura
