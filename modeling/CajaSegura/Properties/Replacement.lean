import CajaSegura.Platform.Sample
import CajaSegura.Services.CompanyRules
import CajaSegura.Services.MoveRules
import CajaSegura.Services.VaultCalls

/-!
# Moving a file that another program replaces

The source is read once, encrypted and written to the vault, and then removed. Nothing compares what
is removed with what was read, so that a version of the file that came in between is lost.

## Main definitions

* `contentsAfter`: what a file holds after a list of calls
* `replacing`: the discipline of an import beside which another program replaces the source
* `ReadBefore`: the calls that came before the one by which an import has read its source

## Main results

* `VaultRepository.importFile_replaced`: an import has kept what it has read
* `VaultRepository.importFile_destroys`: which need not be what it has removed
-/

namespace CajaSegura

open Codec Async
open Program hiding bind

/-! ## The contents of the source -/

/-- What a file that held `b` holds after calls of which the latest stand first, while it is only
written. -/
def contentsAfter (source : File) (b : Bytes) : List (Sigma Outcome) → Bytes
  | [] => b
  | ⟨.writeAsBytes f c, _⟩ :: l => if f = source then c else contentsAfter source b l
  | _ :: l => contentsAfter source b l

/-- Time passes, or another program replaces the contents of the source. -/
def Replaced (P : Platform) (source : File) (w w' : World) : Prop :=
  TimePasses w w' ∨ ∃ c, w' = (w.exec P (.writeAsBytes source c) .done).2

/-- Calls work, and another program may replace the contents of the source any number of times. -/
def replacing (P : Platform) (source : File) : Discipline (device P) where
  allow := Good
  deliver := fun _ _ _ => True
  rely := Relation.ReflTransGen (Replaced P source)
  guarantee := fun _ _ => True

/-- Among the calls `l` the source was read after the calls `l₁`, and the contents of the entry were
written afterwards. -/
def ReadBefore (P : Platform) (source : File) (id : Text) (l l₁ : List (Sigma Outcome)) : Prop :=
  ∃ l₃ c l₂, l = l₃ ++ ⟨.writeAsBytes (dataFileOf (vaultDir P) id) c, .done⟩ ::
    (l₂ ++ ⟨.readAsBytes source, none⟩ :: l₁)

variable {P : Platform} {source : File} {sk : Key} {b : Bytes}

/-- Calls that can change nothing leave the contents. -/
theorem contentsAfter_append {q : List (Sigma Outcome)} (hq : ∀ a ∈ q, ¬ a.1.Mutates)
    (l : List (Sigma Outcome)) :
    contentsAfter source b (q ++ l) = contentsAfter source b l := by
  induction q with
  | nil => rfl
  | cons a q ih =>
    obtain ⟨ha, hrest⟩ := List.forall_mem_cons.mp hq
    obtain ⟨op, o⟩ := a
    rw [← ih hrest]
    cases op <;> first | exact absurd trivial ha | rfl

/-! ## What is known of the calls and files -/

/-- What the calls since `w₀` and the files have to do with each other. -/
structure Met (w₀ : World) (R : List (Sigma Outcome) → (Key → Option Bytes) → Prop) (w : World) :
    Prop extends Stays w₀ w where
  dirs : ∀ p, w₀.fs.dirs p = true → w.fs.dirs p = true
  log : ∃ l, w.record.answers = l ++ w₀.record.answers ∧ R l w.fs.files

/-- It survives calls that can change nothing and new contents of the source. -/
structure Survives (source : File) (sk : Key)
    (R : List (Sigma Outcome) → (Key → Option Bytes) → Prop) : Prop where
  append : ∀ q l files, (∀ a ∈ q, ¬ a.1.Mutates) → R l files → R (q ++ l) files
  replace : ∀ c l files, R l files →
    R (⟨.writeAsBytes source c, .done⟩ :: l) (Function.update files sk (some c))

variable {w₀ w w' : World} {R : List (Sigma Outcome) → (Key → Option Bytes) → Prop}

theorem Met.quiet (hR : Survives source sk R) (h : Met w₀ R w) (hq : w.Quiet w') : Met w₀ R w' := by
  obtain ⟨l, hl, hr⟩ := h.log
  obtain ⟨q, hq', hmut⟩ := hq.answers
  refine ⟨⟨hq.heap.trans h.heap, hq.zone.trans h.zone⟩, fun p hp => hq.dirs p (h.dirs p hp),
    q ++ l, by rw [hq', hl, List.append_assoc], ?_⟩
  rw [hq.files]
  exact hR.append q l _ hmut hr

/-- A call that has changed the files. -/
theorem Met.refiled {R' : List (Sigma Outcome) → (Key → Option Bytes) → Prop} {a : Sigma Outcome}
    (h : Met w₀ R w) (hd : w'.fs.dirs = w.fs.dirs)
    (hw' : w' = w.refile w'.fs (a :: w.record.answers))
    (hR : ∀ l, R l w.fs.files → R' (a :: l) w'.fs.files) : Met w₀ R' w' := by
  obtain ⟨l, hl, hr⟩ := h.log
  refine ⟨⟨?_, ?_⟩, fun p hp => ?_, a :: l, ?_, hR l hr⟩
  · rw [hw']
    exact h.heap
  · rw [hw']
    exact h.zone
  · rw [hd]
    exact h.dirs p hp
  · rw [hw']
    exact congrArg (List.cons a) hl

/-- What the other program does. -/
theorem Met.replaced (hs : w₀.fs.resolve source = some sk) (hd : w₀.fs.dirs sk.dir = true)
    (hR : Survives source sk R) (h : Met w₀ R w)
    (hr : Relation.ReflTransGen (Replaced P source) w w') :
    Met w₀ R w' ∧ w'.uuids = w.uuids ∧ ∀ p, w.fs.dirs p = true → w'.fs.dirs p = true := by
  induction hr with
  | refl => exact ⟨h, rfl, fun _ => id⟩
  | tail _ hstep ih =>
    obtain ⟨ih, hu, hdirs⟩ := ih
    rcases hstep with ⟨t, rfl⟩ | ⟨c, rfl⟩
    · exact ⟨⟨⟨ih.heap, ih.zone⟩, ih.dirs, ih.log⟩, hu, hdirs⟩
    · rename_i w₁ _
      obtain ⟨fs, hdirs', hfiles, hexec⟩ := World.exec_write (P := P)
        (Fs.resolve_mono ih.dirs hs) (ih.dirs _ hd) c
      rw [hexec]
      obtain ⟨l, hl, hr⟩ := ih.log
      have hsame (p : Path) (hp : w₁.fs.dirs p = true) : fs.dirs p = true := by rw [hdirs', hp]
      refine ⟨⟨⟨ih.heap, ih.zone⟩, fun p hp => hsame p (ih.dirs p hp),
        ⟨.writeAsBytes source c, .done⟩ :: l, ?_, ?_⟩, hu,
        fun p hp => hsame p (hdirs p hp)⟩
      · exact congrArg (List.cons _) hl
      · exact hfiles ▸ hR.replace c l _ hr

/-- An import relies on it. -/
theorem Met.firm (hs : w₀.fs.resolve source = some sk) (hd : w₀.fs.dirs sk.dir = true)
    (hR : Survives source sk R) : Firm (replacing P source) (Met w₀ R) False where
  rely _ _ h hr := (h.replaced hs hd hR hr).1
  dirs _ _ h hr := (h.replaced hs hd hR hr).2.2
  quiet _ _ h hq := ⟨trivial, h.quiet hR hq⟩
  fault _ _ _ := .inl

/-- Before the source is read it holds what its log says. -/
theorem survives_unread : Survives source sk fun l files =>
    files sk = some (contentsAfter source b l) where
  append q l files hq h := by rw [h, contentsAfter_append hq]
  replace c l files h := by
    rw [Function.update_self]
    simp [contentsAfter]

/-- What was found once is not changed by what comes later, if the files in question are not the
source. -/
theorem survives_later {T : List (Sigma Outcome) → Prop} (hT : ∀ q l, T l → T (q ++ l))
    {F : (Key → Option Bytes) → Prop}
    (hF : ∀ files c, F files → F (Function.update files sk (some c))) :
    Survives source sk fun l files => T l ∧ F files where
  append q l _ _ h := ⟨hT q l h.1, h.2⟩
  replace c l files h := ⟨hT [_] l h.1, hF files c h.2⟩

/-! ## The removal of the source -/

/-- The calls by which the source is removed, and those that can change nothing. -/
def RemovesSource (source : File) : Op → Prop
  | .delete f => f = source ∨ ∃ now, f = VaultRepository.tempFileOf source now
  | .rename f t => f = source ∧ ∃ now, t = VaultRepository.tempFileOf source now
  | .writeAsBytes f c => f = source ∧ c = []
  | op => ¬ op.Mutates

theorem removingFile_removesSource (source : File) : RemovingFile (RemovesSource source) source where
  looks op h := by
    have hop := h.not_mutates
    cases op <;> first | exact hop | exact absurd h id
  delayed _ := id
  delete := .inl rfl
  rename now := ⟨rfl, now, rfl⟩
  deleteTemp now := .inr ⟨now, rfl⟩
  empty := ⟨rfl, rfl⟩

/-- They leave every other file alone. -/
theorem files_exec_removesSource {k : Key} {op : Op} (hop : RemovesSource source op)
    (hs : w.fs.resolve source = some sk) (hk : k ≠ sk) (ht : ∀ now, k ≠ tempKey sk now)
    (o : Outcome op) : (w.exec P op o).2.fs.files k = w.fs.files k := by
  by_cases hm : op.Mutates
  -- a call that changes nothing leaves every file
  case neg => exact congrFun (World.quiet_exec w hm o).files k
  cases op with
  | delete f =>
    change (w.fs.onDelete f o).2.files k = _
    rcases Fs.onDelete_files w.fs f o with h | ⟨-, k', hk', h⟩
    · rw [h]
    · rw [h, Function.update_of_ne]
      rintro rfl
      rcases hop with rfl | ⟨now, rfl⟩
      · exact hk (Option.some.inj (hk'.symm.trans hs))
      · exact ht now (Option.some.inj (hk'.symm.trans (resolve_temp hs now)))
  | rename f t =>
    change (w.fs.onRename f t o).2.files k = _
    obtain ⟨rfl, now, rfl⟩ := hop
    rcases Fs.onRename_files w.fs f (VaultRepository.tempFileOf f now) o with
      h | ⟨-, k₁, b, hk₁, -, k₂, hk₂, h⟩
    · rw [h]
    · obtain rfl := Option.some.inj (hk₁.symm.trans hs)
      obtain rfl := Option.some.inj (hk₂.symm.trans (resolve_temp hs now))
      rw [h, Function.update_of_ne (ht now), Function.update_of_ne hk]
  | writeAsBytes f c =>
    change (w.fs.onWrite f c o).2.files k = _
    obtain ⟨rfl, rfl⟩ := hop
    rcases Fs.onWrite_files w.fs f [] o with h | ⟨-, k', s, hk', -, h⟩
    · rw [h]
    · obtain rfl := Option.some.inj (hk'.symm.trans hs)
      rw [h, Function.update_of_ne hk]
  | _ => exact absurd hm hop

/-! ## An import beside another program -/

namespace VaultRepository

/-- An import has kept what it has read. -/
def Kept (P : Platform) (source : File) (b : Bytes) (z : Zone) (m : VaultFileMeta)
    (data cipher : Bytes) (l : List (Sigma Outcome)) (files : Key → Option Bytes) : Prop :=
  (∃ l₁, ReadBefore P source m.id l l₁ ∧ data = contentsAfter source b l₁) ∧
    files (dataKey P m.id) = some cipher ∧ files (metaKey P m.id) = some (metaBytes z m)

/-- A result that has been kept. -/
structure Keeping (P : Platform) (source : File) (b : Bytes) (kek : Bytes) (w₀ : World)
    (m : VaultFileMeta) (w : World) : Prop where
  plain : '/' ∉ m.id ∧ m.id ≠ []
  kept : ∃ data cipher, Entry P kek m.id data m cipher ∧
    Met w₀ (Kept P source b w₀.zone m data cipher) w

section Removing

variable {m : VaultFileMeta} {data cipher : Bytes} (hs : w₀.fs.resolve source = some sk)
  (hd : w₀.fs.dirs sk.dir = true) (hdata : sk ≠ dataKey P m.id) (hmeta : sk ≠ metaKey P m.id)

include hdata hmeta

theorem survives_kept (z : Zone) : Survives source sk (Kept P source b z m data cipher) := by
  refine survives_later (fun q l h => ?_) fun files c h => ?_
  · obtain ⟨l₁, ⟨l₃, c, l₂, rfl⟩, hl⟩ := h
    exact ⟨l₁, ⟨q ++ l₃, c, l₂, by rw [List.append_assoc]⟩, hl⟩
  · rwa [Function.update_of_ne hdata.symm, Function.update_of_ne hmeta.symm]

include hs

/-- A call by which the source is removed leaves the entry where it is. -/
theorem kept_exec {z : Zone} {op : Op} (hop : RemovesSource source op) (o : Outcome op)
    (h : Met w₀ (Kept P source b z m data cipher) w) :
    Met w₀ (Kept P source b z m data cipher) (w.exec P op o).2 := by
  have ho := World.outside_exec P w op o
  have hsk := Fs.resolve_mono h.dirs hs
  obtain ⟨l, hl, ⟨l₁, ⟨l₃, c, l₂, rfl⟩, hbytes⟩, hkeys⟩ := h.log
  refine ⟨⟨ho.heap.trans h.heap, ho.zone.trans h.zone⟩,
    fun p hp => World.dirs_exec w op o p (h.dirs p hp), ⟨op, o⟩ :: _, ?_,
    ⟨l₁, ⟨⟨op, o⟩ :: l₃, c, l₂, rfl⟩, hbytes⟩, ?_⟩
  · rw [World.answers_exec, hl]
    rfl
  · rwa [files_exec_removesSource hop hsk hdata.symm fun now => (tempKey_ne_dataKey sk now _).symm,
      files_exec_removesSource hop hsk hmeta.symm fun now => (tempKey_ne_metaKey sk now _).symm]

include hd

theorem deleteSource_keeps (z : Zone) : (deleteSource source).Keeps (replacing P source)
    (Met w₀ (Kept P source b z m data cipher)) := by
  refine Within.keeps (G := Eq) (within_deleteSource (removingFile_removesSource source)) ?_ ?_ ?_
  · exact fun w w' h hr => (h.replaced hs hd (survives_kept hdata hmeta z) hr).1
  · rintro w _ h rfl
    exact ⟨trivial, h⟩
  · exact fun op hop w o h _ => ⟨trivial, kept_exec hs hdata hmeta hop o h⟩

theorem moveSource_kept (z : Zone) (dataFile metaFile : File)
    (h : Met w₀ (Kept P source b z m data cipher) w) :
    (moveSource source dataFile metaFile).wp (replacing P source) (fun r w' => ∀ u, r = .ok u →
      Met w₀ (Kept P source b z m data cipher) w') w := by
  unfold moveSource
  rw [wp_tryCatch]
  refine wp_mono _ ?_ (deleteSource_keeps hs hd hdata hmeta z w h)
  rintro (e | u) w₁ h₁
  · -- the entry is removed, and the import throws
    dsimp only
    rw [wp_bind]
    have hany : (cleanUp dataFile metaFile).Keeps (replacing P source) fun _ => True :=
      Within.keeps (Within.all _) (fun _ _ _ _ => trivial) (fun _ _ _ _ => ⟨trivial, trivial⟩)
        fun _ _ _ _ _ _ => ⟨trivial, trivial⟩
    refine wp_mono _ ?_ (hany w₁ trivial)
    rintro (e | u) w₂ -
    · exact nofun
    · exact nofun
  · exact fun _ _ => h₁

end Removing

/-- The source was read after the calls `l₁`, when it held `data`. -/
def Copied (source : File) (b data : Bytes) (l : List (Sigma Outcome)) : Prop :=
  ∃ l₂ l₁, l = l₂ ++ ⟨.readAsBytes source, none⟩ :: l₁ ∧ data = contentsAfter source b l₁

theorem survives_copied (data : Bytes) :
    Survives source sk fun l _ => Copied source b data l ∧ True := by
  refine survives_later (T := Copied source b data) (F := fun _ => True) ?_ fun _ _ _ => trivial
  rintro q _ ⟨l₂, l₁, rfl, hdata⟩
  exact ⟨q ++ l₂, l₁, (List.append_assoc ..).symm, hdata⟩

section Importing

variable {kek : Ref} {mimeType : Text} (hs : w.fs.resolve source = some sk)
  (hb : w.fs.files sk = some b)

include hs hb

/-- What an import relies on until its first write. -/
theorem preparing_replacing : Preparing P (replacing P source).ghost False source kek (w.heap kek)
    () (fun _ => ())
    (fun w' => Met w (fun l files => files sk = some (contentsAfter source b l)) w' ∧
      w'.uuids = w.uuids)
    (fun n w' => Met w (fun l files => files sk = some (contentsAfter source b l)) w' ∧
      n = w.uuids)
    (fun n data w' => Met w (fun l _ => Copied source b data l ∧ True) w' ∧ n = w.uuids)
    fun _ => False := by
  have hd := (w.fs.parent sk (by rw [hb]; exact nofun)).1
  have hunread := Met.firm (P := P) hs hd (survives_unread (b := b))
  have hcopied (data : Bytes) := Met.firm (P := P) hs hd (survives_copied (b := b) data)
  have hthere (w' : World) (h : Met w (fun l files => files sk = some (contentsAfter source b l)) w') :
      ∃ l, w'.record.answers = l ++ w.record.answers ∧
        w'.fs.read source = some (contentsAfter source b l) := by
    obtain ⟨l, hl, hfile⟩ := h.log
    exact ⟨l, hl, (Fs.read_of_resolve (Fs.resolve_mono h.dirs hs)).trans hfile⟩
  constructor
  case begun =>
    refine hunread.and ⟨fun w₁ w₂ h hu hr => ?_, fun w₁ w₂ _ hu hq => hq.uuids.trans hu⟩
    exact (h.replaced hs hd survives_unread hr).2.1.trans hu
  case drawn => exact fun n => hunread.and (lasts_const _)
  case read => exact fun n data => (hcopied data).and (lasts_const _)
  case gone₀ => exact lasts_const _
  case gone₁ => exact fun n => lasts_const _
  case missing₀ =>
    intro w' h hn
    obtain ⟨l, -, hread⟩ := hthere w' h.1
    cases hread.symm.trans hn
  case missing₁ =>
    intro n w' h hn
    obtain ⟨l, -, hread⟩ := hthere w' h.1
    cases hread.symm.trans hn
  case length => exact fun w' h => congrArg List.length (congrFun h.1.heap kek)
  case key => exact fun n data w' _ _ _ h _ => congrFun h.1.heap kek
  case draw =>
    intro w' h _
    exact ⟨trivial, ⟨⟨h.1.heap, h.1.zone⟩, h.1.dirs, h.1.log⟩, h.2⟩
  -- what is read is what the writes to the source so far have left
  case reading =>
    intro n w' data h _ hread
    obtain ⟨l, hl, hfile⟩ := hthere w' h.1
    have hq := World.quiet_exec (P := P) w'
      (show ¬ (Op.readAsBytes source).Mutates from id) none
    refine ⟨⟨⟨hq.heap.trans h.1.heap, hq.zone.trans h.1.zone⟩, fun p hp => hq.dirs p (h.1.dirs p hp),
      ⟨.readAsBytes source, none⟩ :: l, ?_, ⟨[], l, rfl, ?_⟩, trivial⟩, h.2⟩
    · rw [World.answers_exec, hl]
      rfl
    · exact Option.some.inj (hread.symm.trans hfile)

theorem importFile_keeping (haes : P.aes.Correct)
    (hfresh : w.fs.files (dataKey P (P.uuid w.uuids)) = none ∧
      w.fs.files (metaKey P (P.uuid w.uuids)) = none) :
    (importFile P source mimeType kek true).wp (replacing P source) (fun r w' => ∀ m, r = .ok m →
      Keeping P source b (w.heap kek) w m w') w := by
  have hd := (w.fs.parent sk (by rw [hb]; exact nofun)).1
  have hdata : sk ≠ dataKey P (P.uuid w.uuids) := by
    rintro rfl
    cases hb.symm.trans hfresh.1
  have hmeta : sk ≠ metaKey P (P.uuid w.uuids) := by
    rintro rfl
    cases hb.symm.trans hfresh.2
  have hname : originalName source ≠ [] := by
    obtain ⟨hname, hnn⟩ := originalName_of_resolve hs
    rwa [hname]
  rw [← gwp_ghost]
  apply importFile_company (preparing_replacing hs hb) hname
    ⟨⟨⟨rfl, rfl⟩, fun _ => id, [], rfl, hb⟩, rfl⟩
  · rintro e w' - - m ⟨⟩
  · rintro n e w' - - m ⟨⟩
  · rintro n data e w' - - m ⟨⟩
  · rintro n data m cipher w₁ ⟨hw₁, rfl⟩ hvault - hid - - hE
    have hE := hE haes
    rw [← hid] at hdata hmeta hE ⊢
    -- what is known after the first write and after the second
    have hwrote : Survives source sk fun l files =>
        (∃ l₁, ReadBefore P source m.id l l₁ ∧ data = contentsAfter source b l₁) ∧
          files (dataKey P m.id) = some cipher := by
      refine survives_later ?_ fun files c h => by rwa [Function.update_of_ne hdata.symm]
      rintro q _ ⟨l₁, ⟨l₃, c, l₂, rfl⟩, hbytes⟩
      exact ⟨l₁, ⟨q ++ l₃, c, l₂, (List.append_assoc ..).symm⟩, hbytes⟩
    have hkept : Survives source sk (Kept P source b w.zone m data cipher) :=
      survives_kept hdata hmeta w.zone
    have hplain := hid ▸ P.uuid_plain w.uuids
    rw [gwp_bind]
    -- what holds of the writes so far survives the writes of others to the source
    have hrely {R : List (Sigma Outcome) → (Key → Option Bytes) → Prop}
        (hR : Survives source sk R) (w₁ w₂ : World)
        (h : Met w R w₁ ∧ w₁.fs.dirs (vaultDir P) = true)
        (hr : (replacing P source).ghost.rely () w₁ w₂) :
        Met w R w₂ ∧ w₂.fs.dirs (vaultDir P) = true := by
      obtain ⟨h₂, -, hdirs⟩ := h.1.replaced hs hd hR hr
      exact ⟨h₂, hdirs _ h.2⟩
    refine gwp_mono _ ?_ (writeEntry_company (fun _ _ _ h => h)
      (hrely (survives_copied data)) (hrely hwrote) (hrely hkept) hplain.1 (fun _ h => h.2)
      (fun _ h => h.2)
      (fun _ h => h.1.zone) ?_ ?_ ⟨hw₁, hvault⟩)
    · rintro r ⟨⟩ w₂ ⟨rfl, -, hw₂, -⟩
      refine (gwp_ghost _).mpr ?_
      dsimp only [when, if_true]
      rw [wp_bind]
      refine wp_mono _ ?_ (moveSource_kept hs hd hdata hmeta w.zone _ _ hw₂)
      rintro (e | u) w₃ h₃
      · rintro m ⟨⟩
      · rintro _ ⟨⟩
        exact ⟨hplain, data, cipher, hE, h₃ u rfl⟩
    · rintro w₂ w₃ ⟨hw₂, hv₂⟩ hdirs hfiles hrefile
      refine ⟨trivial, hw₂.refiled hdirs hrefile ?_, hdirs ▸ hv₂⟩
      rintro _ ⟨⟨l₂, l₁, rfl, hbytes⟩, -⟩
      refine ⟨⟨l₁, ⟨[], cipher, l₂, rfl⟩, hbytes⟩, ?_⟩
      rw [hfiles, Function.update_self]
    · rintro w₂ w₃ ⟨hw₂, hv₂⟩ hdirs hfiles hrefile
      refine ⟨trivial, hw₂.refiled hdirs hrefile ?_, hdirs ▸ hv₂⟩
      rintro _ ⟨⟨l₁, ⟨l₃, c, l₂, rfl⟩, hbytes⟩, hcipher⟩
      refine ⟨⟨l₁, ⟨_ :: l₃, c, l₂, rfl⟩, hbytes⟩, ?_, ?_⟩
      · rwa [hfiles, Function.update_of_ne (dataKey_ne_metaKey _ _)]
      · rw [hfiles, Function.update_self]

/-- **An import has kept what it has read**, whatever another program makes of the source: the
contents of the entry are what the source held when it was read before they were written. -/
theorem importFile_replaced (haes : P.aes.Correct)
    (hfresh : w.fs.files (dataKey P (P.uuid w.uuids)) = none ∧
      w.fs.files (metaKey P (P.uuid w.uuids)) = none) {m : VaultFileMeta}
    (hc : (importFile P source mimeType kek true).Completes (replacing P source) w (.ok m) w') :
    ∃ l l₁, w'.record.answers = l ++ w.record.answers ∧ ReadBefore P source m.id l l₁ ∧
      (exportClear P m.id kek).Returns (faultless P) w' (contentsAfter source b l₁) := by
  obtain ⟨⟨hplain, hne⟩, data, cipher, hE, hmet⟩ :=
    wp_completes (importFile_keeping hs hb haes hfresh) hc m rfl
  obtain ⟨l, hl, ⟨l₁, hread, rfl⟩, hdata, hmeta⟩ := hmet.log
  have hholds : Holds P (w'.heap kek) w'.zone w'.fs.files m.id (contentsAfter source b l₁) := by
    rw [hmet.heap, hmet.zone]
    exact ⟨m, cipher, hE, hmeta, hdata⟩
  exact ⟨l, l₁, hl, hread, exportClear_returns hholds.length_key hplain hne hholds⟩

end Importing

/-! ## A version that is lost -/

/-- The other program writes once, after the import has read the source. -/
def replaceOnce (n : ℕ) (w : World) : World :=
  if n = 6 then (w.exec (.sample .marked) (.writeAsBytes .sample [2]) .done).2 else w

theorem sample_resolves : (World.sample (List.replicate 32 2) [1]).fs.resolve .sample =
    some ⟨["home".toList], "a".toList⟩ := by decide

theorem sample_holds : (World.sample (List.replicate 32 2) [1]).fs.files
    ⟨["home".toList], "a".toList⟩ = some [1] := by decide

/-- The run of an import whose source is replaced after it was read. -/
def replacedImport : Except DartError VaultFileMeta × World :=
  (importFile (.sample .marked) .sample ['t'] 0 true).runBeside (device (.sample .marked))
    (fun _ => usual) replaceOnce 0 (.sample (List.replicate 32 2) [1])

theorem replacedImport_completes : ∃ m : VaultFileMeta, m.id = ['u'] ∧
    (importFile (.sample .marked) .sample ['t'] 0 true).Completes
      (replacing (.sample .marked) .sample) (.sample (List.replicate 32 2) [1]) (.ok m)
      replacedImport.2 := by
  have hok : replacedImport.1.toOption.map (fun m => m.id) = some ['u'] := by decide +kernel
  obtain ⟨m, hm, hid⟩ := Option.map_eq_some_iff.mp hok
  refine ⟨m, hid, ?_⟩
  rw [← ok_of_toOption hm]
  have hall : Removing fun op => ∀ dir, op ≠ .listSync dir := removing_unlisted
  refine Within.completes_runBeside (D := replacing _ _) (S := fun _ => True) (fun w _ => .refl)
    (fun n w _ => ⟨?_, trivial⟩) (fun _ w _ _ h => good_usual w h) (fun _ _ _ _ => trivial)
    (fun _ _ _ _ _ => trivial) (fun _ _ _ _ => trivial)
    (within_importFile (G := fun _ _ => True) hall (fun _ _ _ => nofun) (fun _ _ _ => trivial) _ _ _ _)
    0 trivial
  unfold replaceOnce
  split
  · exact .single (.inr ⟨[2], rfl⟩)
  · exact .refl

/-- The cipher that marks clear texts leaves them readable. -/
theorem marked_opens {cipher fileIv dekWrapped dekWrapIv kek data : Bytes}
    (h : CryptoService.openEnvelope (.sample .marked) cipher fileIv dekWrapped dekWrapIv kek =
      .ok data) : data = cipher.take (cipher.length - 16) := by
  obtain ⟨-, dek, box, -, -, hbox, hopen⟩ := CryptoService.openEnvelope_iff.mp h
  obtain ⟨-, hopen⟩ := CryptoService.open_eq_ok.mp hopen
  unfold CryptoService.splitTag at hbox
  split at hbox
  · cases hbox
  · cases hbox
    simp only [Platform.sample, AesGcm.marked] at hopen
    split at hopen
    · exact (Option.some.inj hopen).symm
    · cases hopen

/-- A version that came after the reading is gone, and the entry does not hold it. -/
theorem importFile_destroys : ∃ m w' l₂ l₁,
    (importFile (.sample .marked) .sample ['t'] 0 true).Completes
      (replacing (.sample .marked) .sample) (.sample (List.replicate 32 2) [1]) (.ok m) w' ∧
    w'.record.answers = l₂ ++ ⟨.delete .sample, .done⟩ :: l₁ ∧
    w'.fs.read .sample = none ∧ contentsAfter .sample [1] l₁ = [2] ∧
    ¬ (exportClear (.sample .marked) m.id 0).Returns (faultless (.sample .marked)) w' [2] := by
  obtain ⟨m, hid, hc⟩ := replacedImport_completes
  refine ⟨m, replacedImport.2, replacedImport.2.record.answers.take 2,
    replacedImport.2.record.answers.drop 3, hc, rfl, by decide +kernel, by decide +kernel, ?_⟩
  obtain ⟨⟨hplain, hne⟩, data, cipher, hE, hmet⟩ :=
    wp_completes (importFile_keeping sample_resolves sample_holds AesGcm.marked_correct (by decide))
      hc m rfl
  obtain ⟨l, -, -, hcipher, hmeta⟩ := hmet.log
  -- the contents of the entry tell what was read
  have hstored : replacedImport.2.fs.files (dataKey (.sample .marked) ['u']) =
      some (1 :: List.replicate 16 1) := by decide +kernel
  obtain ⟨fileIv, dekWrapped, dekWrapIv, -, -, -, hopen⟩ := hE.opens
  have hdata := marked_opens hopen
  rw [hid, hstored] at hcipher
  cases hcipher
  obtain rfl : data = [1] := hdata
  have hholds : Holds (.sample .marked) (replacedImport.2.heap 0) replacedImport.2.zone
      replacedImport.2.fs.files m.id [1] := by
    rw [hmet.heap, hmet.zone]
    exact ⟨m, _, hE, hmeta, hid ▸ hstored⟩
  have hreturns := exportClear_returns hholds.length_key hplain hne hholds
  intro h
  cases h.unique hreturns

theorem importFile_replaced_replacedImport : ∃ (m : VaultFileMeta) (l l₁ : List (Sigma Outcome)),
    replacedImport.2.record.answers = l ++ [] ∧ ReadBefore (.sample .marked) .sample m.id l l₁ ∧
      (exportClear (.sample .marked) m.id 0).Returns (faultless (.sample .marked)) replacedImport.2
        (contentsAfter .sample [1] l₁) := by
  obtain ⟨m, -, hc⟩ := replacedImport_completes
  exact ⟨m, importFile_replaced sample_resolves sample_holds AesGcm.marked_correct (by decide) hc⟩

end VaultRepository

end CajaSegura
