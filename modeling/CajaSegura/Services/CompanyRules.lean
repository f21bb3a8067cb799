import CajaSegura.Async.Ghost
import CajaSegura.Platform.FileRules
import CajaSegura.Services.Entries

/-!
# The vault in company

What an import does while others use the files. Nothing is known of the files but what an assertion
says that the others keep.

## Main definitions

* `Firm`: an assertion that the others keep, whatever they do
* `Ends`: how a stretch ends that changes no file
* `Preparing`: what is asked of the others while an import prepares its entry

## Main results

* `Firm.step`, `Firm.look`: calls that can change nothing
* `VaultRepository.importFile_company`: an import up to its first write
-/

namespace CajaSegura

open Codec Async
open Program hiding bind

variable {P : Platform} {α β Γ : Type}

/-- An assertion that the others keep, whatever they do to the files, and that calls keep which can
change nothing. Directories stay; the errors of calls are due to outcomes for which `F` holds. -/
structure Firm (D : Discipline (device P)) (J : World → Prop) (F : Prop) : Prop where
  rely : ∀ w w', J w → D.rely w w' → J w'
  dirs : ∀ w w', J w → D.rely w w' → ∀ p, w.fs.dirs p = true → w'.fs.dirs p = true
  quiet : ∀ w w', J w → w.Quiet w' → D.guarantee w w' ∧ J w'
  fault : ∀ w op o, D.allow w op o → Good w op o ∨ F

/-- How a stretch ends that changes no file: with a result in `R`, or with an error where `F`. -/
structure Ends (J : World → Prop) (F : Prop) (R : α → World → Prop) (r : Except DartError α)
    (w' : World) : Prop where
  keeps : J w'
  ok : ∀ a, r = .ok a → R a w'
  error : ∀ e, r = .error e → F

variable {D : Discipline (device P)} {J K : World → Prop} {F : Prop} {w : World}

/-- What the others and the calls that can change nothing keep as well. -/
structure Lasts (D : Discipline (device P)) (J K : World → Prop) : Prop where
  rely : ∀ w w', J w → K w → D.rely w w' → K w'
  quiet : ∀ w w', J w → K w → w.Quiet w' → K w'

theorem lasts_const (Q : Prop) : Lasts D J fun _ => Q := ⟨fun _ _ _ h _ => h, fun _ _ _ h _ => h⟩

namespace Firm

theorem and (hJ : Firm D J F) (hK : Lasts D J K) : Firm D (fun w => J w ∧ K w) F where
  rely w w' h hr := ⟨hJ.rely w w' h.1 hr, hK.rely w w' h.1 h.2 hr⟩
  dirs w w' h hr := hJ.dirs w w' h.1 hr
  quiet w w' h hq := by
    obtain ⟨hg, hw'⟩ := hJ.quiet w w' h.1 hq
    exact ⟨hg, hw', hK.quiet w w' h.1 h.2 hq⟩
  fault := hJ.fault

/-- A directory that is there stays. -/
theorem lasts_dir (hJ : Firm D J F) (p : Path) : Lasts D J fun w => w.fs.dirs p = true :=
  ⟨fun w w' h hd hr => hJ.dirs w w' h hr p hd, fun _ _ _ hd hq => hq.dirs p hd⟩

theorem lasts_found (hJ : Firm D J F) {a p : Path} :
    Lasts D J fun w => a = p ∧ w.fs.dirs a = true :=
  ⟨fun w w' h hd hr => ⟨hd.1, hJ.dirs w w' h hr a hd.2⟩,
    fun _ _ _ hd hq => ⟨hd.1, hq.dirs a hd.2⟩⟩

/-- A call that can change nothing. What is known once it is answered may be said by an assertion
`K` that the others keep. -/
theorem step (hJ : Firm D J F) {op : Op} (hop : ¬ op.Mutates) (hw : J w)
    {Q : Except DartError (Reply op) → World → Prop}
    (h : ∀ w₁ o, J w₁ → D.allow w₁ op o → ∃ K : World → Prop, K (w₁.exec P op o).2 ∧
      Lasts D J K ∧ ∀ w₂, J w₂ → K w₂ → Q (w₁.exec P op o).1 w₂) : (call op).wp D Q w := by
  rw [CajaSegura.wp_call]
  intro w₁ h₁ o ho
  have hj₁ := hJ.rely _ _ hw h₁
  obtain ⟨hg, hj₂⟩ := hJ.quiet _ _ hj₁ (World.quiet_exec (P := P) w₁ hop o)
  obtain ⟨K, hK, hlasts, hQ⟩ := h w₁ o hj₁ ho
  refine ⟨hg, fun w₂ h₂ _ => ?_⟩
  exact hQ w₂ (hJ.rely _ _ hj₂ h₂) (hlasts.rely _ _ hj₂ hK h₂)

/-- The return of an asynchronous function of the application. -/
theorem awaited (hJ : Firm D J F) {p : App α} {R : α → World → Prop}
    (hR : ∀ a, Lasts D J (R a)) (hp : p.wp D (Ends J F R) w) :
    (CajaSegura.awaited p).wp D (Ends J F R) w := by
  rw [CajaSegura.wp_awaited]
  refine wp_mono p ?_ hp
  rintro r w₁ ⟨hw₁, hok, herr⟩
  have hhop : ¬ Op.Mutates .hop := id
  cases r with
  | error e =>
    apply hJ.step hhop hw₁
    intro w₂ o _ _
    exact ⟨_, trivial, lasts_const True, fun w₃ hw₃ _ => ⟨hw₃, nofun, herr⟩⟩
  | ok a =>
    apply (hJ.and (hR a)).step hhop ⟨hw₁, hok a rfl⟩
    intro w₂ o _ _
    refine ⟨_, trivial, lasts_const True, fun w₃ hw₃ _ => ⟨hw₃.1, fun b hb => ?_, herr⟩⟩
    cases hb
    exact hw₃.2

/-- A call that changes no file, by what it returns when it works. -/
theorem look (hJ : Firm D J F) {op : Op} (hop : op.Looks) (hw : J w)
    {R : Reply op → World → Prop} (hR : ∀ a, Lasts D J (R a))
    (h : ∀ w₁ o, J w₁ → D.allow w₁ op o → Good w₁ op o →
      ∃ a, (w₁.exec P op o).1 = .ok a ∧ R a (w₁.exec P op o).2) :
    (call op).wp D (Ends J F R) w := by
  apply hJ.step hop.not_mutates hw
  intro w₁ o hw₁ ho
  by_cases hgood : Good w₁ op o
  · obtain ⟨a, ha, ha'⟩ := h w₁ o hw₁ ho hgood
    refine ⟨R a, ha', hR a, fun w₂ hw₂ hR₂ => ?_⟩
    rw [ha]
    refine ⟨hw₂, fun b hb => ?_, fun e he => nomatch he⟩
    cases hb
    exact hR₂
  · obtain ⟨e, he⟩ := hop.error (P := P) hgood
    refine ⟨fun _ => True, trivial, lasts_const True, fun w₂ hw₂ _ => ?_⟩
    rw [he]
    exact ⟨hw₂, fun a ha => (nomatch ha), fun _ _ => (hJ.fault _ _ _ ho).resolve_left hgood⟩

end Firm

namespace Ends

variable {R : α → World → Prop} {S : β → World → Prop}

theorem pure {a : α} (hw : J w) (ha : R a w) : (Pure.pure a : App α).wp D (Ends J F R) w := by
  refine ⟨hw, fun b hb => ?_, fun e he => nomatch he⟩
  cases hb
  exact ha

theorem bind {p : App α} {f : α → App β} (hp : p.wp D (Ends J F R) w)
    (hf : ∀ a w', J w' → R a w' → (f a).wp D (Ends J F S) w') :
    (p >>= f).wp D (Ends J F S) w := by
  rw [wp_bind]
  refine wp_mono p ?_ hp
  rintro (e | a) w' ⟨hw', hok, herr⟩
  · exact ⟨hw', fun _ ha => (nomatch ha), fun _ _ => herr e rfl⟩
  · exact hf a w' hw' (hok a rfl)

/-- A first part that changes no file, before a program with a ghost state. -/
theorem seq {D : GhostDiscipline (device P) Γ} {γ : Γ} {p : App α} {f : α → App β}
    {Q : Except DartError β → Γ → World → Prop} (hp : p.wp (D.fixed γ) (Ends J F R) w)
    (he : F → ∀ e w', J w' → Q (.error e) γ w')
    (hf : ∀ a w', J w' → R a w' → (f a).gwp D Q γ w') : (p >>= f).gwp D Q γ w := by
  apply gwp_then hp
  · rintro a w' ⟨hw', hok, -⟩
    exact hf a w' hw' (hok a rfl)
  · rintro e w' ⟨hw', -, herr⟩
    exact he (herr e rfl) e w' hw'

end Ends

/-! ## Preparing an entry -/

namespace VaultRepository

theorem ensureVaultDir_firm (hJ : Firm D J F) (hw : J w) :
    ensureVaultDir.wp D (Ends J F fun a w' => a = vaultDir P ∧ w'.fs.dirs a = true) w := by
  have hvault := hJ.lasts_dir (vaultDir P)
  unfold ensureVaultDir
  have hdir : (call .supportDirectory).wp D (Ends J F fun a _ => a = P.supportDir) w := by
    apply hJ.look (by trivial) hw fun a => lasts_const _
    rintro w₁ o _ _ rfl
    exact ⟨_, rfl, rfl⟩
  apply Ends.bind hdir
  rintro _ w₁ hw₁ rfl
  have hthere : (call (.dirExists (vaultDir P))).wp D
      (Ends J F fun b w' => b = true → w'.fs.dirs (vaultDir P) = true) w₁ := by
    refine hJ.look (by trivial) hw₁ (fun b => ?_) ?_
    · exact ⟨fun w w' h hb hr hb' => hvault.rely w w' h (hb hb') hr,
        fun w w' h hb hq hb' => hvault.quiet w w' h (hb hb') hq⟩
    · rintro w₂ o _ _ rfl
      exact ⟨_, rfl, fun h => h⟩
  apply Ends.bind hthere
  intro b w₂ hw₂ hb
  have hcreate : (when (!b) (call (.dirCreate (vaultDir P)))).wp D
      (Ends J F fun _ w' => w'.fs.dirs (vaultDir P) = true) w₂ := by
    -- nobody removes the directory once it has been seen
    cases b with
    | true => exact Ends.pure hw₂ (hb rfl)
    | false =>
      apply hJ.look (by trivial) hw₂ fun _ => hvault
      rintro w₃ o _ _ rfl
      refine ⟨_, rfl, ?_⟩
      simp [World.exec, World.effect, World.onFiles, Fs.onCreate, Fs.create]
  apply Ends.bind hcreate
  intro _ w₃ hw₃ hd
  exact Ends.pure hw₃ ⟨rfl, hd⟩

/-- Random bytes. -/
theorem randomBytes_firm (hJ : Firm D J F) (hw : J w) (length : ℕ) :
    (awaited (CryptoService.randomBytes P length)).wp D
      (Ends J F fun a _ => a.length = length) w := by
  apply hJ.awaited fun a => lasts_const _
  have hq : w.Quiet { w with drawn := w.drawn + length } := by
    constructor
    · exact ⟨rfl, fun _ => id, rfl, rfl⟩
    · exact ⟨[], rfl, nofun⟩
    all_goals rfl
  obtain ⟨hg, hj⟩ := hJ.quiet _ _ hw hq
  refine ⟨hg, hj, fun a ha => ?_, fun e he => nomatch he⟩
  cases ha
  exact CryptoService.length_drawn _ _

/-- An encryption under a key buffer that holds `kek` whenever it is used. -/
theorem encryptWithWrappedKey_firm (hJ : Firm D J F) {kek : Bytes} {r : Ref} (hk : kek.length = 32)
    (hkey : ∀ w clear nonce o, J w → D.allow w (.encrypt clear (.buffer r) nonce) o →
      w.heap r = kek) (data : Bytes) (hw : J w) :
    (CryptoService.encryptWithWrappedKey P data r).wp D (Ends J F fun b _ =>
      ∃ dek fileIv dekWrapIv, (dek.length = 32 ∧ fileIv.length = 12 ∧ dekWrapIv.length = 12) ∧
        b = CryptoService.bundleOf P dek fileIv dekWrapIv kek data) w := by
  unfold CryptoService.encryptWithWrappedKey
  apply Ends.bind (randomBytes_firm hJ hw 32)
  intro dek w₁ hw₁ hdek
  apply Ends.bind (randomBytes_firm hJ hw₁ 12)
  intro fileIv w₂ hw₂ hfile
  apply Ends.bind (randomBytes_firm hJ hw₂ 12)
  intro dekWrapIv w₃ hw₃ hwrap
  -- the key just drawn has the length that the cipher wants
  have hbox : (call (.encrypt data (.bytes dek) fileIv)).wp D
      (Ends J F fun a _ => a = P.aes.encrypt dek fileIv data) w₃ := by
    apply hJ.look (by trivial) hw₃ fun a => lasts_const _
    rintro w₄ o _ _ rfl
    refine ⟨P.aes.encrypt dek fileIv data, ?_, rfl⟩
    simp [World.exec, World.effect, World.encryptUnder, World.keyBytes, hdek]
  apply Ends.bind hbox
  rintro _ w₄ hw₄ rfl
  have hwrapped : (call (.encrypt dek (.buffer r) dekWrapIv)).wp D
      (Ends J F fun a _ => a = P.aes.encrypt kek dekWrapIv dek) w₄ := by
    apply hJ.look (by trivial) hw₄ fun a => lasts_const _
    rintro w₅ o hw₅ ho rfl
    have hr : w₅.keyBytes (.buffer r) = kek := hkey _ _ _ _ hw₅ ho
    refine ⟨P.aes.encrypt kek dekWrapIv dek, ?_, rfl⟩
    simp [World.exec, World.effect, World.encryptUnder, hr, hk]
  apply Ends.bind hwrapped
  rintro _ w₅ hw₅ rfl
  exact Ends.pure hw₅ ⟨dek, fileIv, dekWrapIv, ⟨hdek, hfile, hwrap⟩, rfl⟩

/-- The metadata of an import; only an empty type is ever rejected. -/
theorem makeMeta_firm {source : File} {mimeType id : Text} {bytes : Bytes} {bundle : Bundle}
    (hw : J w) (hname : originalName source ≠ []) (hid : id ≠ [])
    (hb : bundle.fileIv ≠ [] ∧ bundle.dekWrapIv ≠ [] ∧ bundle.dekWrapped ≠ []) :
    (makeMeta P source mimeType id bytes bundle).wp D
      (Ends J (P.asserts = true ∧ (mimeType = [] ∨ 2 ^ 63 ≤ bytes.length)) fun m _ =>
        VaultFileMeta.make P.asserts m = .ok m ∧ m.id = id ∧ Describes J source mimeType m ∧
        m.originalSize = dartLength bytes ∧ m.fileIvB64 = Base64.encode bundle.fileIv ∧
        m.dekWrapIvB64 = Base64.encode bundle.dekWrapIv ∧
        m.dekWrappedB64 = Base64.encode bundle.dekWrapped) w := by
  unfold makeMeta
  rw [wp_read, wp_done]
  refine ⟨hw, fun m hm => ?_, fun e he => ?_⟩
  · obtain rfl := VaultFileMeta.make_eq_ok hm
    exact ⟨hm, rfl, ⟨rfl, rfl, w, hw, rfl⟩, rfl, rfl, rfl, rfl⟩
  · obtain ⟨ha, hv⟩ := VaultFileMeta.make_eq_error he
    refine ⟨ha, ?_⟩
    by_cases hm : mimeType = []
    · exact .inl hm
    refine .inr (not_lt.mp fun hl => hv ?_)
    obtain ⟨h₁, h₂, h₃⟩ := hb
    have hs : 0 ≤ dartLength bytes := by
      rw [dartLength_of_lt hl]
      omega
    simp [VaultFileMeta.Valid, VaultFileMeta.assertions, hid, hname, hm, hs,
      Base64.encode_ne_nil h₁, Base64.encode_ne_nil h₂, Base64.encode_ne_nil h₃]

/-- What is asked of the others while an import prepares its entry. `J₀` is known until it draws its
identifier, then `J₁` and, when it has read its source, `J₂`; `N` says that the source is gone. -/
structure Preparing (P : Platform) (D : GhostDiscipline (device P) Γ) (F : Prop) (source : File)
    (r : Ref) (kek : Bytes) (γ₀ : Γ) (γ₁ : ℕ → Γ) (J₀ : World → Prop) (J₁ : ℕ → World → Prop)
    (J₂ : ℕ → Bytes → World → Prop) (N : World → Prop) : Prop where
  begun : Firm (D.fixed γ₀) J₀ F
  drawn : ∀ n, Firm (D.fixed (γ₁ n)) (J₁ n) F
  read : ∀ n b, Firm (D.fixed (γ₁ n)) (J₂ n b) F
  gone₀ : Lasts (D.fixed γ₀) J₀ N
  gone₁ : ∀ n, Lasts (D.fixed (γ₁ n)) (J₁ n) N
  missing₀ : ∀ w, J₀ w → w.fs.read source = none → N w
  missing₁ : ∀ n w, J₁ n w → w.fs.read source = none → N w
  length : ∀ w, J₀ w → (w.heap r).length = kek.length
  key : ∀ n b w clear nonce o, J₂ n b w → D.allow w (.encrypt clear (.buffer r) nonce) o →
    w.heap r = kek
  draw : ∀ w, J₀ w → w.fs.dirs (vaultDir P) = true →
    D.guarantee γ₀ (γ₁ w.uuids) w { w with uuids := w.uuids + 1 } ∧
      J₁ w.uuids { w with uuids := w.uuids + 1 }
  reading : ∀ n w b, J₁ n w → D.allow w (.readAsBytes source) none → w.fs.read source = some b →
    J₂ n b (w.exec P (.readAsBytes source) none).2

section Preparing

variable {D : GhostDiscipline (device P) Γ} {source : File} {r : Ref} {kek : Bytes} {γ₀ : Γ}
  {γ₁ : ℕ → Γ} {J₀ : World → Prop} {J₁ : ℕ → World → Prop} {J₂ : ℕ → Bytes → World → Prop}
  {N : World → Prop}

/-- The vault is there and stays. -/
theorem Preparing.vault (hP : Preparing P D F source r kek γ₀ γ₁ J₀ J₁ J₂ N) :
    Preparing P D F source r kek γ₀ γ₁ J₀ (fun n w => J₁ n w ∧ w.fs.dirs (vaultDir P) = true)
      (fun n b w => J₂ n b w ∧ w.fs.dirs (vaultDir P) = true) N where
  begun := hP.begun
  drawn n := (hP.drawn n).and ((hP.drawn n).lasts_dir _)
  read n b := (hP.read n b).and ((hP.read n b).lasts_dir _)
  gone₀ := hP.gone₀
  gone₁ n := ⟨fun w w' h => (hP.gone₁ n).rely w w' h.1, fun w w' h => (hP.gone₁ n).quiet w w' h.1⟩
  missing₀ := hP.missing₀
  missing₁ n w h := hP.missing₁ n w h.1
  length := hP.length
  key n b w clear nonce o h := hP.key n b w clear nonce o h.1
  draw w h hd := ⟨(hP.draw w h hd).1, (hP.draw w h hd).2, hd⟩
  reading n w b h ho hb := ⟨hP.reading n w b h.1 ho hb,
    (World.quiet_exec w (show ¬ (Op.readAsBytes source).Mutates from id) none).dirs _ h.2⟩

/-- The first look for the source. -/
theorem Preparing.fileExists (hP : Preparing P D F source r kek γ₀ γ₁ J₀ J₁ J₂ N) (hw : J₀ w) :
    (call (.fileExists source)).wp (D.fixed γ₀) (Ends J₀ F fun b w' => b = false → N w') w := by
  refine hP.begun.look (by trivial) hw (fun b => ?_) ?_
  · exact ⟨fun w w' h hb hr hb' => hP.gone₀.rely w w' h (hb hb') hr,
      fun w w' h hb hq hb' => hP.gone₀.quiet w w' h (hb hb') hq⟩
  · rintro w₁ o hw₁ _ rfl
    refine ⟨_, rfl, fun h => ?_⟩
    have hgone := hP.missing₀ w₁ hw₁ (by simpa using h)
    exact hP.gone₀.quiet _ _ hw₁ hgone
      (World.quiet_exec w₁ (show ¬ (Op.fileExists source).Mutates from id) none)

/-- The source is read, or it is gone. -/
theorem Preparing.readAsBytes (hP : Preparing P D F source r kek γ₀ γ₁ J₀ J₁ J₂ N) {n : ℕ}
    (hw : J₁ n w) : (call (.readAsBytes source)).wp (D.fixed (γ₁ n))
      (fun x w' => (∃ b, x = .ok b ∧ J₂ n b w') ∨ (∃ e, x = .error e) ∧ J₁ n w' ∧ (F ∨ N w')) w := by
  apply (hP.drawn n).step id hw
  intro w₁ o hw₁ ho
  by_cases hgood : Good w₁ (.readAsBytes source) o
  · obtain rfl : o = none := hgood
    cases hb : w₁.fs.read source with
    | none =>
      have herr : ∃ e, (w₁.exec P (.readAsBytes source) none).1 = .error e := by
        simp [World.exec, World.effect, World.readFile, hb]
      have hgone := (hP.gone₁ n).quiet _ _ hw₁ (hP.missing₁ n w₁ hw₁ hb)
        (World.quiet_exec (P := P) w₁ (show ¬ (Op.readAsBytes source).Mutates from id) none)
      exact ⟨N, hgone, hP.gone₁ n, fun w₂ hw₂ hN => .inr ⟨herr, hw₂, .inr hN⟩⟩
    | some b =>
      have hok : (w₁.exec P (.readAsBytes source) none).1 = .ok b := by
        simp only [World.exec, World.effect, World.readFile, hb]
      have hlasts : Lasts (D.fixed (γ₁ n)) (J₁ n) (J₂ n b) :=
        ⟨fun w w' _ h hr => (hP.read n b).rely w w' h hr,
          fun w w' _ h hq => ((hP.read n b).quiet w w' h hq).2⟩
      exact ⟨J₂ n b, hP.reading n w₁ b hw₁ ho hb, hlasts, fun w₂ _ h => .inl ⟨b, hok, h⟩⟩
  · have hF : F := ((hP.drawn n).fault _ _ _ ho).resolve_left hgood
    have hlooks : (Op.readAsBytes source).Looks := trivial
    have herr := hlooks.error (P := P) hgood
    exact ⟨_, trivial, lasts_const True, fun w₂ hw₂ _ => .inr ⟨herr, hw₂, .inl hF⟩⟩

/-- **An import up to its first write**, in the company of programs that use the files as well. -/
theorem importFile_company (hP : Preparing P D F source r kek γ₀ γ₁ J₀ J₁ J₂ N)
    (hname : originalName source ≠ []) {mimeType : Text} {moveFile : Bool} (hw : J₀ w)
    {Q : Except DartError VaultFileMeta → Γ → World → Prop}
    (hbegun : ∀ e w', J₀ w' → F ∨ N w' ∨ kek.length ≠ 32 → Q (.error e) γ₀ w')
    (hdrawn : ∀ n e w', J₁ n w' → F ∨ N w' → Q (.error e) (γ₁ n) w')
    (hread : ∀ n b e w', J₂ n b w' → F ∨ b = [] ∨
      P.asserts = true ∧ (mimeType = [] ∨ 2 ^ 63 ≤ b.length) → Q (.error e) (γ₁ n) w')
    (hwrite : ∀ n b m cipher w', J₂ n b w' → w'.fs.dirs (vaultDir P) = true → b ≠ [] →
      m.id = P.uuid n → m.Readable P → Describes (J₂ n b) source mimeType m →
      (P.aes.Correct → Entry P kek (P.uuid n) b m cipher) →
      (do
        writeEntry m cipher (dataFileOf (vaultDir P) (P.uuid n))
          (metaFileOf (vaultDir P) (P.uuid n))
        when moveFile (moveSource source (dataFileOf (vaultDir P) (P.uuid n))
          (metaFileOf (vaultDir P) (P.uuid n)))
        return m : App VaultFileMeta).gwp D Q (γ₁ n) w') :
    (importFile P source mimeType r moveFile).gwp D Q γ₀ w := by
  have hfail : F → ∀ e w', J₀ w' → Q (.error e) γ₀ w' := fun h e w' hw' => hbegun e w' hw' (.inl h)
  unfold importFile
  apply Ends.seq (hP.fileExists hw) hfail
  intro there w₁ hw₁ hthere
  cases there with
  -- the source is not found
  | false => exact hbegun _ w₁ hw₁ (.inr (.inl (hthere rfl)))
  | true =>
    simp only [Bool.not_true, when, Bool.false_eq_true, if_false]
    rw [gwp_bind, gwp_pure]
    dsimp only
    rw [gwp_bind, gwp_get]
    dsimp only
    rw [hP.length w₁ hw₁]
    by_cases hk : kek.length = 32
    -- the key in memory has another length
    case neg =>
      rw [if_pos (bne_iff_ne.mpr hk)]
      exact hbegun _ w₁ hw₁ (.inr (.inr hk))
    rw [if_neg (by simp [hk]), gwp_bind, gwp_pure]
    dsimp only
    apply Ends.seq (hP.begun.awaited (fun a => hP.begun.lasts_found)
      (ensureVaultDir_firm hP.begun hw₁)) hfail
    rintro _ w₂ hw₂ ⟨rfl, hd₂⟩
    -- the identifier is drawn here; from now on its files are the import's own
    obtain ⟨hg, hw₃⟩ := hP.draw w₂ hw₂ hd₂
    rw [gwp_bind, v4, gwp_getModify]
    refine ⟨_, hg, ?_⟩
    dsimp only
    have hV := hP.vault
    have hw₃ := And.intro hw₃ hd₂
    generalize w₂.uuids = n at hw₃ ⊢
    apply gwp_then (hV.readAsBytes hw₃)
    · rintro a w₄ (⟨b, hb, hw₄⟩ | ⟨⟨e, he⟩, -⟩)
      case inr => cases he
      cases hb
      have hfail₂ : F → ∀ e w', J₂ n a w' ∧ w'.fs.dirs (vaultDir P) = true →
          Q (.error e) (γ₁ n) w' := fun h e w' hw' => hread n a e w' hw'.1 (.inl h)
      -- an empty source is rejected, after the identifier has been drawn
      cases hempty : a.isEmpty with
      | true =>
        have hnil : a = [] := List.isEmpty_iff.mp hempty
        exact hread n a _ w₄ hw₄.1 (.inr (.inl hnil))
      | false =>
        have hnil : a ≠ [] := by
          rintro rfl
          cases hempty
        simp only [Bool.false_eq_true, if_false]
        rw [gwp_bind, gwp_pure]
        dsimp only
        apply Ends.seq ((hV.read n a).awaited (fun _ => lasts_const _)
          (encryptWithWrappedKey_firm (hV.read n a) hk
            (fun w clear nonce o h => hV.key n a w clear nonce o h) a hw₄)) hfail₂
        rintro _ w₅ hw₅ ⟨dek, fileIv, dekWrapIv, ⟨hdek, hfile, hwrap⟩, rfl⟩
        -- none of the parts is empty, so that no assertion about them fails
        have hbundle : fileIv ≠ [] ∧ dekWrapIv ≠ [] ∧
            (CryptoService.bundleOf P dek fileIv dekWrapIv kek a).dekWrapped ≠ [] :=
          ⟨List.ne_nil_of_length_pos (by omega), List.ne_nil_of_length_pos (by omega),
            CryptoService.concat_ne_nil kek dekWrapIv dek⟩
        refine Ends.seq (makeMeta_firm (J := fun w => J₂ n a w ∧ w.fs.dirs (vaultDir P) = true)
          hw₅ hname (P.uuid_plain n).2 hbundle)
          (fun h e w' hw' => hread n a e w' hw'.1 (.inr (.inr h))) ?_
        rintro m w₆ hw₆ ⟨hm, hid, hM, hsize, hiv, hwiv, hwd⟩
        have hutc := hM.isUtc
        apply Ends.seq ((hV.read n a).awaited (fun _ => lasts_const _)
          (Ends.pure (R := fun f _ => f = dataFileOf (vaultDir P) (P.uuid n)) hw₆ rfl)) hfail₂
        rintro _ w₇ hw₇ rfl
        apply Ends.seq ((hV.read n a).awaited (fun _ => lasts_const _)
          (Ends.pure (R := fun f _ => f = metaFileOf (vaultDir P) (P.uuid n)) hw₇ rfl)) hfail₂
        rintro _ w₈ hw₈ rfl
        apply hwrite n a m _ w₈ hw₈.1 hw₈.2 hnil hid ⟨hm, hutc, hsize ▸ dartLength_bounds a⟩
        · obtain ⟨w₀, hw₀, hcreated⟩ := hM.createdAt
          exact ⟨hM.originalName, hM.mimeType, w₀, hw₀.1, hcreated⟩
        · exact fun haes => entry_of_bundle haes hk hdek hm hid hutc hsize hiv hwiv hwd
    · rintro e w₄ (⟨b, hb, -⟩ | ⟨-, hw₄, h⟩)
      · cases hb
      · exact hdrawn n e w₄ hw₄.1 h

end Preparing

end VaultRepository

/-! ## Writing an entry -/

section Writing

variable {D : GhostDiscipline (device P) Γ} {γ : Γ} {f : File} {k : Key}

theorem gwp_call {op : Op} {Q : Except DartError (Reply op) → Γ → World → Prop} :
    (call op).gwp D Q γ w ↔ ∀ w₁, D.rely γ w w₁ → ∀ o, D.allow w₁ op o →
      ∃ γ', D.guarantee γ γ' w₁ (w₁.exec P op o).2 ∧ ∀ w₂, D.rely γ' (w₁.exec P op o).2 w₂ →
        D.deliver w₂ op (w₁.exec P op o).1 → Q (w₁.exec P op o).1 γ' w₂ := gwp_perform

/-- A write that works, to a file whose place the others leave alone. -/
theorem gwp_write (hgood : ∀ w op o, D.allow w op o → Good w op o)
    (hJ : ∀ w w', J w → D.rely γ w w' → J w')
    (hf : ∀ w, J w → w.fs.resolve f = some k ∧ w.fs.dirs k.dir = true) {b : Bytes}
    {Q : Except DartError Unit → Γ → World → Prop} (hw : J w)
    (h : ∀ w₁ w' : World, J w₁ → w'.fs.dirs = w₁.fs.dirs →
      w'.fs.files = Function.update w₁.fs.files k (some b) →
      w' = w₁.refile w'.fs (⟨.writeAsBytes f b, .done⟩ :: w₁.record.answers) →
      ∃ γ', D.guarantee γ γ' w₁ w' ∧ ∀ w₂, D.rely γ' w' w₂ → Q (.ok ()) γ' w₂) :
    (call (.writeAsBytes f b)).gwp D Q γ w := by
  rw [gwp_call]
  intro w₁ h₁ o ho
  obtain rfl : o = .done := hgood _ _ _ ho
  have hw₁ := hJ _ _ hw h₁
  obtain ⟨fs, hdirs, hfiles, hexec⟩ := World.exec_write (P := P) (hf w₁ hw₁).1 (hf w₁ hw₁).2 b
  obtain ⟨γ', hg, hQ⟩ := h w₁ (w₁.refile fs (⟨.writeAsBytes f b, .done⟩ :: w₁.record.answers)) hw₁
    hdirs hfiles rfl
  rw [hexec]
  exact ⟨γ', hg, fun w₂ h₂ _ => hQ w₂ h₂⟩

/-- A deletion of a file that others may have deleted. -/
theorem gwp_delete (hgood : ∀ w op o, D.allow w op o → Good w op o)
    (hJ : ∀ w w', J w → D.rely γ w w' → J w') (hf : ∀ w, J w → w.fs.resolve f = some k)
    {Q : Except DartError Unit → Γ → World → Prop} (hw : J w)
    (h : ∀ (w₁ w' : World) r, J w₁ → w'.fs.dirs = w₁.fs.dirs →
      w'.fs.files = Function.update w₁.fs.files k none → (r = .ok () ↔ w₁.fs.files k ≠ none) →
      w' = w₁.refile w'.fs (⟨.delete f, .done⟩ :: w₁.record.answers) →
      ∃ γ', D.guarantee γ γ' w₁ w' ∧ ∀ w₂, D.rely γ' w' w₂ → Q r γ' w₂) :
    (call (.delete f)).gwp D Q γ w := by
  rw [gwp_call]
  intro w₁ h₁ o ho
  obtain rfl : o = .done := hgood _ _ _ ho
  have hw₁ := hJ _ _ hw h₁
  obtain ⟨r, fs, hdirs, hfiles, hr, hexec⟩ := World.exec_delete (P := P) (hf w₁ hw₁)
  obtain ⟨γ', hg, hQ⟩ := h w₁ (w₁.refile fs (⟨.delete f, .done⟩ :: w₁.record.answers)) r hw₁
    hdirs hfiles hr rfl
  rw [hexec]
  exact ⟨γ', hg, fun w₂ h₂ _ => hQ w₂ h₂⟩

/-- **The two writes of an import**, in the company of programs that use the files as well. `J` is
known before them, `J₁` after the first and `J₂` after the second. -/
theorem VaultRepository.writeEntry_company {γ₁ γ₂ : Γ} {J₁ J₂ : World → Prop}
    (hgood : ∀ w op o, D.allow w op o → Good w op o) (hJ : ∀ w w', J w → D.rely γ w w' → J w')
    (hJ₁ : ∀ w w', J₁ w → D.rely γ₁ w w' → J₁ w') (hJ₂ : ∀ w w', J₂ w → D.rely γ₂ w w' → J₂ w')
    {id : Text} (hid : '/' ∉ id) (hd : ∀ w, J w → w.fs.dirs (vaultDir P) = true)
    (hd₁ : ∀ w, J₁ w → w.fs.dirs (vaultDir P) = true) {z : Zone} (hz : ∀ w, J₁ w → w.zone = z)
    {m : VaultFileMeta} {cipher : Bytes}
    (hdata : ∀ w w' : World, J w → w'.fs.dirs = w.fs.dirs →
      w'.fs.files = Function.update w.fs.files (dataKey P id) (some cipher) →
      w' = w.refile w'.fs (⟨.writeAsBytes (dataFileOf (vaultDir P) id) cipher, .done⟩ ::
        w.record.answers) → D.guarantee γ γ₁ w w' ∧ J₁ w')
    (hmeta : ∀ w w' : World, J₁ w → w'.fs.dirs = w.fs.dirs →
      w'.fs.files = Function.update w.fs.files (metaKey P id) (some (metaBytes z m)) →
      w' = w.refile w'.fs (⟨.writeAsBytes (metaFileOf (vaultDir P) id) (metaBytes z m), .done⟩ ::
        w.record.answers) → D.guarantee γ₁ γ₂ w w' ∧ J₂ w') (hw : J w) :
    (writeEntry m cipher (dataFileOf (vaultDir P) id) (metaFileOf (vaultDir P) id)).gwp D
      (fun r γ' w' => r = .ok () ∧ γ' = γ₂ ∧ J₂ w') γ w := by
  unfold writeEntry
  rw [gwp_bind]
  apply gwp_write hgood hJ (fun w' h => ⟨resolve_data w'.fs hid, hd w' h⟩) hw
  intro w₁ w₂ hw₁ hdirs hfiles hw₂
  obtain ⟨hg, hw₂⟩ := hdata w₁ w₂ hw₁ hdirs hfiles hw₂
  refine ⟨γ₁, hg, fun w₃ h₃ => ?_⟩
  have hw₃ := hJ₁ _ _ hw₂ h₃
  dsimp only
  rw [gwp_bind, gwp_get]
  dsimp only
  rw [hz w₃ hw₃]
  apply gwp_write hgood hJ₁ (fun w' h => ⟨resolve_meta w'.fs hid, hd₁ w' h⟩) hw₃
  intro w₄ w₅ hw₄ hdirs hfiles hw₅
  obtain ⟨hg, hw₅⟩ := hmeta w₄ w₅ hw₄ hdirs hfiles hw₅
  exact ⟨γ₂, hg, fun w₆ h₆ => ⟨rfl, rfl, hJ₂ _ _ hw₅ h₆⟩⟩

end Writing

end CajaSegura
