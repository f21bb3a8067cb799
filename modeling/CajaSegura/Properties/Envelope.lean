import CajaSegura.Platform.Sample
import CajaSegura.Services.CryptoService
import Mathlib.Data.List.Nodup

/-!
# The envelope is sound and complete

## Main definitions

* `Envelope`, `Sealed`: a call of `encryptWithWrappedKey`, and the runs of such calls

## Main results

* `CryptoService.encryptWithWrappedKey_wp`: what a call returns and which encryptions it makes
* `CryptoService.decrypt_iff`: a decryption returns exactly what one earlier call was given
-/

namespace CajaSegura

open Codec Async
open Program hiding bind

namespace CryptoService

variable {P : Platform}

/-! ## One call -/

/-- What a call of `encryptWithWrappedKey` made in `w₀` depends on, after some of its steps. -/
structure At (w₀ : World) (n : ℕ) (es : List Encryption) (w : World) : Prop where
  heap : w.heap = w₀.heap
  drawn : w.drawn = n
  encryptions : w.record.encryptions = es

variable {w₀ w : World} {n : ℕ} {es : List Encryption}

theorem At.passes {w' : World} (h : At w₀ n es w) (ht : TimePasses w w') : At w₀ n es w' := by
  obtain ⟨t, rfl⟩ := ht
  exact ⟨h.heap, h.drawn, h.encryptions⟩

theorem randomBytes_at (h : At w₀ n es w) (length : ℕ) :
    (awaited (randomBytes P length)).wp (faultless P)
      (fun r w => ∃ a, r = .ok a ∧ a = drawn P n length ∧ At w₀ (n + length) es w) w := by
  obtain ⟨hh, rfl, he⟩ := h
  have h : At w₀ (w.drawn + length) es { w with drawn := w.drawn + length } := ⟨hh, rfl, he⟩
  rw [wp_awaited, randomBytes, wp_getModify]
  refine ⟨trivial, wp_call.mpr ?_⟩
  intro w₁ h₁ o _
  obtain ⟨hh, hd, he⟩ := h.passes h₁
  have hhop : At w₀ (w.drawn + length) es (w₁.exec P .hop o).2 := ⟨hh, hd, he⟩
  exact ⟨trivial, fun w₂ h₂ _ => ⟨_, rfl, rfl, hhop.passes h₂⟩⟩

theorem encrypt_at (h : At w₀ n es w) (clear : Bytes) (key : SecretKey) (nonce : Bytes)
    (hk : (w₀.keyBytes key).length = 32) :
    (call (.encrypt clear key nonce)).wp (faultless P)
      (fun r w => ∃ a, r = .ok a ∧ a = P.aes.encrypt (w₀.keyBytes key) nonce clear ∧
        At w₀ n (⟨w₀.keyBytes key, nonce, clear⟩ :: es) w) w := by
  rw [wp_call]
  rintro w₁ h₁ o rfl
  obtain ⟨hh, hd, he⟩ := h.passes h₁
  have hkey : w₁.keyBytes key = w₀.keyBytes key := by
    cases key with
    | bytes b => rfl
    | buffer r => exact congrFun hh r
  have hexec : w₁.exec P (.encrypt clear key nonce) none =
      (.ok (P.aes.encrypt (w₀.keyBytes key) nonce clear), { w₁ with record := {
        w₁.record with
          encryptions := ⟨w₀.keyBytes key, nonce, clear⟩ :: w₁.record.encryptions
          answers := ⟨.encrypt clear key nonce, none⟩ :: w₁.record.answers } }) := by
    simp only [World.exec, World.effect, World.encryptUnder, hkey, hk, if_true]
  rw [hexec]
  have hcall : At w₀ n (⟨w₀.keyBytes key, nonce, clear⟩ :: es) { w₁ with record := {
      w₁.record with
        encryptions := ⟨w₀.keyBytes key, nonce, clear⟩ :: w₁.record.encryptions
        answers := ⟨.encrypt clear key nonce, none⟩ :: w₁.record.answers } } :=
    ⟨hh, hd, congrArg (_ :: ·) he⟩
  exact ⟨trivial, fun w₂ h₂ _ => ⟨_, rfl, rfl, hcall.passes h₂⟩⟩

/-- A call made alone and without failures. -/
theorem encryptWithWrappedKey_wp {data : Bytes} {r : Ref} (hk : (w.heap r).length = 32) :
    (encryptWithWrappedKey P data r).wp (faultless P) (fun x w' => ∃ fileIv dekWrapIv,
      x = .ok (bundleOf P (drawn P w.drawn 32) fileIv dekWrapIv (w.heap r) data) ∧
      w'.record.encryptions = ⟨w.heap r, dekWrapIv, drawn P w.drawn 32⟩ ::
        ⟨drawn P w.drawn 32, fileIv, data⟩ :: w.record.encryptions) w := by
  unfold encryptWithWrappedKey
  have h : At w w.drawn w.record.encryptions w := ⟨rfl, rfl, rfl⟩
  apply wp_then _ (randomBytes_at h 32)
  rintro dek w₁ ⟨rfl, h⟩
  apply wp_then _ (randomBytes_at h 12)
  rintro fileIv w₂ ⟨rfl, h⟩
  apply wp_then _ (randomBytes_at h 12)
  rintro dekWrapIv w₃ ⟨rfl, h⟩
  apply wp_then _ (encrypt_at h data (.bytes _) _ (length_drawn _ _))
  rintro secretBox w₄ ⟨rfl, h⟩
  apply wp_then _ (encrypt_at h _ (.buffer r) _ hk)
  rintro wrapped w₅ ⟨rfl, h⟩
  exact ⟨_, _, rfl, h.encryptions⟩

end CryptoService

/-! ## Runs -/

/-- A call of `encryptWithWrappedKey`: what it was given, the key it drew and what it returned. -/
structure Envelope where
  data : Bytes
  kek : Bytes
  dek : Bytes
  bundle : Bundle

/-- The runs of such calls from `w₀`, each alone and without failures, with anything happening
between them that encrypts nothing. -/
inductive Sealed (P : Platform) (w₀ : World) : List Envelope → World → Prop
  | start : Sealed P w₀ [] w₀
  | call {es : List Envelope} {w w' : World} {data : Bytes} {r : Ref} {bundle : Bundle}
      (h : Sealed P w₀ es w) (hr : (w.heap r).length = 32)
      (hc : (CryptoService.encryptWithWrappedKey P data r).Completes (faultless P) w
        (.ok bundle) w') :
      Sealed P w₀ (⟨data, w.heap r, CryptoService.drawn P w.drawn 32, bundle⟩ :: es) w'
  | other {es : List Envelope} {w w' : World} (h : Sealed P w₀ es w)
      (he : w'.record.encryptions = w.record.encryptions) : Sealed P w₀ es w'

/-- The two encryptions of a call. -/
def Envelope.encryptions (e : Envelope) : List Encryption :=
  [⟨e.kek, e.bundle.dekWrapIv, e.dek⟩, ⟨e.dek, e.bundle.fileIv, e.data⟩]

/-- What a call returned belongs to what it was given. -/
structure Envelope.Valid (P : Platform) (e : Envelope) : Prop where
  length_dek : e.dek.length = 32
  bundle : e.bundle =
    CryptoService.bundleOf P e.dek e.bundle.fileIv e.bundle.dekWrapIv e.kek e.data

namespace CryptoService

variable {P : Platform}

/-- A run makes the encryptions of its calls. -/
theorem sealed_spec {w₀ w : World} {es : List Envelope} (h : Sealed P w₀ es w) :
    w.record.encryptions = es.flatMap Envelope.encryptions ++ w₀.record.encryptions ∧
      ∀ e ∈ es, e.Valid P := by
  induction h with
  | start => exact ⟨rfl, fun e he => nomatch he⟩
  | call h hr hc ih =>
    obtain ⟨fileIv, dekWrapIv, hb, he⟩ := wp_completes (encryptWithWrappedKey_wp hr) hc
    cases hb
    obtain ⟨ih, hv⟩ := ih
    refine ⟨?_, ?_⟩
    · rw [he, ih]
      rfl
    · intro e he
      rcases List.mem_cons.mp he with rfl | he
      · exact ⟨length_drawn _ _, rfl⟩
      · exact hv e he
  | other h he ih => exact ⟨he.trans ih.1, ih.2⟩

/-- The envelope that a decryption is given the parts of. -/
structure Parts (e : Envelope) (cipherWithTag fileIv dekWrapped dekWrapIv kek data : Bytes) :
    Prop where
  kek : e.kek = kek
  data : e.data = data
  dekWrapped : e.bundle.dekWrapped = dekWrapped
  dekWrapIv : e.bundle.dekWrapIv = dekWrapIv
  cipher : e.bundle.cipher = cipherWithTag
  fileIv : e.bundle.fileIv = fileIv

/-- What a key opens was encrypted under it. -/
theorem mem_of_open {earlier : List Encryption} (haes : P.aes.Ideal earlier) {bytes nonce key clear}
    {box : SecretBox} (hs : splitTag bytes nonce = .ok box)
    (ho : P.aes.open key box = .ok clear) :
    ⟨key, nonce, clear⟩ ∈ earlier ∧ (P.aes.encrypt key nonce clear).concat = bytes := by
  obtain ⟨hb, rfl⟩ := concat_of_splitTag hs
  obtain ⟨-, ho⟩ := open_eq_ok.mp ho
  obtain ⟨hm, he⟩ := (haes key box clear).mp ho
  exact ⟨hm, by rw [he, hb]⟩

/-- A key opens what was encrypted under it. -/
theorem open_of_mem {earlier : List Encryption} (haes : P.aes.Ideal earlier)
    {key nonce clear : Bytes} (hk : key.length = 32) (hm : ⟨key, nonce, clear⟩ ∈ earlier) :
    P.aes.open key (P.aes.encrypt key nonce clear) = .ok clear := by
  have hn := P.aes.nonce_encrypt key nonce clear
  rw [open_eq_ok]
  refine ⟨hk, (haes _ _ _).mpr ?_⟩
  rw [hn]
  exact ⟨hm, rfl⟩

/-- Where all keys differ, only the parts of one envelope open. -/
theorem openEnvelope_eq_ok {es : List Envelope} (hv : ∀ e ∈ es, e.Valid P)
    (hdeks : (es.map Envelope.dek).Nodup) (hkeks : ∀ e ∈ es, ∀ e' ∈ es, e.dek ≠ e'.kek)
    (haes : P.aes.Ideal (es.flatMap Envelope.encryptions)) {kek : Bytes} (hk : kek.length = 32)
    (hkek : ∀ e ∈ es, e.dek ≠ kek) (c iv w wiv d : Bytes) :
    openEnvelope P c iv w wiv kek = .ok d ↔ ∃ e ∈ es, Parts e c iv w wiv kek d := by
  constructor
  · intro h
    obtain ⟨wrapped, dek, box, hw, hdek, hc, h⟩ := openEnvelope_iff.mp h
    obtain ⟨hm, hwc⟩ := mem_of_open haes hw hdek
    obtain ⟨hm', hcc⟩ := mem_of_open haes hc h
    obtain ⟨e, he, hm⟩ := List.mem_flatMap.mp hm
    obtain ⟨e', he', hm'⟩ := List.mem_flatMap.mp hm'
    -- the key under which the wrapped key opens is no DEK, so this is a wrapping
    have hwrap : kek = e.kek ∧ wiv = e.bundle.dekWrapIv ∧ dek = e.dek := by
      rcases List.mem_cons.mp hm with hm | hm
      · simpa using hm
      · simp only [List.mem_singleton, Encryption.mk.injEq] at hm
        exact absurd hm.1.symm (hkek e he)
    obtain ⟨rfl, rfl, rfl⟩ := hwrap
    -- and the key of the contents is no KEK, so that is a file
    have hfile : e.dek = e'.dek ∧ iv = e'.bundle.fileIv ∧ d = e'.data := by
      rcases List.mem_cons.mp hm' with hm' | hm'
      · simp only [Encryption.mk.injEq] at hm'
        exact absurd hm'.1 (hkeks e he e' he')
      · simpa using hm'
    obtain ⟨hd, rfl, rfl⟩ := hfile
    -- one DEK belongs to one bundle, so both are of the same bundle
    obtain rfl : e = e' := List.inj_on_of_nodup_map hdeks he he' hd
    refine ⟨e, he, rfl, rfl, ?_, rfl, ?_, rfl⟩
    · rw [(hv e he).bundle]
      exact hwc
    · rw [(hv e he).bundle]
      exact hcc
  -- the four parts of one bundle open under its KEK
  · rintro ⟨e, he, rfl, rfl, rfl, rfl, rfl, rfl⟩
    have hmem (x : Encryption) (hx : x ∈ e.encryptions) : x ∈ es.flatMap Envelope.encryptions :=
      List.mem_flatMap.mpr ⟨e, he, hx⟩
    have ho := openEnvelope_bundleOf
      (open_of_mem haes hk (hmem ⟨e.kek, e.bundle.dekWrapIv, e.dek⟩ (by simp [Envelope.encryptions])))
      (open_of_mem haes (hv e he).length_dek
        (hmem ⟨e.dek, e.bundle.fileIv, e.data⟩ (by simp [Envelope.encryptions])))
    rw [← (hv e he).bundle] at ho
    exact ho

/-- **The envelope is sound and complete.** After any run of encryptions whose keys all differ, a
decryption returns `d` if and only if one earlier call under the same key, with data `d`, made all
of its parts; otherwise it throws. -/
theorem decrypt_iff {w₀ w : World} (h₀ : w₀.record.encryptions = []) {es : List Envelope}
    (hes : Sealed P w₀ es w) (hdeks : (es.map Envelope.dek).Nodup)
    (hkeks : ∀ e ∈ es, ∀ e' ∈ es, e.dek ≠ e'.kek) (haes : P.aes.Ideal w.record.encryptions)
    {r : Ref} (hr : (w.heap r).length = 32) (hkek : ∀ e ∈ es, e.dek ≠ w.heap r)
    (c iv wrapped wrapIv : Bytes) :
    (∀ d, (decryptWithWrappedKey c iv wrapped wrapIv r).Returns (faultless P) w d ↔
      ∃ e ∈ es, Parts e c iv wrapped wrapIv (w.heap r) d) ∧
    ((¬ ∃ d, ∃ e ∈ es, Parts e c iv wrapped wrapIv (w.heap r) d) →
      (decryptWithWrappedKey c iv wrapped wrapIv r).Throws (faultless P) w) := by
  obtain ⟨he, hv⟩ := sealed_spec hes
  rw [he, h₀, List.append_nil] at haes
  have hJ : Steady (faultless P) fun w' => w'.heap = w.heap := by
    constructor
    · intro w₁ w₂ h ht
      refine ⟨?_, ht.calm⟩
      obtain ⟨t, rfl⟩ := ht
      exact h
    · exact fun w₁ w₂ h hq => ⟨trivial, hq.heap.trans h⟩
  -- the only calls are decryptions, and they can always be answered
  have hlive : (faultless P).Live fun op => ∃ box key, op = .decrypt box key := by
    refine ⟨?_, fun _ _ _ _ => trivial, fun w => ⟨w.now, rfl⟩⟩
    rintro w _ ⟨box, key, rfl⟩
    exact ⟨none, rfl⟩
  have hin : (decryptWithWrappedKey c iv wrapped wrapIv r).Within
      (fun op => ∃ box key, op = .decrypt box key) fun _ _ => True :=
    within_decryptWithWrappedKey c iv wrapped wrapIv r
  have hwp := decryptWithWrappedKey_wp hJ (fun _ _ _ => id)
    (fun w' h => congrFun h r) (w := w) rfl c iv wrapped wrapIv
  have hopen := openEnvelope_eq_ok hv hdeks hkeks haes hr hkek c iv wrapped wrapIv
  refine ⟨fun d => ?_, fun hno => ?_⟩
  · rw [← hopen d]
    constructor
    · rintro ⟨⟨w', hc⟩, -⟩
      exact (wp_completes hwp hc).1.symm
    · intro hd
      apply hin.returns hlive
      exact wp_mono _ (fun x w' hx => hx.1.trans hd) hwp
  -- where nothing opens, the call still comes to an end, and not with bytes
  · apply hin.throws hlive
    refine wp_mono _ ?_ hwp
    rintro x w' ⟨rfl, -⟩
    cases hd : openEnvelope P c iv wrapped wrapIv (w.heap r) with
    | error e => exact ⟨e, rfl⟩
    | ok d => exact absurd ⟨d, (hopen d).mp hd⟩ hno

/-! ## Two envelopes -/

/-- The encryptions of two calls on a device whose random bytes count up, the later ones first. -/
def twoCalls : List Encryption :=
  let dek (n : ℕ) : Bytes := drawn (.counting .marked) n 32
  let iv (n : ℕ) : Bytes := drawn (.counting .marked) n 12
  [⟨List.replicate 32 201, iv 100, dek 56⟩, ⟨dek 56, iv 88, [8]⟩,
    ⟨List.replicate 32 200, iv 44, dek 0⟩, ⟨dek 0, iv 32, [7]⟩]

/-- Two keys in memory. -/
def twoKeys : World :=
  { World.sample [] [] with heap := fun r => List.replicate 32 (if r = 0 then 200 else 201) }

/-- A call on that device. -/
def encrypting (data : Bytes) (r : Ref) (w : World) : Except DartError Bundle × World :=
  (encryptWithWrappedKey (.counting (.logged twoCalls)) data r).run
    (device (.counting (.logged twoCalls))) (fun _ => usual) 0 w

theorem completes_encrypting (data : Bytes) (r : Ref) (w : World) :
    (encryptWithWrappedKey (.counting (.logged twoCalls)) data r).Completes
      (faultless (.counting (.logged twoCalls))) w (encrypting data r w).1
      (encrypting data r w).2 := by
  refine Within.completes_run (D := faultless _) (S := fun _ => True) (fun w _ => ⟨w.now, rfl⟩) ?_
    (fun _ _ _ _ => trivial) (fun _ _ _ _ _ => trivial) (fun _ _ _ _ => trivial)
    (within_encryptWithWrappedKey data r) 0 trivial
  rintro n w op - (rfl | ⟨clear, key, nonce, rfl⟩)
  · trivial
  · rfl

def firstSealed : Except DartError Bundle × World := encrypting [7] 0 twoKeys

def bothSealed : Except DartError Bundle × World := encrypting [8] 1 firstSealed.2

/-- Each envelope is opened under its own key, and the parts of both together under none. -/
theorem decrypt_iff_bothSealed : ∃ e₁ e₂ : Envelope,
    firstSealed.1 = .ok e₁.bundle ∧ bothSealed.1 = .ok e₂.bundle ∧ e₁.kek ≠ e₂.kek ∧
    (∀ c iv wrapped wrapIv d, (decryptWithWrappedKey c iv wrapped wrapIv 0).Returns
      (faultless (.counting (.logged twoCalls))) bothSealed.2 d ↔
        ∃ e ∈ [e₂, e₁], Parts e c iv wrapped wrapIv (List.replicate 32 200) d) ∧
    (decryptWithWrappedKey e₁.bundle.cipher e₁.bundle.fileIv e₂.bundle.dekWrapped
      e₂.bundle.dekWrapIv 1).Throws (faultless (.counting (.logged twoCalls))) bothSealed.2 := by
  obtain ⟨b₁, hb₁⟩ : ∃ b, firstSealed.1 = .ok b := ⟨_, rfl⟩
  obtain ⟨b₂, hb₂⟩ : ∃ b, bothSealed.1 = .ok b := ⟨_, rfl⟩
  have hc₁ := completes_encrypting [7] 0 twoKeys
  have hc₂ := completes_encrypting [8] 1 firstSealed.2
  change Completes _ _ _ firstSealed.1 firstSealed.2 at hc₁
  change Completes _ _ _ bothSealed.1 bothSealed.2 at hc₂
  rw [hb₁] at hc₁
  rw [hb₂] at hc₂
  have hrun := Sealed.call (.call .start rfl hc₁) rfl hc₂
  have hlog : bothSealed.2.record.encryptions = twoCalls := by decide +kernel
  have hideal : (Platform.counting (.logged twoCalls)).aes.Ideal
      bothSealed.2.record.encryptions := by
    rw [hlog]
    exact AesGcm.logged_ideal twoCalls
  have hdrawn : firstSealed.2.drawn = 56 := by decide +kernel
  have hheap : firstSealed.2.heap 1 = List.replicate 32 201 := by decide +kernel
  have hheap₁ : bothSealed.2.heap 0 = List.replicate 32 200 := by decide +kernel
  have hheap₂ : bothSealed.2.heap 1 = List.replicate 32 201 := by decide +kernel
  rw [hdrawn, hheap] at hrun
  let e₁ : Envelope :=
    ⟨[7], List.replicate 32 200, drawn (.counting (.logged twoCalls)) 0 32, b₁⟩
  let e₂ : Envelope :=
    ⟨[8], List.replicate 32 201, drawn (.counting (.logged twoCalls)) 56 32, b₂⟩
  -- the keys that were drawn are neither each other nor the two keys in memory
  have hfresh : ∀ n ∈ [0, 56], ∀ b ∈ [(200 : UInt8), 201],
      drawn (.counting (.logged twoCalls)) n 32 ≠ List.replicate 32 b := by decide +kernel
  have hapart : drawn (.counting (.logged twoCalls)) 56 32 ≠
      drawn (.counting (.logged twoCalls)) 0 32 := by decide +kernel
  have hnodup : ([e₂, e₁].map Envelope.dek).Nodup := by simpa [e₁, e₂] using hapart
  have hkek : List.replicate 32 (200 : UInt8) ≠ List.replicate 32 201 := by decide +kernel
  have hrun : Sealed _ twoKeys [e₂, e₁] bothSealed.2 := hrun
  have hdek (b : UInt8) (hb : b ∈ [(200 : UInt8), 201]) :
      ∀ e ∈ [e₂, e₁], e.dek ≠ List.replicate 32 b := by
    rintro e he
    rcases List.mem_pair.mp he with rfl | rfl
    · exact hfresh 56 (by decide) b hb
    · exact hfresh 0 (by decide) b hb
  have hkeks : ∀ e ∈ [e₂, e₁], ∀ e' ∈ [e₂, e₁], e.dek ≠ e'.kek := by
    rintro e he e' he'
    rcases List.mem_pair.mp he' with rfl | rfl
    · exact hdek 201 (by decide) e he
    · exact hdek 200 (by decide) e he
  refine ⟨e₁, e₂, hb₁, hb₂, hkek, fun c iv wrapped wrapIv => ?_, ?_⟩
  · have hlength : (bothSealed.2.heap 0).length = 32 := by rw [hheap₁, List.length_replicate]
    rw [← hheap₁]
    exact (decrypt_iff rfl hrun hnodup hkeks hideal hlength (hheap₁ ▸ hdek 200 (by decide)) c iv
      wrapped wrapIv).1
  · have hlength : (bothSealed.2.heap 1).length = 32 := by rw [hheap₂, List.length_replicate]
    refine (decrypt_iff rfl hrun hnodup hkeks hideal hlength (hheap₂ ▸ hdek 201 (by decide))
      _ _ _ _).2 ?_
    rintro ⟨d, e, he, hparts⟩
    rcases List.mem_pair.mp he with rfl | rfl
    · have hcipher : bothSealed.1.toOption.map Bundle.cipher ≠
          firstSealed.1.toOption.map Bundle.cipher := by decide +kernel
      rw [hb₁, hb₂] at hcipher
      exact hcipher (congrArg some hparts.cipher)
    · exact hkek (hparts.kek.trans hheap₂)

end CryptoService

end CajaSegura
