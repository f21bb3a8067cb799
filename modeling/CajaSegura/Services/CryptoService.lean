import CajaSegura.Platform.Rules

/-!
# Envelope encryption

`CryptoService`: the contents of a file are encrypted under a random key, the DEK, and the DEK
under the master key, the KEK.

## Main definitions

* `CryptoService.randomBytes`
* `CryptoService.encryptWithWrappedKey`, `CryptoService.decryptWithWrappedKey`
* `CryptoService.bundleOf`, `CryptoService.openEnvelope`: what they compute

## Main results

* `CryptoService.openEnvelope_bundleOf`: what is encrypted is decrypted under the same key
* `CryptoService.decryptWithWrappedKey_wp`: what a decryption returns where calls do not fail
-/

namespace CajaSegura

open Codec Async
open Program hiding bind

/-- What `encryptWithWrappedKey` returns. -/
structure Bundle where
  cipher : Bytes
  fileIv : Bytes
  dekWrapped : Bytes
  dekWrapIv : Bytes

/-- The bytes of a box as they are stored: the ciphertext and then the tag. -/
def SecretBox.concat (box : SecretBox) : Bytes := box.cipherText ++ box.mac

/-- `dart:convert`. -/
def base64Decode (s : Text) : Except DartError Bytes :=
  match Base64.decode s with
  | some b => .ok b
  | none => .error (.format "Invalid base64 data".toList)

namespace CryptoService

variable (P : Platform)

def b64d (s : Text) : Except DartError Bytes := base64Decode s

/-- The next bytes of `Random.secure()`. -/
def drawn (n length : ℕ) : Bytes := (List.range length).map fun i => P.random (n + i)

def randomBytes (length : ℕ) : App Bytes :=
  getModify fun w => (drawn P w.drawn length, { w with drawn := w.drawn + length })

/-- The bundle that these random bytes make of the data. -/
def bundleOf (dek fileIv dekWrapIv kek data : Bytes) : Bundle where
  cipher := (P.aes.encrypt dek fileIv data).concat
  fileIv := fileIv
  dekWrapped := (P.aes.encrypt kek dekWrapIv dek).concat
  dekWrapIv := dekWrapIv

def encryptWithWrappedKey (data : Bytes) (kek : Ref) : App Bundle := do
  let dek ← awaited (randomBytes P 32)
  let fileIv ← awaited (randomBytes P 12)
  let dekWrapIv ← awaited (randomBytes P 12)
  let secretBox : SecretBox ← call (.encrypt data (.bytes dek) fileIv)
  let wrapped : SecretBox ← call (.encrypt dek (.buffer kek) dekWrapIv)
  return {
    cipher := secretBox.concat
    fileIv := fileIv
    dekWrapped := wrapped.concat
    dekWrapIv := dekWrapIv }

/-- A box from stored bytes: `sublist` throws when there are fewer than 16. -/
def splitTag (bytes nonce : Bytes) : Except DartError SecretBox :=
  if bytes.length < 16 then .error (.range "Invalid value".toList)
  else .ok ⟨bytes.take (bytes.length - 16), nonce, bytes.drop (bytes.length - 16)⟩

/-- What `decryptWithWrappedKey` computes under the bytes of a key. -/
def openEnvelope (cipherWithTag fileIv dekWrappedWithTag dekWrapIv kek : Bytes) :
    Except DartError Bytes := do
  let wrapped ← splitTag dekWrappedWithTag dekWrapIv
  let dek ← P.aes.open kek wrapped
  let box ← splitTag cipherWithTag fileIv
  P.aes.open dek box

def decryptWithWrappedKey (cipherWithTag fileIv dekWrappedWithTag dekWrapIv : Bytes) (kek : Ref) :
    App Bytes := do
  let wrapped ← Program.done (splitTag dekWrappedWithTag dekWrapIv)
  let dek : Bytes ← call (.decrypt wrapped (.buffer kek))
  let box ← Program.done (splitTag cipherWithTag fileIv)
  call (.decrypt box (.bytes dek))

/-! ## What the two functions compute -/

variable {P}

theorem b64d_encode (b : Bytes) : b64d (Base64.encode b) = .ok b := by
  rw [b64d, base64Decode, Base64.decode_encode]

theorem length_drawn (n length : ℕ) : (drawn P n length).length = length := by
  simp [drawn]

/-- There is always the tag. -/
theorem concat_ne_nil (key nonce clear : Bytes) : (P.aes.encrypt key nonce clear).concat ≠ [] := by
  apply List.ne_nil_of_length_pos
  rw [SecretBox.concat, List.length_append, P.aes.length_mac]
  omega

/-- The tag is split off where it was appended. -/
theorem splitTag_concat (key nonce clear : Bytes) :
    splitTag (P.aes.encrypt key nonce clear).concat nonce =
      .ok (P.aes.encrypt key nonce clear) := by
  obtain ⟨hd, ht⟩ := P.aes.drop_encrypt key nonce clear
  have hl : ¬ ((P.aes.encrypt key nonce clear).concat).length < 16 := by
    rw [SecretBox.concat, List.length_append, P.aes.length_mac]
    omega
  rw [splitTag, if_neg hl]
  congr 1
  ext1
  · exact ht
  · exact (P.aes.nonce_encrypt key nonce clear).symm
  · exact hd

/-- What is split is what was put together. -/
theorem concat_of_splitTag {bytes nonce : Bytes} {box : SecretBox}
    (h : splitTag bytes nonce = .ok box) : box.concat = bytes ∧ box.nonce = nonce := by
  unfold splitTag at h
  split at h
  · cases h
  · cases h
    exact ⟨List.take_append_drop _ _, rfl⟩

theorem open_eq_ok {aes : AesGcm} {key clear : Bytes} {box : SecretBox} :
    aes.open key box = .ok clear ↔ key.length = 32 ∧ aes.decrypt key box = some clear := by
  unfold AesGcm.open
  split
  · rename_i hk
    cases aes.decrypt key box <;> simp [hk]
  · rename_i hk
    simp [hk]

theorem open_encrypt (haes : P.aes.Correct) {key : Bytes} (hk : key.length = 32)
    (nonce clear : Bytes) : P.aes.open key (P.aes.encrypt key nonce clear) = .ok clear :=
  open_eq_ok.mpr ⟨hk, haes key nonce clear⟩

/-- A decryption opens the box of the key and then that of the contents. -/
theorem openEnvelope_iff {cipher fileIv dekWrapped dekWrapIv kek data : Bytes} :
    openEnvelope P cipher fileIv dekWrapped dekWrapIv kek = .ok data ↔
      ∃ wrapped dek box, splitTag dekWrapped dekWrapIv = .ok wrapped ∧
        P.aes.open kek wrapped = .ok dek ∧ splitTag cipher fileIv = .ok box ∧
        P.aes.open dek box = .ok data := by
  unfold openEnvelope
  constructor
  · intro h
    obtain ⟨wrapped, hw, h⟩ := bind_eq_ok h
    obtain ⟨dek, hd, h⟩ := bind_eq_ok h
    obtain ⟨box, hb, h⟩ := bind_eq_ok h
    exact ⟨wrapped, dek, box, hw, hd, hb, h⟩
  · rintro ⟨wrapped, dek, box, hw, hd, hb, h⟩
    simp only [hw, hd, hb, bind, Except.bind, h]

/-- **What is encrypted is decrypted** under the same key, if the cipher opens the two boxes. -/
theorem openEnvelope_bundleOf {dek kek fileIv dekWrapIv data : Bytes}
    (hw : P.aes.open kek (P.aes.encrypt kek dekWrapIv dek) = .ok dek)
    (hc : P.aes.open dek (P.aes.encrypt dek fileIv data) = .ok data) :
    openEnvelope P (bundleOf P dek fileIv dekWrapIv kek data).cipher fileIv
      (bundleOf P dek fileIv dekWrapIv kek data).dekWrapped dekWrapIv kek = .ok data :=
  openEnvelope_iff.mpr ⟨_, dek, _, splitTag_concat kek dekWrapIv dek, hw,
    splitTag_concat dek fileIv data, hc⟩

/-- A decryption among calls that work and others that leave the key alone. -/
theorem decryptWithWrappedKey_wp {D : Discipline (device P)} {J : World → Prop} (hJ : Steady D J)
    (hD : ∀ w op o, D.allow w op o → Good w op o) {kek : Bytes} {r : Ref}
    (hr : ∀ w, J w → w.heap r = kek) {w : World} (hw : J w)
    (cipherWithTag fileIv dekWrappedWithTag dekWrapIv : Bytes) :
    (decryptWithWrappedKey cipherWithTag fileIv dekWrappedWithTag dekWrapIv r).wp D
      (fun x w' => x = openEnvelope P cipherWithTag fileIv dekWrappedWithTag dekWrapIv kek ∧
        J w' ∧ w.Calm w') w := by
  unfold decryptWithWrappedKey openEnvelope
  rw [wp_bind, wp_done]
  cases splitTag dekWrappedWithTag dekWrapIv with
  | error e => exact ⟨rfl, hw, .refl w⟩
  | ok wrapped =>
    dsimp only
    rw [wp_bind]
    apply hJ.wp_call (by simp [Op.Mutates]) hw
    intro w₁ o hw₁ _ ho w₂ hw₂ hc₂
    obtain rfl : o = none := hD _ _ _ ho
    have hkey : (w₁.exec P (.decrypt wrapped (.buffer r)) none).1 = P.aes.open kek wrapped :=
      congrArg (P.aes.open · wrapped) (hr w₁ hw₁)
    rw [hkey]
    -- the wrapped key does not open, and the contents are not looked at
    cases hdek : P.aes.open kek wrapped with
    | error e => exact ⟨by simp only [bind, Except.bind, hdek], hw₂, hc₂⟩
    | ok dek =>
      dsimp only
      rw [wp_bind, wp_done]
      cases splitTag cipherWithTag fileIv with
      | error e => exact ⟨by simp only [bind, Except.bind, hdek], hw₂, hc₂⟩
      | ok box =>
        dsimp only
        apply hJ.wp_call (by simp [Op.Mutates]) hw₂
        intro w₃ o _ _ ho w₄ hw₄ hc₄
        obtain rfl : o = none := hD _ _ _ ho
        refine ⟨?_, hw₄, hc₂.trans hc₄⟩
        simp only [bind, Except.bind, hdek]
        rfl

/-- The calls of an encryption. -/
theorem within_encryptWithWrappedKey (data : Bytes) (r : Ref) :
    (encryptWithWrappedKey P data r).Within
      (fun op => op = .hop ∨ ∃ clear key nonce, op = .encrypt clear key nonce)
      fun w w' => ∃ n, w' = { w with drawn := n } := by
  have hrandom (length : ℕ) : (awaited (randomBytes P length)).Within
      (fun op => op = .hop ∨ ∃ clear key nonce, op = .encrypt clear key nonce)
      fun w w' => ∃ n, w' = { w with drawn := n } :=
    within_awaited (Within.getModify fun w => ⟨_, rfl⟩) (.inl rfl)
  unfold encryptWithWrappedKey
  refine Within.bind (hrandom 32) fun dek => ?_
  refine Within.bind (hrandom 12) fun fileIv => ?_
  refine Within.bind (hrandom 12) fun dekWrapIv => ?_
  refine Within.bind (within_call.mpr (.inr ⟨_, _, _, rfl⟩)) fun secretBox => ?_
  exact Within.bind (within_call.mpr (.inr ⟨_, _, _, rfl⟩)) fun wrapped => trivial

/-- The calls of a decryption. -/
theorem within_decryptWithWrappedKey {G : World → World → Prop}
    (cipherWithTag fileIv dekWrappedWithTag dekWrapIv : Bytes) (r : Ref) :
    (decryptWithWrappedKey cipherWithTag fileIv dekWrappedWithTag dekWrapIv r).Within
      (fun op => ∃ box key, op = .decrypt box key) G := by
  apply Within.bind (Within.done _)
  intro wrapped
  apply Within.bind (within_call.mpr ⟨_, _, rfl⟩)
  intro dek
  apply Within.bind (Within.done _)
  intro box
  exact within_call.mpr ⟨_, _, rfl⟩

end CryptoService

end CajaSegura
