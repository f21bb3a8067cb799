import CajaSegura.Codec.Base64

/-!
# AES-GCM

The cipher of the cryptography package: authenticated encryption under a key and a nonce, with a
tag of 16 bytes and a ciphertext as long as the plaintext.

## Main definitions

* `AesGcm`: the two functions of the package
* `AesGcm.Correct`: decryption inverts encryption
* `AesGcm.Ideal`: decryption accepts exactly what earlier encryptions have produced
-/

namespace CajaSegura

open Codec

/-- What an encryption produces, and a decryption is given. -/
@[ext] structure SecretBox where
  cipherText : Bytes
  nonce : Bytes
  mac : Bytes
  deriving DecidableEq

/-- An encryption that has taken place. -/
structure Encryption where
  key : Bytes
  nonce : Bytes
  clear : Bytes
  deriving DecidableEq

structure AesGcm where
  encrypt : (key nonce clear : Bytes) → SecretBox
  decrypt : (key : Bytes) → SecretBox → Option Bytes
  nonce_encrypt : ∀ key nonce clear, (encrypt key nonce clear).nonce = nonce
  length_mac : ∀ key nonce clear, (encrypt key nonce clear).mac.length = 16
  length_cipherText : ∀ key nonce clear, (encrypt key nonce clear).cipherText.length = clear.length

namespace AesGcm

/-- Decryption inverts encryption. -/
def Correct (aes : AesGcm) : Prop :=
  ∀ key nonce clear, aes.decrypt key (aes.encrypt key nonce clear) = some clear

/-- Decryption under a key and a nonce succeeds exactly on the outputs of earlier encryptions
under that key and that nonce. -/
def Ideal (aes : AesGcm) (earlier : List Encryption) : Prop :=
  ∀ key box clear, aes.decrypt key box = some clear ↔
    ⟨key, box.nonce, clear⟩ ∈ earlier ∧ aes.encrypt key box.nonce clear = box

/-- A cut of an output into ciphertext and tag. -/
theorem drop_encrypt (aes : AesGcm) (key nonce clear : Bytes) :
    let box := aes.encrypt key nonce clear
    (box.cipherText ++ box.mac).drop ((box.cipherText ++ box.mac).length - 16) = box.mac ∧
      (box.cipherText ++ box.mac).take ((box.cipherText ++ box.mac).length - 16) =
        box.cipherText := by
  intro box
  have hl : (box.cipherText ++ box.mac).length - 16 = box.cipherText.length := by
    rw [List.length_append, aes.length_mac, Nat.add_sub_cancel]
  rw [hl]
  exact ⟨List.drop_left, List.take_left⟩

end AesGcm

end CajaSegura
