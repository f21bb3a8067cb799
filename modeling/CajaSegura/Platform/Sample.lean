import CajaSegura.Platform.Rules

/-!
# A device to evaluate programs on

## Main definitions

* `AesGcm.marked`: a cipher whose tags are taken from the keys
* `AesGcm.logged`: a cipher that opens what it finds in a list of encryptions
* `Platform.sample`, `World.sample`: a device with an empty vault and one file beside it
* `Platform.counting`: one that draws other random bytes each time

## Main results

* `AesGcm.marked_correct`, `AesGcm.logged_ideal`: the ciphers are what is assumed of one
-/

namespace CajaSegura

open Codec Async

namespace AesGcm

/-- The first bytes of the key. -/
def tagOf (key : Bytes) : Bytes := (key ++ List.replicate 16 0).take 16

theorem length_tagOf (key : Bytes) : (tagOf key).length = 16 := by
  simp [tagOf]

/-- The clear text with a tag taken from the key, which is compared before decrypting. -/
def marked : AesGcm where
  encrypt key nonce clear := ⟨clear, nonce, tagOf key⟩
  decrypt key box := if box.mac = tagOf key then some box.cipherText else none
  nonce_encrypt _ _ _ := rfl
  length_mac key _ _ := length_tagOf key
  length_cipherText _ _ _ := rfl

theorem marked_correct : marked.Correct := fun _ _ _ => if_pos rfl

/-- The encryption whose output `box` is under the key. -/
def lookup (log : List Encryption) (key : Bytes) (box : SecretBox) : Option Encryption :=
  log.find? fun e => e.key = key ∧ marked.encrypt key e.nonce e.clear = box

def logged (log : List Encryption) : AesGcm where
  encrypt := marked.encrypt
  decrypt key box := (lookup log key box).map Encryption.clear
  nonce_encrypt := marked.nonce_encrypt
  length_mac := marked.length_mac
  length_cipherText := marked.length_cipherText

theorem logged_ideal (log : List Encryption) : (logged log).Ideal log := by
  intro key box clear
  constructor
  · intro h
    obtain ⟨e, he, rfl⟩ := Option.map_eq_some_iff.mp h
    have hp := List.find?_some he
    obtain ⟨rfl, rfl⟩ := of_decide_eq_true hp
    exact ⟨List.mem_of_find?_eq_some he, rfl⟩
  · rintro ⟨hm, hbox⟩
    -- whatever is found has the same clear text, since that is the ciphertext
    cases hl : lookup log key box with
    | none =>
      have hn := List.find?_eq_none.mp hl _ hm
      exact absurd (decide_eq_true ⟨rfl, hbox⟩) hn
    | some e =>
      have hp := List.find?_some hl
      obtain ⟨-, he⟩ := of_decide_eq_true hp
      have hc : e.clear = clear := congrArg SecretBox.cipherText (he.trans hbox.symm)
      change (lookup log key box).map Encryption.clear = some clear
      rw [hl, ← hc]
      rfl

end AesGcm

/-- A device whose secure random bytes are all 1. -/
def Platform.sample (aes : AesGcm) : Platform where
  aes := aes
  asserts := false
  eager := false
  supportDir := ["app".toList]
  lowerCase c := [c.toLower]
  lowerCase_ascii _ _ := rfl
  lowerCase_other c hc d hd := by
    obtain rfl := List.mem_singleton.mp hd
    have hlower : c.toLower = c := by
      unfold Char.toLower
      rw [dif_neg]
      rintro ⟨-, hz⟩
      have hz : c.toNat ≤ 90 := hz
      omega
    rw [hlower]
    constructor <;>
    · rintro rfl
      exact absurd hc (by decide)
  uuid n := List.replicate (n + 1) 'u'
  random _ := 1
  uuid_injective a b h := Nat.succ.inj (by simpa using congrArg List.length h)
  uuid_plain n := by simp

/-- A device whose secure random bytes count up. -/
def Platform.counting (aes : AesGcm) : Platform :=
  { Platform.sample aes with random := fun n => UInt8.ofNat n }

namespace Fs

def empty : Fs where
  dirs _ := false
  files _ := none
  parent _ h := absurd rfl h

/-- A directory of the user with the file `a`. -/
def sample (b : Bytes) : Fs :=
  (empty.create ["home".toList]).put ⟨["home".toList], "a".toList⟩ b (by decide)

end Fs

/-- The file `a` of the user. -/
def File.sample : File := ⟨["home".toList], "a".toList⟩

namespace World

/-- A device at the epoch in UTC, with a key in the first buffer and the session closed. -/
def sample (kek b : Bytes) : World where
  fs := .sample b
  now := ⟨0, by decide⟩
  zone := .fixed 0 (by decide)
  drawn := 0
  uuids := 0
  heap r := if r = 0 then kek else []
  allocated := 1
  storage := none
  backgroundStorage := none
  disk _ := none
  preferences := none
  _prefs := false
  auth := ⟨none, none, 300000000⟩
  background := ⟨none, none⟩
  paused := false
  route := .lock
  lockScreen := ⟨false, false, none⟩
  homeScreen := ⟨false, [], false, none⟩
  settingsScreen := ⟨false, false, false, 5, false⟩
  record := ⟨[], [], [], [], [], [], [], [], [], [], []⟩

theorem fits_picture : (sample [] [1]).fs.dirs ["home".toList] = true ∧ Plain "a.jpg".toList := by
  decide

/-- The home screen has just appeared, in an open session. -/
def home : World :=
  let w := sample (List.replicate 32 2) [1]
  { w with
    auth := ⟨some 0, some w.now.local, 300000000⟩
    route := .home
    homeScreen := ⟨true, [], false, none⟩ }

end World

/-- Every call works; nothing is stored, listed or picked, and prompts are accepted. -/
def usual : (op : Op) → Outcome op
  | .hop | .delayed _ => ()
  | .listSync _ => .ok []
  | .writeAsBytes .. => .done
  | .delete _ => .done
  | .storageRead | .backgroundRead => .stored
  | .isDeviceSupported | .canCheckBiometrics | .localAuthenticate _ => .ok true
  | .getAvailableBiometrics => .ok ["fingerprint".toList]
  | .pickFiles => .ok none
  | .showDialog _ => .ok (some true)
  | .setPreference .. | .removePreference _ => .ok true
  | .supportDirectory | .dirExists _ | .dirCreate _ | .fileExists _ | .stat _ => none
  | .readAsBytes _ | .rename .. | .copy .. | .encrypt .. | .decrypt .. => none
  | .storageWrite _ | .storageDelete | .backgroundWrite _ | .backgroundDelete => none
  | .shareXFiles .. | .getPreferences | .systemChrome => none

/-- As usual, and the picker returns one file. -/
def picking (path : Text) : (op : Op) → Outcome op
  | .pickFiles => .ok (some [some path])
  | op => usual op

/-- What usually comes of a call is what comes of one that works, but for listings. -/
theorem good_usual (w : World) {op : Op} (h : ∀ dir, op ≠ .listSync dir) :
    Good w op (usual op) := by
  cases op with
  | listSync dir => exact absurd rfl (h dir)
  | isDeviceSupported => exact ⟨_, rfl⟩
  | canCheckBiometrics => exact ⟨_, rfl⟩
  | getAvailableBiometrics => exact ⟨_, rfl⟩
  | localAuthenticate r => exact ⟨_, rfl⟩
  | pickFiles => exact ⟨_, rfl⟩
  | showDialog t => exact ⟨_, rfl⟩
  | hop => trivial
  | delayed m => trivial
  | _ => rfl

/-- A program without listings may go as usual. -/
theorem completes_usual {P : Platform} {α : Type} {p : App α} {G : World → World → Prop}
    (hp : p.Within (fun op => ∀ dir, op ≠ .listSync dir) G) (w : World) :
    p.Completes (faultless P) w (p.run (device P) (fun _ => usual) 0 w).1
      (p.run (device P) (fun _ => usual) 0 w).2 :=
  Program.Within.completes_run (D := faultless P) (S := fun _ => True) (fun w _ => ⟨w.now, rfl⟩)
    (fun _ w _ _ h => good_usual w h) (fun _ _ _ _ => trivial) (fun _ _ _ _ _ => trivial)
    (fun _ _ _ _ => trivial) hp 0 trivial

end CajaSegura
