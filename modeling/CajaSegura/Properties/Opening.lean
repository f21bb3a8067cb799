import CajaSegura.Platform.Sample
import CajaSegura.Services.AuthRules

/-!
# Opening a session

One authentication that nothing else interrupts, on a device that stores no key or one that an
initialisation wrote, whatever becomes of its calls.

## Main definitions

* `World.Stores`: no key is stored, or one that an initialisation wrote
* `AuthService.UnderLastRead`: the key in memory is what the last read of the storage decodes to

## Main results

* `AuthService.authenticate_all_or_nothing`: a session is open under the key just read, or nothing
  has changed
-/

namespace CajaSegura

open Codec Async
open Program hiding bind

variable {P : Platform}

/-- No key is stored, or one that an initialisation wrote. -/
def World.Stores (w : World) : Prop :=
  ∀ s, w.storage = some s → ∃ b : Bytes, b.length = 32 ∧ s = Base64.encode b

namespace AuthService

/-- The call answered last was a read of the storage, and the key in memory is the 32 bytes that
the text it returned decodes to. -/
def UnderLastRead (w : World) : Prop :=
  ∃ o l s b r, w.record.answers = ⟨.storageRead, o⟩ :: l ∧
    World.readStorage w.storage o = .ok (some s) ∧ base64Decode s = .ok b ∧ b.length = 32 ∧
    w.auth._kek = some r ∧ w.heap r = b

/-- The session is as in `w₀`, and so are the buffers. -/
structure Untouched (w₀ w : World) : Prop where
  auth : w.auth = w₀.auth
  heap : w.heap = w₀.heap
  stores : w.Stores

/-- The session was opened just now, under the key that was read last. -/
structure OpenedNow (w₀ w : World) : Prop where
  lastRead : UnderLastRead w
  stamp : w.auth._lastUnlock = some w.now.local
  timeout : w.auth.sessionTimeout = w₀.auth.sessionTimeout

variable {w₀ w w' : World}

/-- What is stored decodes to 32 bytes. -/
theorem length_of_stores (h : w.Stores) {o : StorageOutcome} {s : Text}
    (hs : World.readStorage w.storage o = .ok (some s)) (hne : s ≠ []) {b : Bytes}
    (hb : base64Decode s = .ok b) : b.length = 32 := by
  cases o with
  | stored =>
    obtain ⟨b', hlen, rfl⟩ := h s (Except.ok.inj hs)
    cases hb.symm.trans (CryptoService.b64d_encode b')
    exact hlen
  | absent => cases hs
  | empty =>
    cases hs
    exact absurd rfl hne
  | fails e => cases hs

theorem Untouched.passing (h : Untouched w₀ w) (ht : TimePasses w w') : Untouched w₀ w' := by
  obtain ⟨t, rfl⟩ := ht
  exact ⟨h.auth, h.heap, h.stores⟩

theorem opens_untouched (w₀ : World) : Opens (undisturbed P) (Untouched w₀) (fun _ => True)
    (OpenedNow w₀) where
  rely _ _ h ht := ⟨h.passing ht, fun _ => trivial⟩
  quiet w w' h hq := by
    have hs : w'.Stores := by
      unfold World.Stores
      rw [hq.storage]
      exact h.stores
    exact ⟨trivial, ⟨hq.auth.trans h.auth, hq.heap.trans h.heap, hs⟩, fun _ => trivial⟩
  missing _ _ _ _ _ _ _ _ _ := trivial
  store w b o h _ hb _ := by
    refine ⟨trivial, ?_⟩
    cases o with
    | none =>
      refine ⟨h.auth, h.heap, fun s hs => ⟨b, hb, ?_⟩⟩
      exact (Option.some.inj hs).symm
    | some e => exact ⟨h.auth, h.heap, h.stores⟩
  key w o s w' b h _ hs hne ht _ hb := by
    obtain ⟨t, rfl⟩ := ht
    have htimeout := congrArg AuthState.sessionTimeout h.auth
    refine ⟨trivial, trivial, ?_, rfl, htimeout⟩
    refine ⟨o, w.record.answers, s, b, w.allocated, rfl, hs, hb, length_of_stores h.stores hs hne hb,
      rfl, ?_⟩
    exact Function.update_self ..

/-- **An authentication is all or nothing**: it returns `true` only with the session open under the
32 bytes that the last read of the storage decodes to, and leaves the session and the buffers alone
otherwise. -/
theorem authenticate_all_or_nothing (reason : Option Text) {r : Except DartError Bool}
    (hstores : w.Stores) (htimeout : 0 < w.auth.sessionTimeout)
    (h : (authenticate P reason).Completes (undisturbed P) w r w') :
    (r = .ok true → isUnlocked w' = true ∧ UnderLastRead w') ∧
      (r ≠ .ok true → w'.auth._kek = w.auth._kek ∧ w'.auth._lastUnlock = w.auth._lastUnlock ∧
        w'.heap = w.heap) := by
  obtain ⟨hok, herr⟩ := wp_completes
    (authenticate_wp (opens_untouched w) reason ⟨rfl, rfl, hstores⟩) h
  constructor
  · intro hr
    obtain ⟨hlast, hstamp, htime⟩ := hok hr
    refine ⟨?_, hlast⟩
    obtain ⟨-, -, -, -, r, -, -, -, -, hk, -⟩ := hlast
    refine isUnlocked_iff.mpr ⟨r, _, hk, hstamp, ?_⟩
    rw [htime]
    have hzero : w'.now.micros - w'.now.local.micros = 0 := Int.sub_self _
    omega
  · intro hr
    obtain ⟨hauth, hheap, -⟩ := herr hr
    exact ⟨congrArg _ hauth, congrArg _ hauth, hheap⟩

/-- The user is recognised, and no key was stored before. -/
def openedRun : Except DartError Bool × World :=
  (authenticate (.sample .marked) none).run (device (.sample .marked)) (fun _ => usual) 0
    (.sample [] [])

theorem authenticate_all_or_nothing_openedRun :
    isUnlocked openedRun.2 = true ∧ UnderLastRead openedRun.2 := by
  have hrun : (authenticate (.sample .marked) none).Completes (undisturbed (.sample .marked))
      (.sample [] []) openedRun.1 openedRun.2 :=
    completes_run (D := undisturbed (.sample .marked)) (fun w => ⟨w.now, rfl⟩)
      (fun _ _ _ => trivial) (fun _ _ _ => trivial) _ 0 _
  have hstores : (World.sample [] []).Stores := fun _ hs => (Option.some_ne_none _ hs.symm).elim
  exact (authenticate_all_or_nothing none hstores (by decide) hrun).1 rfl

end AuthService

end CajaSegura
