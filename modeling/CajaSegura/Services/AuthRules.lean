import CajaSegura.Services.AuthService

/-!
# Reasoning about sessions

What an authentication does, step by step: it may store a new key when it has found none, and it
opens the session with the key that it has read.

## Main definitions

* `Opens`: what a discipline grants and asks of a program that opens a session
* `Recognising`: kinds of calls that contain those of an authentication
* `KeyStored`, `Keyed`: the key that the device stores, and the one in memory

## Main results

* `AuthService.init_wp`, `AuthService.authenticate_wp`: what these programs keep
* `AuthService.within_init`, `AuthService.within_authenticate`: what they write
-/

namespace CajaSegura

open Codec Async
open Program hiding bind

variable {P : Platform} {D : Discipline (device P)} {J M N : World → Prop}

/-! ## The stored key -/

section Stored

variable {K : Option Bytes} {w : World} {o : Outcome .storageRead}

/-- The device stores the key, if one is known. -/
def KeyStored (K : Option Bytes) (w : World) : Prop :=
  ∀ kek ∈ K, w.storage = some (Base64.encode kek)

/-- The session has a key only where the known one is. -/
def Keyed (K : Option Bytes) (w : World) : Prop :=
  ∀ r, w.auth._kek = some r → (∀ kek ∈ K, w.heap r = kek) ∧ r < w.allocated

/-- What a truthful reading returns is what the device stores. -/
theorem storage_of_truthful (ho : Truthful .storageRead o) {x : Option Text}
    (hx : (w.exec P .storageRead o).1 = .ok x) : w.storage = x := by
  rcases ho with rfl | ⟨e, rfl⟩
  · exact Except.ok.inj hx
  · cases hx

/-- A known key is found. -/
theorem KeyStored.unknown (h : KeyStored K w) (hK : ∀ kek ∈ K, kek.length = 32)
    (ho : ∀ kek ∈ K, Truthful .storageRead o) {x : Option Text}
    (hx : (w.exec P .storageRead o).1 = .ok x) (hmissing : AuthService.missing x = true) :
    K = none := by
  cases K with
  | none => rfl
  | some kek =>
    have hne : Base64.encode kek ≠ [] :=
      Base64.encode_ne_nil (List.ne_nil_of_length_pos (by rw [hK kek rfl]; decide))
    obtain rfl := storage_of_truthful (ho kek rfl) hx
    rw [h kek rfl] at hmissing
    exact absurd (List.isEmpty_iff.mp hmissing) hne

/-- It is the one that is decoded. -/
theorem KeyStored.decoded (h : KeyStored K w) (ho : ∀ kek ∈ K, Truthful .storageRead o) {s : Text}
    (hx : (w.exec P .storageRead o).1 = .ok (some s)) {b : Bytes} (hb : base64Decode s = .ok b) :
    ∀ kek ∈ K, b = kek := by
  intro kek hk
  obtain rfl := Option.some.inj ((h kek hk).symm.trans (storage_of_truthful (ho kek hk) hx))
  exact Except.ok.inj (hb.symm.trans (CryptoService.b64d_encode kek))

end Stored

/-! ## Opening a session -/

/-- What the discipline grants a program that opens a session: `J` holds until the session is open
and `N` then; `M` holds from the moment at which no key was found in the storage. -/
structure Opens (D : Discipline (device P)) (J M N : World → Prop) : Prop where
  rely : ∀ w w', J w → D.rely w w' → J w' ∧ (M w → M w')
  quiet : ∀ w w', J w → w.Quiet w' → D.guarantee w w' ∧ J w' ∧ (M w → M w')
  missing : ∀ w o x w', J w → D.allow w .storageRead o → (w.exec P .storageRead o).1 = .ok x →
    AuthService.missing x = true → D.rely (w.exec P .storageRead o).2 w' → M w'
  store : ∀ w b o, J w → M w → b.length = 32 → D.allow w (.storageWrite (Base64.encode b)) o →
    D.guarantee w (w.exec P (.storageWrite (Base64.encode b)) o).2 ∧
      J (w.exec P (.storageWrite (Base64.encode b)) o).2
  key : ∀ w o s w' b, J w → D.allow w .storageRead o →
    (w.exec P .storageRead o).1 = .ok (some s) → s ≠ [] →
    D.rely (w.exec P .storageRead o).2 w' →
    D.deliver w' .storageRead (w.exec P .storageRead o).1 → base64Decode s = .ok b →
    D.guarantee w' (AuthService.keyed b w') ∧
      D.guarantee (AuthService.keyed b w') (AuthService.opened (AuthService.keyed b w')) ∧
      N (AuthService.opened (AuthService.keyed b w'))

namespace Opens

/-- A call that changes nothing keeps what is known. -/
theorem call (hD : Opens D J M N) {op : Op} (hop : ¬ op.Mutates) {w : World} (hw : J w)
    {Q : Except DartError (Reply op) → World → Prop}
    (h : ∀ w₁ o w₂, J w₁ → D.allow w₁ op o → (M w → M w₂) → D.rely (w₁.exec P op o).2 w₂ →
      D.deliver w₂ op (w₁.exec P op o).1 → J w₂ → Q (w₁.exec P op o).1 w₂) : (call op).wp D Q w := by
  rw [wp_call]
  intro w₁ h₁ o ho
  obtain ⟨hj₁, hm₁⟩ := hD.rely _ _ hw h₁
  obtain ⟨hg, hj₂, hm₂⟩ := hD.quiet _ _ hj₁ (World.quiet_exec (P := P) w₁ hop o)
  refine ⟨hg, fun w₂ h₂ hd => ?_⟩
  obtain ⟨hj₃, hm₃⟩ := hD.rely _ _ hj₂ h₂
  exact h w₁ o w₂ hj₁ ho (fun hm => hm₃ (hm₂ (hm₁ hm))) h₂ hd hj₃

/-- The return of a function that keeps `R`, which the code around it and calls leave alone. -/
theorem awaited (hD : Opens D J M N) {α : Type} {p : App α} {w : World}
    {Q : Except DartError α → World → Prop}
    (h : p.wp D (fun r w => J w ∧ ∀ w', J w' → (M w → M w') → Q r w') w) :
    (awaited p).wp D Q w := by
  rw [wp_awaited]
  refine wp_mono p ?_ h
  rintro r w ⟨hw, hQ⟩
  apply hD.call id hw
  intro w₁ o w₂ _ _ hm _ _ hw₂
  exact hQ w₂ hw₂ hm

end Opens

namespace AuthService

open CryptoService

theorem randomBytes_opens (hD : Opens D J M N) (length : ℕ) {w : World} (hw : J w)
    {Q : Except DartError Bytes → World → Prop}
    (h : ∀ b w', b.length = length → J w' → (M w → M w') → Q (.ok b) w') :
    (CajaSegura.awaited (randomBytes P length)).wp D Q w := by
  apply hD.awaited
  have hq : w.Quiet { w with drawn := w.drawn + length } := by
    constructor
    · exact ⟨rfl, fun _ hp => hp, rfl, rfl⟩
    · exact ⟨[], rfl, nofun⟩
    all_goals rfl
  obtain ⟨hg, hj, hm⟩ := hD.quiet _ _ hw hq
  refine ⟨hg, hj, fun w' hw' hm' => ?_⟩
  exact h _ w' (length_drawn _ _) hw' fun hM => hm' (hm hM)

/-- A new key is stored only where none was found. -/
theorem generate_wp (hD : Opens D J M N) {w : World} (hw : J w) :
    (generate P).wp D (fun _ w' => J w') w := by
  unfold generate
  rw [wp_bind]
  apply hD.call id hw
  intro w₁ o w₂ hw₁ ho _ hr hd hw₂
  cases hx : (w₁.exec P .storageRead o).1 with
  | error e => exact hw₂
  | ok x =>
    dsimp only
    rw [wp_when]
    -- a key is drawn and stored only where none has been read
    refine ⟨fun hmiss => ?_, fun _ => hw₂⟩
    have hM := hD.missing w₁ o x w₂ hw₁ ho hx hmiss hr
    rw [wp_bind]
    apply randomBytes_opens hD 32 hw₂
    intro b w₃ hb hw₃ hM₃
    dsimp only
    rw [wp_bind, wp_call]
    intro w₄ h₄ o₄ ho₄
    obtain ⟨hw₄, hM₄⟩ := hD.rely _ _ hw₃ h₄
    obtain ⟨hg, hw₅⟩ := hD.store w₄ b o₄ hw₄ (hM₄ (hM₃ hM)) hb ho₄
    refine ⟨hg, fun w₆ h₆ _ => ?_⟩
    have hw₆ := (hD.rely _ _ hw₅ h₆).1
    cases (w₄.exec P (.storageWrite (Base64.encode b)) o₄).1 with
    | error e => exact hw₆
    | ok u =>
      dsimp only
      rw [wp_bind]
      apply hD.call id hw₆
      -- the stored text is read again, whatever it is
      intro w₇ o₇ w₈ _ _ _ _ _ hw₈
      cases (w₇.exec P .storageRead o₇).1 with
      | error e => exact hw₈
      | ok y =>
        dsimp only
        rw [wp_when]
        exact ⟨fun _ => hw₈, fun _ => hw₈⟩

theorem init_wp (hD : Opens D J M N) {w : World} (hw : J w) :
    (init P).wp D (fun _ w' => J w') w := by
  unfold init
  rw [wp_tryCatch]
  refine wp_mono _ ?_ (generate_wp hD hw)
  rintro (e | u) w' hw'
  · exact hw'
  · exact hw'

/-- An initialisation uses the storage only, and writes when it draws a key. -/
theorem within_initialising {A : Op → Prop} {G : World → World → Prop} (hhop : A .hop)
    (hread : A .storageRead) (hwrite : ∀ v, A (.storageWrite v))
    (hdraw : ∀ w n, w.drawn ≤ n → G w { w with drawn := n }) : (init P).Within A G := by
  have hrandom : (CajaSegura.awaited (randomBytes P 32)).Within A G :=
    within_awaited (Within.getModify fun w => hdraw w _ (Nat.le_add_right _ _)) hhop
  refine Within.tryCatch ?_ fun e => trivial
  refine Within.bind (within_call.mpr hread) fun existingKek => within_when ?_
  refine Within.bind hrandom fun kek => Within.bind (within_call.mpr (hwrite _)) fun _ => ?_
  exact Within.bind (within_call.mpr hread) fun verification => within_when trivial

theorem within_init {A : Op → Prop} {G : World → World → Prop} (hhop : A .hop)
    (hread : A .storageRead) (hwrite : ∀ v, A (.storageWrite v))
    (hdraw : ∀ w n, G w { w with drawn := n }) : (init P).Within A G :=
  within_initialising hhop hread hwrite fun w n _ => hdraw w n

/-- Whatever becomes of the calls, the answer keeps `J`. -/
theorem isBiometricAvailable_wp (hD : Opens D J M N) {w : World} (hw : J w) :
    (isBiometricAvailable : App Bool).wp D (fun _ w' => J w') w := by
  unfold isBiometricAvailable
  rw [wp_tryCatch, wp_bind]
  apply hD.call id hw
  intro w₁ o₁ w₂ _ _ _ _ _ hw₂
  -- three questions to the platform, each after an answer to the last
  rcases (w₁.exec P .isDeviceSupported o₁).1 with e | isAvailable
  · exact hw₂
  dsimp only
  cases isAvailable with
  | false => exact hw₂
  | true =>
    simp only [Bool.not_true, Bool.false_eq_true, if_false]
    rw [wp_bind]
    apply hD.call id hw₂
    intro w₃ o₃ w₄ _ _ _ _ _ hw₄
    rcases (w₃.exec P .canCheckBiometrics o₃).1 with e | canCheckBiometrics
    · exact hw₄
    dsimp only
    cases canCheckBiometrics with
    | false => exact hw₄
    | true =>
      simp only [Bool.not_true, Bool.false_eq_true, if_false]
      rw [wp_bind]
      apply hD.call id hw₄
      intro w₅ o₅ w₆ _ _ _ _ _ hw₆
      rcases (w₅.exec P .getAvailableBiometrics o₅).1 with e | available <;> exact hw₆

/-- The key is in memory, and the time stamp may be set. -/
structure Ready (D : Discipline (device P)) (N : World → Prop) (w : World) : Prop where
  guarantee : D.guarantee w (opened w)
  keeps : N (opened w)
  kek : w.auth._kek.isSome = true

/-- The text just read from the storage becomes the key. -/
theorem setKek_wp (hD : Opens D J M N) {w w' : World} (hw : J w) {o : Outcome .storageRead}
    {x : Option Text} (ho : D.allow w .storageRead o) (hx : (w.exec P .storageRead o).1 = .ok x)
    (hmiss : missing x = false) (hr : D.rely (w.exec P .storageRead o).2 w')
    (hd : D.deliver w' .storageRead (w.exec P .storageRead o).1) (hw' : J w') :
    (setKek (x.getD [])).wp D (fun r w => (∀ u, r = .ok u → Ready D N w) ∧
      ∀ e, r = .error e → J w) w' := by
  rcases x with - | s
  · exact absurd hmiss nofun
  have hs : s ≠ [] := by
    rintro rfl
    exact absurd hmiss nofun
  rw [Option.getD_some, setKek, wp_bind, wp_done]
  cases hb : base64Decode s with
  | error e => exact ⟨nofun, fun _ _ => hw'⟩
  | ok b =>
    obtain ⟨hk, hg, hj⟩ := hD.key w o s w' b hw ho hx hs hr hd hb
    exact ⟨hk, fun _ _ => ⟨hg, hj, rfl⟩, nofun⟩

/-- **The stored key is read**, or made when none was found. -/
theorem readKek_wp (hD : Opens D J M N) {w : World} (hw : J w) :
    (readKek P).wp D (fun r w => (∀ u, r = .ok u → Ready D N w) ∧ ∀ e, r = .error e → J w) w := by
  unfold readKek
  rw [wp_bind]
  apply hD.call id hw
  intro w₁ o w₂ hw₁ ho _ hr hd hw₂
  rcases hx : (w₁.exec P .storageRead o).1 with e | x
  · exact ⟨nofun, fun _ _ => hw₂⟩
  dsimp only
  -- the key is there, or a new one is made and read back
  cases hmiss : missing x with
  | false => exact setKek_wp hD hw₁ ho hx hmiss hr hd hw₂
  | true =>
    rw [if_pos rfl, wp_bind]
    apply hD.awaited
    refine wp_mono _ ?_ (init_wp hD hw₂)
    intro r w₃ hw₃
    refine ⟨hw₃, fun w₄ hw₄ _ => ?_⟩
    rcases r with e | u
    · exact ⟨nofun, fun _ _ => hw₄⟩
    dsimp only
    rw [wp_bind]
    apply hD.call id hw₄
    intro w₅ o₅ w₆ hw₅ ho₅ _ hr₅ hd₅ hw₆
    rcases hy : (w₅.exec P .storageRead o₅).1 with e | y
    · exact ⟨nofun, fun _ _ => hw₆⟩
    dsimp only
    rw [wp_bind, wp_when]
    exact ⟨fun _ => ⟨nofun, fun _ _ => hw₆⟩,
      fun hmiss₅ => setKek_wp hD hw₅ ho₅ hy hmiss₅ hr₅ hd₅ hw₆⟩

/-- The key is not missing after it was set. -/
theorem readKekAgain_wp {w : World} (hk : w.auth._kek.isSome = true)
    {Q : Except DartError Unit → World → Prop} (hQ : Q (.ok ()) w) :
    (readKekAgain P).wp D Q w := by
  have hsome : w.auth._kek.isNone = false := by
    rw [← Option.not_isSome]
    exact congrArg (! ·) hk
  unfold readKekAgain
  rw [wp_bind, wp_get]
  dsimp only
  rw [wp_when, hsome]
  exact ⟨nofun, fun _ => hQ⟩

/-- A kind of calls that contains those of an authentication. -/
structure Recognising (A : Op → Prop) : Prop where
  hop : A .hop
  storageRead : A .storageRead
  storageWrite : ∀ v, A (.storageWrite v)
  isDeviceSupported : A .isDeviceSupported
  canCheckBiometrics : A .canCheckBiometrics
  getAvailableBiometrics : A .getAvailableBiometrics
  localAuthenticate : ∀ reason, A (.localAuthenticate reason)

theorem recognising_all : Recognising fun _ => True := by
  constructor <;> intros <;> trivial

variable {A : Op → Prop} {G : World → World → Prop}

/-- The question whether the user can be recognised writes nothing. -/
theorem within_available (hA : Recognising A) :
    (isBiometricAvailable : App Bool).Within A G := by
  refine Within.tryCatch (Within.bind (within_call.mpr hA.isDeviceSupported) fun isAvailable => ?_)
    fun _ => trivial
  split
  · trivial
  · refine Within.bind (within_call.mpr hA.canCheckBiometrics) fun canCheckBiometrics => ?_
    split
    · trivial
    · exact Within.bind (within_call.mpr hA.getAvailableBiometrics) fun _ => trivial

theorem within_isBiometricAvailable : (isBiometricAvailable : App Bool).Within (fun _ => True) G :=
  within_available recognising_all

/-- An authentication writes when it draws a key, sets the key, and opens the session. -/
theorem within_recognising (hA : Recognising A)
    (hdraw : ∀ w n, w.drawn ≤ n → G w { w with drawn := n }) (hkeyed : ∀ w b, G w (keyed b w))
    (hopened : ∀ w, G w (opened w)) (reason : Option Text) :
    (authenticate P reason).Within A G := by
  have hstored : (call .storageRead).Within A G := within_call.mpr hA.storageRead
  have hset (s : Text) : (setKek s).Within A G :=
    Within.bind (Within.done _) fun b => Within.modify.mpr fun w => hkeyed w b
  have hinit : (CajaSegura.awaited (init P)).Within A G :=
    within_awaited (within_initialising hA.hop hA.storageRead hA.storageWrite hdraw) hA.hop
  have hread : (readKek P).Within A G := by
    refine Within.bind hstored fun kekString => ?_
    split
    · refine Within.bind hinit fun _ => Within.bind hstored fun newKekString => ?_
      exact Within.bind (within_when trivial) fun _ => hset _
    · exact hset _
  have hagain : (readKekAgain P).Within A G := by
    refine Within.bind (Within.get _) fun missingKek => within_when ?_
    refine Within.bind hinit fun _ => Within.bind hstored fun finalKekString => ?_
    cases finalKekString with
    | none => trivial
    | some s => exact hset s
  -- the parts in the order of `authenticate`
  refine Within.tryCatch ?_ fun e => Within.done _
  refine Within.bind (within_awaited (within_available hA) hA.hop) fun isAvailable => ?_
  refine Within.bind (within_when trivial) fun _ => ?_
  refine Within.bind (within_call.mpr (hA.localAuthenticate _)) fun authenticated => ?_
  split
  · trivial
  · refine Within.bind hread fun _ => Within.bind (Within.modify.mpr hopened) fun _ => ?_
    exact Within.bind hagain fun _ => trivial

theorem within_authenticate (hdraw : ∀ w n, G w { w with drawn := n })
    (hkeyed : ∀ w b, G w (keyed b w)) (hopened : ∀ w, G w (opened w)) (reason : Option Text) :
    (authenticate P reason).Within (fun _ => True) G :=
  within_recognising recognising_all (fun w n _ => hdraw w n) hkeyed hopened reason

/-- What is known when an authentication ends: it returns `true` exactly when it opens the
session. -/
def Ends (J N : World → Prop) (r : Except DartError Bool) (w : World) : Prop :=
  (r = .ok true → N w) ∧ (r ≠ .ok true → J w)

theorem onError_ne (e : DartError) : onError e ≠ .ok true := by
  unfold onError
  split
  · unfold onPlatform
    repeat' split
    all_goals exact nofun
  · split <;> exact nofun

/-- **An authentication** opens the session with the key that is stored. -/
theorem authenticate_wp (hD : Opens D J M N) (reason : Option Text) {w : World} (hw : J w) :
    (authenticate P reason).wp D (Ends J N) w := by
  -- wherever the call does not end with `true`, nothing has been opened
  have hcloses {r : Except DartError Bool} {w : World} (hw : J w) (hr : r ≠ .ok true) :
      Ends J N r w := ⟨fun h => absurd h hr, fun _ => hw⟩
  unfold authenticate
  rw [wp_tryCatch]
  refine wp_mono _ ?_ (?_ : (authenticateBody P reason).wp D (Ends J N) w)
  · rintro (e | b) w' hw'
    · exact (wp_done _).mpr (hcloses (hw'.2 nofun) (onError_ne e))
    · exact hw'
  unfold authenticateBody
  rw [wp_bind]
  apply hD.awaited
  refine wp_mono _ ?_ (isBiometricAvailable_wp hD hw)
  intro r w₁ hw₁
  refine ⟨hw₁, fun w₂ hw₂ _ => ?_⟩
  rcases r with e | isAvailable
  · exact hcloses hw₂ nofun
  dsimp only
  rw [wp_bind, wp_when]
  refine ⟨fun _ => hcloses hw₂ nofun, fun _ => ?_⟩
  dsimp only
  rw [wp_bind]
  apply hD.call id hw₂
  intro w₃ o₃ w₄ _ _ _ _ _ hw₄
  rcases (w₃.exec P (.localAuthenticate _) o₃).1 with e | authenticated
  · exact hcloses hw₄ nofun
  -- the answer of the prompt decides
  cases authenticated with
  | false => exact hcloses hw₄ (by simp)
  | true =>
    simp only [Bool.not_true, Bool.false_eq_true, if_false]
    rw [wp_bind]
    refine wp_mono _ ?_ (readKek_wp hD hw₄)
    rintro (e | u) w₅ ⟨hok, herr⟩
    · exact hcloses (herr e rfl) nofun
    · obtain ⟨hg, hj, hk⟩ := hok u rfl
      dsimp only
      rw [wp_bind, wp_modify]
      refine ⟨hg, ?_⟩
      dsimp only
      rw [wp_bind]
      exact readKekAgain_wp (w := opened w₅) hk ⟨fun _ => hj, fun h => absurd rfl h⟩

end AuthService

namespace LockManager

theorem unlock_wp (hD : Opens D J M J) {w : World} (hw : J w) :
    (unlock P).wp D (fun _ w' => J w') w := by
  apply hD.awaited
  refine wp_mono _ ?_ (AuthService.authenticate_wp hD _ hw)
  rintro r w₁ ⟨hok, herr⟩
  refine ⟨?_, fun w₂ hw₂ _ => hw₂⟩
  by_cases hr : r = .ok true
  · exact hok hr
  · exact herr hr

theorem init_wp (hD : Opens D J M N) {w : World} (hw : J w) :
    (init P).wp D (fun _ w' => J w') w := by
  apply hD.awaited
  refine wp_mono _ ?_ (AuthService.init_wp hD hw)
  intro r w₁ hw₁
  exact ⟨hw₁, fun w₂ hw₂ _ => hw₂⟩

end LockManager

end CajaSegura
