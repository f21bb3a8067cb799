import CajaSegura.Properties.Sealing
import CajaSegura.Services.CompanyRules

/-!
# The calls of the services under seal

What a thread does in a call: it opens the session, draws random bytes and uses them up, imports
what it has read and returns what it has opened.

## Main definitions

* `Neutral`, `Spare`: calls and changes that the invariant does not notice
* `At`: what a thread knows of the world

## Main results

* `keeps_within`, `keeps_plain`: a stretch whose calls leave the keys and share nothing
* `gkeeps_unlock`, `gkeeps_init`, `gkeeps_main`: the key in memory is the stored one
* `encryptWithWrappedKey_gwp`: an encryption uses up what it draws
* `exportClear_wp`, `gkeeps_importFile`: exports and imports
-/

namespace CajaSegura

open Codec Async
open Program hiding bind

variable {P : Platform}

namespace Sealing

/-! ## Steps -/

/-- The calls that are given no key to encrypt with, change neither the stored key nor what the world
gets to see, and write nothing. -/
def Neutral : Op → Prop
  | .encrypt .. | .storageWrite _ | .storageDelete | .shareXFiles .. | .copy .. => False
  | .writeAsBytes _ b => b = []
  | _ => True

/-- A change of nothing that the cipher, the keys, the marks or the answers depend on. -/
structure Spare (w w' : World) : Prop where
  storage : w'.storage = w.storage
  drawn : w.drawn ≤ w'.drawn
  heap : w'.heap = w.heap
  allocated : w'.allocated = w.allocated
  kek : w'.auth._kek = w.auth._kek
  answers : w'.record.answers = w.record.answers
  log : w'.record.encryptions = w.record.encryptions
  running : w'.record.running = w.record.running
  called : calledExports w ≤ calledExports w'
  ended : endedExports w' = endedExports w

theorem Spare.refl (w : World) : Spare w w :=
  ⟨rfl, le_rfl, rfl, rfl, rfl, rfl, rfl, rfl, le_rfl, rfl⟩

/-- What grows by steps of any thread only. -/
def Growing (K : Option Bytes) (T : World → Prop) : Prop := ∀ w w', T w → Grows K w w' → T w'

/-- What a thread knows of the world: the known key is stored, no other is in use, the thread is in
`h` handlers and `b` batches, and exports from the buffer `k`. -/
structure At (F : Prop) (K : Option Bytes) (i h b : ℕ) (k : Option Ref) (T : World → Prop) (γ : Purse)
    (w : World) : Prop where
  storage : KeyStored K w
  session : Keyed K w
  standing : Standing F K i γ w
  handler : γ.marks .handler = h
  batch : γ.marks .batch = b
  key : γ.key = k
  more : T w

section Steps

variable {F : Prop} {K : Option Bytes} {H : World → Prop} {i h b h' b' : ℕ} {k k' : Option Ref}
  {γ γ' : Purse} {w w' : World} {T T' : World → Prop}

theorem At.imp (hat : At F K i h b k T γ w) (hT : T w → T' w) : At F K i h b k T' γ w :=
  ⟨hat.storage, hat.session, hat.standing, hat.handler, hat.batch, hat.key, hT hat.more⟩

theorem At.rely (hT : Growing K T) (hat : At F K i h b k T γ w) (hr : Rely F K i γ w w') :
    At F K i h b k T γ w' :=
  ⟨hr.storage hat.storage, hr.session hat.session, hat.standing.rely hr, hat.handler,
    hat.batch, hat.key, hT _ _ hat.more hr.toGrows⟩

/-- A step of the thread itself. -/
theorem At.step (hT : Growing K T) (hat : At F K i h b k T γ w) (hg : Guarantee P F K H i γ γ' w w')
    (hh : γ'.marks .handler = h') (hb : γ'.marks .batch = b') (hkey : γ'.key = k') :
    At F K i h' b' k' T γ' w' :=
  ⟨hg.storage hat.storage, hg.session hat.session, hg.standing, hh, hb, hkey,
    hT _ _ hat.more hg.toGrows⟩

theorem growing_and (hT : Growing K T) (hT' : Growing K T') : Growing K fun w => T w ∧ T' w :=
  fun w w' h hg => ⟨hT w w' h.1 hg, hT' w w' h.2 hg⟩

theorem growing_true : Growing K fun _ => True := fun _ _ _ _ => trivial

theorem growing_keyLike (r : Ref) : Growing K (KeyLike K r) := fun _ _ h hg => hg.keys r h

theorem growing_answer (a : Sigma Outcome) : Growing K fun w => a ∈ w.record.answers :=
  fun _ _ h hg => hg.answers a h

theorem growing_log (e : Encryption) : Growing K fun w => e ∈ w.record.encryptions :=
  fun _ _ h hg => hg.log e h

theorem Spare.grows (hs : Spare w w') : Grows K w w' where
  storage hk key hkey := hs.storage.trans (hk key hkey)
  drawn := hs.drawn
  allocated := hs.allocated.ge
  keys r hr := by
    unfold KeyLike
    rw [hs.heap, hs.allocated]
    exact hr
  session hk r hr := by
    rw [hs.heap, hs.allocated]
    exact hk r (hs.kek ▸ hr)
  answers a ha := hs.answers ▸ ha
  log e he := hs.log ▸ he

/-- The marks and the buffers are as before. -/
theorem Standing.congr (hst : Standing F K i γ w) (hheap : w'.heap = w.heap)
    (halloc : w'.allocated = w.allocated) (hrun : w'.record.running = w.record.running) :
    Standing F K i γ w' where
  marks s := by rw [hrun, hst.marks]
  key hF r hr := by
    rw [hheap, halloc]
    exact hst.key hF r hr

theorem guarantee_spare (hst : Standing F K i γ w) (hs : Spare w w') :
    Guarantee P F K H i γ γ w w' where
  toGrows := hs.grows
  heap _ _ r _ := congrFun hs.heap r
  others _ _ _ := by rw [hs.running]
  standing := hst.congr hs.heap hs.allocated hs.running
  lawful a ha := .inl (hs.answers ▸ ha)
  permits := .inl ⟨hs.log, fun _ ht => .inl ht⟩
  exports := by
    rw [hs.ended]
    exact Nat.add_le_add_left hs.called _

/-- The log of the encryptions has the encryptions only. -/
theorem log_exec (w : World) {op : Op} (hop : ∀ c k n, op ≠ .encrypt c k n) (o : Outcome op) :
    (w.exec P op o).2.record.encryptions = w.record.encryptions := by
  change (w.effect P op o).2.record.encryptions = w.record.encryptions
  cases op with
  | encrypt c k n => exact absurd rfl (hop c k n)
  | setPreference k v => rcases o with e | (_ | _) <;> rfl
  | removePreference k => rcases o with e | (_ | _) <;> rfl
  | dirCreate d => rfl
  | writeAsBytes f b => rfl
  | delete f => rfl
  | rename f t => rfl
  | copy f t => rfl
  | _ => cases o <;> rfl

theorem storage_exec (w : World) {op : Op} (hop : ∀ v, op ≠ .storageWrite v)
    (hop' : op ≠ .storageDelete) (o : Outcome op) : (w.exec P op o).2.storage = w.storage := by
  change (w.effect P op o).2.storage = w.storage
  cases op with
  | storageWrite v => exact absurd rfl (hop v)
  | storageDelete => exact absurd rfl hop'
  | encrypt c k n =>
    cases o with
    | none =>
      unfold World.effect World.encryptUnder
      dsimp only
      split <;> rfl
    | some e => rfl
  | setPreference k v => rcases o with e | (_ | _) <;> rfl
  | removePreference k => rcases o with e | (_ | _) <;> rfl
  | dirCreate d => rfl
  | writeAsBytes f b => rfl
  | delete f => rfl
  | rename f t => rfl
  | copy f t => rfl
  | _ => cases o <;> rfl

/-- A call that encrypts nothing. -/
theorem guarantee_exec (hst : Standing F K i γ w) {op : Op} {o : Outcome op}
    (hlog : ∀ c k n, op ≠ .encrypt c k n) (hwrite : ∀ v, op ≠ .storageWrite v)
    (hdelete : op ≠ .storageDelete) (hlawful : Lawful P F K w ⟨op, o⟩) :
    Guarantee P F K H i γ γ w (w.exec P op o).2 := by
  have ho := World.outside_exec P w op o
  have hl := log_exec (P := P) w hlog o
  have hgrows : Grows K w (w.exec P op o).2 := by
    refine ⟨fun hk key hkey => (storage_exec w hwrite hdelete o).trans (hk key hkey), ho.drawn.ge,
      ho.allocated.ge, fun r hr => ?_, fun hk r hr => ?_, fun a ha => ?_, fun e he => hl ▸ he⟩
    · unfold KeyLike
      rw [ho.heap, ho.allocated]
      exact hr
    · rw [ho.heap, ho.allocated]
      exact hk r (ho.auth ▸ hr)
    · rw [World.answers_exec]
      exact List.mem_cons_of_mem _ ha
  constructor
  case toGrows => exact hgrows
  case heap => exact fun _ _ r _ => congrFun ho.heap r
  case others => exact fun _ _ _ => by rw [ho.running]
  case standing => exact hst.congr ho.heap ho.allocated ho.running
  case lawful =>
    intro a ha
    rw [World.answers_exec] at ha
    rcases List.mem_cons.mp ha with rfl | ha
    · exact .inr (hlawful.mono hgrows)
    · exact .inl ha
  case permits => exact .inl ⟨hl, fun _ ht => .inl ht⟩
  case exports =>
    unfold endedExports calledExports
    rw [ho.replies, ho.calls]

theorem guarantee_plain (hst : Standing F K i γ w) {op : Op} (hop : Neutral op) (o : Outcome op) :
    Guarantee P F K H i γ γ w (w.exec P op o).2 := by
  refine guarantee_exec hst ?_ ?_ ?_ ⟨?_, ?_, ?_⟩
  · rintro c k n rfl
    exact hop
  · rintro v rfl
    exact hop
  · rintro rfl
    exact hop
  · rintro - d n m rfl
    exact hop.elim
  · rintro f b rfl
    exact .inl hop
  · rintro f t rfl
    exact hop.elim

/-! ### Stretches -/

/-- A stretch whose calls the thread may make. -/
theorem keeps_within {α : Type} {p : App α} {A : Op → Prop} (hT : Growing K T)
    (hp : p.Within A Spare) (hA : ∀ op w o, A op → At F K i h b k T γ w →
      Guarantee P F K H i γ γ w (w.exec P op o).2) :
    p.Keeps ((sealer P F K H i).fixed γ) (At F K i h b k T γ) := by
  refine Within.keeps hp (fun w w' hat hr => hat.rely hT hr) (fun w w' hat hs => ?_) ?_
  · have hg : Guarantee P F K H i γ γ w w' := guarantee_spare hat.standing hs
    exact ⟨hg, hat.step hT hg hat.handler hat.batch hat.key⟩
  · intro op hop w o hat _
    have hg := hA op w o hop hat
    exact ⟨hg, hat.step hT hg hat.handler hat.batch hat.key⟩

/-- A stretch that encrypts, stores, shares and writes nothing. -/
theorem keeps_plain {α : Type} {p : App α} (hT : Growing K T) (hp : p.Within Neutral Spare)
    (γ : Purse) : p.Keeps ((sealer P F K H i).fixed γ) (At F K i h b k T γ) :=
  keeps_within hT hp fun _ _ o hop hat => guarantee_plain hat.standing hop o

theorem gkeeps_plain {α : Type} {p : App α} (hT : Growing K T) (hp : p.Within Neutral Spare) :
    p.GKeeps (sealer P F K H i) (At F K i h b k T) := GKeeps.of_keeps (keeps_plain hT hp)

theorem gkeeps_modify (hT : Growing K T) {f : World → World} (hf : ∀ w, Spare w (f w)) :
    (Program.modify f).GKeeps (sealer P F K H i) (At F K i h b k T) :=
  gkeeps_plain hT (Within.modify.mpr hf)

theorem gkeeps_when {c : Bool} {p : App Unit} {I : Purse → World → Prop}
    (hp : p.GKeeps (sealer P F K H i) I) : (when c p).GKeeps (sealer P F K H i) I := by
  cases c
  · exact GKeeps.ret ()
  · exact hp

theorem gkeeps_awaited {α : Type} {p : App α} (hT : Growing K T)
    (hp : p.GKeeps (sealer P F K H i) (At F K i h b k T)) :
    (awaited p).GKeeps (sealer P F K H i) (At F K i h b k T) := by
  have hhop (r : Except DartError α) : (Program.await .hop fun _ => Program.done r : App α).Within
      Neutral Spare := ⟨trivial, fun _ => Within.done r⟩
  exact GKeeps.handle hp fun r => gkeeps_plain hT (hhop r)

end Steps

/-! ### Sessions -/

/-- What a step of an authentication does to the key. -/
structure Opening (F : Prop) (K : Option Bytes) (i : ℕ) (γ : Purse) (w w' : World) : Prop where
  storage : KeyStored K w → KeyStored K w'
  allocated : w.allocated ≤ w'.allocated
  heap : ∀ r < w.allocated, w'.heap r = w.heap r
  session : Keyed K w → Keyed K w'
  standing : Standing F K i γ w'

/-- What it does to everything else. -/
structure Asking (w w' : World) : Prop where
  drawn : w.drawn ≤ w'.drawn
  log : w'.record.encryptions = w.record.encryptions
  running : w'.record.running = w.record.running
  answers : ∀ a ∈ w.record.answers, a ∈ w'.record.answers
  lawful : ∀ a ∈ w'.record.answers, a ∈ w.record.answers ∨
    (∀ d n m, a.1 ≠ .shareXFiles d n m) ∧ (∀ f b, a.1 ≠ .writeAsBytes f b) ∧
      ∀ f t, a.1 ≠ .copy f t
  calls : w'.record.calls = w.record.calls
  replies : w'.record.replies = w.record.replies

/-- The calls of an authentication. -/
def Asks : Op → Prop
  | .hop | .storageRead | .storageWrite _ | .isDeviceSupported | .canCheckBiometrics => True
  | .getAvailableBiometrics | .localAuthenticate _ => True
  | _ => False

theorem recognising_asks : AuthService.Recognising Asks := by
  constructor <;> intros <;> trivial

section Sessions

variable {F : Prop} {K : Option Bytes} {H : World → Prop} {i h b : ℕ} {k : Option Ref} {γ : Purse}
  {w w' : World} {T : World → Prop}

theorem guarantee_opening (ho : Opening F K i γ w w') (ha : Asking w w') :
    Guarantee P F K H i γ γ w w' where
  storage := ho.storage
  drawn := ha.drawn
  allocated := ho.allocated
  keys r hr := by
    refine ⟨hr.1.trans_le ho.allocated, ?_⟩
    rw [ho.heap r hr.1]
    exact hr.2
  session := ho.session
  answers := ha.answers
  log e he := ha.log ▸ he
  heap _ _ r hlt := ho.heap r hlt
  others _ _ _ := by rw [ha.running]
  standing := ho.standing
  lawful a hmem := by
    rcases ha.lawful a hmem with hold | ⟨hshare, hwrite, hcopy⟩
    · exact .inl hold
    · exact .inr ⟨fun _ d n m he => absurd he (hshare d n m),
        fun f b he => absurd he (hwrite f b), fun f t he => absurd he (hcopy f t)⟩
  permits := .inl ⟨ha.log, fun _ ht => .inl ht⟩
  exports := by
    unfold endedExports calledExports
    rw [ha.replies, ha.calls]

/-- The discipline of the key in an authentication. -/
def opening (P : Platform) (F : Prop) (K : Option Bytes) (H : World → Prop) (i : ℕ) (γ : Purse) :
    Discipline (device P) := { (sealer P F K H i).fixed γ with guarantee := Opening F K i γ }

/-- The known key is stored, and the thread knows where it is. -/
def Stands (F : Prop) (K : Option Bytes) (i : ℕ) (γ : Purse) (w : World) : Prop :=
  KeyStored K w ∧ Standing F K i γ w

theorem opening_same (hst : Stands F K i γ w) (hstorage : KeyStored K w → KeyStored K w')
    (hheap : w'.heap = w.heap) (halloc : w'.allocated = w.allocated)
    (hkek : w'.auth._kek = w.auth._kek) (hrun : w'.record.running = w.record.running) :
    Opening F K i γ w w' ∧ Stands F K i γ w' := by
  have hst' : Standing F K i γ w' := hst.2.congr hheap halloc hrun
  refine ⟨⟨hstorage, halloc.ge, fun r _ => congrFun hheap r, fun hk r hr => ?_, hst'⟩,
    hstorage hst.1, hst'⟩
  rw [hheap, halloc]
  exact hk r (hkek ▸ hr)

/-- The known key is decoded into a new buffer. -/
theorem opening_keyed (hst : Stands F K i γ w) {key : Bytes} (hkey : ∀ known ∈ K, key = known) :
    Opening F K i γ w (AuthService.keyed key w) ∧ Stands F K i γ (AuthService.keyed key w) := by
  have hst' : Standing F K i γ (AuthService.keyed key w) := by
    refine ⟨hst.2.marks, fun hF r hr => ?_⟩
    obtain ⟨hK, hlt, hmarks⟩ := hst.2.key hF r hr
    refine ⟨fun known hknown => ?_, hlt.trans (Nat.lt_succ_self _), hmarks⟩
    exact (Function.update_of_ne hlt.ne ..).trans (hK known hknown)
  refine ⟨⟨id, Nat.le_succ _, fun r hr => Function.update_of_ne hr.ne .., fun _ r hr => ?_, hst'⟩,
    hst.1, hst'⟩
  obtain rfl : w.allocated = r := Option.some.inj hr
  refine ⟨fun known hknown => ?_, Nat.lt_succ_self _⟩
  exact (Function.update_self ..).trans (hkey known hknown)

/-- A known key is found, and it is the one in every new buffer. -/
theorem opens_sealing (hK : ∀ key ∈ K, key.length = 32) :
    Opens (opening P F K H i γ) (Stands F K i γ) (fun _ => K = none) (Stands F K i γ) where
  rely w w' hst hr := ⟨⟨hr.storage hst.1, hst.2.rely hr⟩, id⟩
  quiet w w' hst hq := by
    obtain ⟨hg, hst'⟩ := opening_same hst (fun hk key hkey => hq.storage.trans (hk key hkey))
      hq.heap hq.allocated (congrArg _ hq.auth) hq.running
    exact ⟨hg, hst', id⟩
  missing w o x w' hst ho hx hmiss _ := hst.1.unknown hK ho.1.1 hx hmiss
  store w b o hst hnone _ _ := by
    subst hnone
    have hout := World.outside_exec P w (.storageWrite (Base64.encode b)) o
    exact opening_same hst (fun _ => nofun) hout.heap hout.allocated (congrArg _ hout.auth)
      hout.running
  key w o s w' b hst ho hx _ hr _ hb := by
    have hq := World.quiet_exec (P := P) w (show ¬ Op.storageRead.Mutates from id) o
    obtain ⟨-, hst₀⟩ := opening_same hst (fun hk key hkey => hq.storage.trans (hk key hkey))
      hq.heap hq.allocated (congrArg _ hq.auth) hq.running
    have hst₁ : Stands F K i γ w' := ⟨hr.storage hst₀.1, hst₀.2.rely hr⟩
    obtain ⟨hg₁, hst₂⟩ := opening_keyed hst₁ (hst.1.decoded ho.1.1 hx hb)
    have hopened (w : World) (hst : Stands F K i γ w) : Opening F K i γ w (AuthService.opened w) ∧
        Stands F K i γ (AuthService.opened w) := opening_same hst id rfl rfl rfl rfl
    obtain ⟨hg₂, hst₃⟩ := hopened _ hst₂
    exact ⟨hg₁, hg₂, hst₃⟩

theorem asking_exec (w : World) {op : Op} (hop : Asks op) (o : Outcome op) :
    Asking w (w.exec P op o).2 := by
  have ho := World.outside_exec P w op o
  have hanswers := World.answers_exec (P := P) w op o
  refine ⟨ho.drawn.ge, log_exec w ?_ o, ho.running, fun a ha => ?_, fun a ha => ?_, ho.calls,
    ho.replies⟩
  · rintro c k n rfl
    exact hop
  · rw [hanswers]
    exact List.mem_cons_of_mem _ ha
  · rw [hanswers] at ha
    rcases List.mem_cons.mp ha with rfl | ha
    · refine .inr ⟨?_, ?_, ?_⟩
      · rintro d n m rfl
        exact hop
      · rintro f b rfl
        exact hop
      · rintro f t rfl
        exact hop
    · exact .inl ha

/-- A stretch that may open the session. -/
theorem keeps_opening {α : Type} {p : App α} (hT : Growing K T)
    (hopens : ∀ w, Stands F K i γ w → p.wp (opening P F K H i γ) (fun _ _ => True) w)
    (hp : p.Within Asks Asking) : p.Keeps ((sealer P F K H i).fixed γ) (At F K i h b k T γ) := by
  intro w hat
  have hasks : p.wp { (sealer P F K H i).fixed γ with guarantee := Asking } (fun _ _ => True) w :=
    Within.wp hp (fun _ _ h => h) fun op hop w o _ => asking_exec w hop o
  have hboth := wp_both p (hopens w ⟨hat.storage, hat.standing⟩) hasks
  have hmeets : p.wp _ (fun _ _ => True) w := wp_mono p (fun _ _ _ => trivial) hboth
  have hwp : p.wp ((sealer P F K H i).fixed γ) (fun _ _ => True) w := by
    refine wp_weaken p ?_ ?_ ?_ ?_ hmeets
    · exact fun _ _ _ h => h
    · exact fun _ _ _ h => h
    · exact fun _ _ h => h
    · exact fun w w' hg => guarantee_opening hg.1 hg.2
  refine wp_mono p (fun _ _ h => h.2) (wp_keeps (fun w w' hat hr => hat.rely hT hr) ?_ p hat hwp)
  exact fun w w' hat hg => hat.step hT hg hat.handler hat.batch hat.key

theorem gkeeps_unlock (hT : Growing K T) (hK : ∀ key ∈ K, key.length = 32) :
    (awaited (LockManager.unlock P)).GKeeps (sealer P F K H i) (At F K i h b k T) := by
  refine gkeeps_awaited hT (GKeeps.of_keeps fun γ => keeps_opening hT (fun w hst => ?_) ?_)
  · exact wp_mono _ (fun _ _ _ => trivial) (LockManager.unlock_wp (opens_sealing hK) hst)
  · refine within_awaited (AuthService.within_recognising recognising_asks (fun w n hn => ?_)
      (fun w b => ?_) (fun w => ?_) _) trivial
    · exact ⟨hn, rfl, rfl, fun _ => id, fun _ => .inl, rfl, rfl⟩
    · exact ⟨le_rfl, rfl, rfl, fun _ => id, fun _ => .inl, rfl, rfl⟩
    · exact ⟨le_rfl, rfl, rfl, fun _ => id, fun _ => .inl, rfl, rfl⟩

theorem gkeeps_init (hT : Growing K T) (hK : ∀ key ∈ K, key.length = 32) :
    (awaited (LockManager.init P)).GKeeps (sealer P F K H i) (At F K i h b k T) := by
  refine gkeeps_awaited hT (GKeeps.of_keeps fun γ => keeps_opening hT (fun w hst => ?_) ?_)
  · exact wp_mono _ (fun _ _ _ => trivial) (LockManager.init_wp (opens_sealing hK) hst)
  · refine within_awaited (AuthService.within_initialising trivial trivial (fun _ => trivial)
      fun w n hn => ?_) trivial
    exact ⟨hn, rfl, rfl, fun _ => id, fun _ => .inl, rfl, rfl⟩

theorem gkeeps_main (hK : ∀ key ∈ K, key.length = 32) :
    (CajaSegura.main P).GKeeps (sealer P F K H i) (At F K i h b k fun _ => True) := by
  have hchrome : (call .systemChrome).GKeeps (sealer P F K H i) (At F K i h b k fun _ => True) :=
    gkeeps_plain growing_true (within_call.mpr trivial)
  have hsettings : (awaited SettingsService.init).GKeeps (sealer P F K H i)
      (At F K i h b k fun _ => True) := by
    refine gkeeps_plain growing_true (within_awaited (Within.mono ?_ (fun _ _ h => h)
      (SettingsService.within_init fun w => ?_)) trivial)
    · rintro op (rfl | rfl | ⟨k, v, rfl⟩ | ⟨k, rfl⟩) <;> trivial
    · exact ⟨rfl, le_rfl, rfl, rfl, rfl, rfl, rfl, rfl, le_rfl, rfl⟩
  refine GKeeps.bind hchrome fun _ => GKeeps.bind ?_ fun _ => GKeeps.bind ?_ fun _ => ?_
  · exact GKeeps.tryCatch (GKeeps.bind hsettings fun _ => gkeeps_init growing_true hK)
      fun _ => GKeeps.ret ()
  · refine GKeeps.tryCatch (GKeeps.bind (GKeeps.get _) fun enabled => ?_) fun _ => GKeeps.ret ()
    exact GKeeps.bind (GKeeps.done enabled) fun enabled => gkeeps_when hchrome
  · exact gkeeps_modify growing_true fun w =>
      ⟨rfl, le_rfl, rfl, rfl, rfl, rfl, rfl, rfl, le_rfl, rfl⟩

end Sessions

/-! ### Encryptions -/

/-- The parts of the bundle are boxes of encryptions. -/
def Bundled (P : Platform) (bundle : Bundle) (w : World) : Prop :=
  (∃ e ∈ w.record.encryptions, bundle.cipher = e.box P) ∧
    ∃ e ∈ w.record.encryptions, bundle.dekWrapped = e.box P

section Encryptions

variable {F : Prop} {K : Option Bytes} {H : World → Prop} {i h b : ℕ} {k : Option Ref} {γ : Purse}
  {w : World} {T : World → Prop}

theorem growing_bundled (bundle : Bundle) : Growing K (Bundled P bundle) := by
  rintro w w' ⟨⟨e, he, hc⟩, e', he', hd⟩ hg
  exact ⟨⟨e, hg.log e he, hc⟩, e', hg.log e' he', hd⟩

theorem growing_drawn (n : ℕ) : Growing K fun w => n ≤ w.drawn := fun _ _ h hg => h.trans hg.drawn

theorem gwp_awaited {α : Type} {p : App α} {Q : Except DartError α → Purse → World → Prop} :
    (awaited p).gwp (sealer P F K H i) Q γ w ↔ p.gwp (sealer P F K H i)
      (fun r γ w => (call .hop).gwp (sealer P F K H i) (fun _ γ w => Q r γ w) γ w) γ w := by
  refine (gwp_handle p _).trans (iff_of_eq (congrArg (fun R => p.gwp _ R γ w) ?_))
  funext r γ w
  refine propext ((Program.gwp_await _ _).trans (Iff.trans ?_ gwp_call.symm))
  simp only [gwp_done]
  rfl

/-- The return of a function. -/
theorem hop_gwp (hT : Growing K T) (hat : At F K i h b k T γ w) :
    (call .hop).gwp (sealer P F K H i) (fun _ γ' w' => γ' = γ ∧ At F K i h b k T γ' w') γ w :=
  gwp_of_wp (keeps_plain hT (within_call.mpr (show Neutral .hop from trivial)) γ w hat)
    fun _ _ hat' => ⟨rfl, hat'⟩

/-- Random bytes are drawn, with permits for them. -/
theorem randomBytes_gwp (hT : Growing K T) {length : ℕ} (new : Set Permit)
    (hnew : ∀ t ∈ new, t.start = w.drawn ∧ t.length = length) (hat : At F K i h b k T γ w) :
    (awaited (CryptoService.randomBytes P length)).gwp (sealer P F K H i) (fun x γ' w' =>
      x = .ok (CryptoService.drawn P w.drawn length) ∧ γ'.permits = γ.permits ∪ new ∧
        At F K i h b k (fun w' => T w' ∧ w.drawn + length ≤ w'.drawn) γ' w') γ w := by
  let γ₁ : Purse := { γ with permits := γ.permits ∪ new }
  let w₁ : World := { w with drawn := w.drawn + length }
  rw [gwp_awaited]
  have hgrows : Grows K w w₁ :=
    ⟨id, Nat.le_add_right _ _, le_rfl, fun _ => id, id, fun _ => id, fun _ => id⟩
  have hg : Guarantee P F K H i γ γ₁ w w₁ := by
    refine ⟨hgrows, fun _ _ _ _ => rfl, fun _ _ _ => rfl, ⟨hat.standing.marks, hat.standing.key⟩,
      fun _ => .inl, .inl ⟨rfl, fun t ht => ht.imp id fun ht => ?_⟩, le_rfl⟩
    obtain ⟨hstart, hlength⟩ := hnew t ht
    exact ⟨hstart, by rw [hstart, hlength]⟩
  unfold CryptoService.randomBytes
  rw [gwp_getModify]
  refine ⟨γ₁, hg, ?_⟩
  have hat₁ : At F K i h b k (fun w' => T w' ∧ w.drawn + length ≤ w'.drawn) γ₁ w₁ :=
    (hat.step hT hg hat.handler hat.batch hat.key).imp fun ht => ⟨ht, le_rfl⟩
  refine gwp_mono _ ?_ (hop_gwp (growing_and hT (growing_drawn _)) hat₁)
  rintro r γ' w' ⟨rfl, hat'⟩
  exact ⟨rfl, rfl, hat'⟩

theorem exec_encrypt {clear nonce : Bytes} {key : SecretKey} (hk : (w.keyBytes key).length = 32) :
    w.exec P (.encrypt clear key nonce) none = (.ok (P.aes.encrypt (w.keyBytes key) nonce clear),
      { w with record := { w.record with
        encryptions := ⟨w.keyBytes key, nonce, clear⟩ :: w.record.encryptions
        answers := ⟨.encrypt clear key nonce, none⟩ :: w.record.answers } }) := by
  unfold World.exec World.effect World.encryptUnder
  dsimp only
  rw [if_pos hk]

/-- Under a key of another length nothing is encrypted, nor when the call throws. -/
theorem exec_encrypt_fails (clear nonce : Bytes) {key : SecretKey} {o : Option DartError}
    (ho : o = none → (w.keyBytes key).length ≠ 32) :
    ∃ e, w.exec P (.encrypt clear key nonce) o = (.error e, { w with record := { w.record with
      answers := ⟨.encrypt clear key nonce, o⟩ :: w.record.answers } }) := by
  cases o with
  | some e => exact ⟨e, rfl⟩
  | none =>
    unfold World.exec World.effect World.encryptUnder
    dsimp only
    rw [if_neg (ho rfl)]
    exact ⟨_, rfl⟩

/-- An encryption that uses up permits of the thread. -/
theorem encrypt_gwp (hT : Growing K T) {clear nonce : Bytes} {key : SecretKey} (ps : List Permit)
    (hkey : ∀ w, T w → ∃ u, Proper K H u ∧ u.permits = ps ∧
      u.encryption P = ⟨w.keyBytes key, nonce, clear⟩)
    (hps : ∀ t ∈ ps, t ∈ γ.permits) (hat : At F K i h b k T γ w) :
    (call (.encrypt clear key nonce)).gwp (sealer P F K H i) (fun x γ' w' =>
      γ'.permits = {t ∈ γ.permits | t ∉ ps} ∧ At F K i h b k T γ' w' ∧
        ∀ box, x = .ok box → ∃ e ∈ w'.record.encryptions, box.concat = e.box P) γ w := by
  let γ₁ : Purse := { γ with permits := {t ∈ γ.permits | t ∉ ps} }
  rw [gwp_call]
  intro w₁ h₁ o ho
  have hat₁ := hat.rely hT h₁
  -- an encryption is neither shared nor written
  have hlawful (w : World) (o : Option DartError) :
      Lawful P F K w ⟨.encrypt clear key nonce, o⟩ := ⟨nofun, nofun, nofun⟩
  by_cases hworks : o = none ∧ (w₁.keyBytes key).length = 32
  · obtain ⟨rfl, hlength⟩ := hworks
    obtain ⟨u, hproper, hpermits, hencryption⟩ := hkey w₁ hat₁.more
    rw [exec_encrypt hlength]
    have hg : Guarantee P F K H i γ γ₁ w₁ { w₁ with record := { w₁.record with
        encryptions := ⟨w₁.keyBytes key, nonce, clear⟩ :: w₁.record.encryptions
        answers := ⟨.encrypt clear key nonce, none⟩ :: w₁.record.answers } } := by
      refine ⟨⟨id, le_rfl, le_rfl, fun _ => id, id, fun a ha => List.mem_cons_of_mem _ ha,
        fun e he => List.mem_cons_of_mem _ he⟩, fun _ _ _ _ => rfl, fun _ _ _ => rfl,
        ⟨hat₁.standing.marks, hat₁.standing.key⟩, fun a ha => ?_,
        .inr ⟨u, hproper, rfl, congrArg (· :: _) hencryption.symm, hpermits ▸ hps,
          fun t ht => hpermits ▸ ht⟩, le_rfl⟩
      rcases List.mem_cons.mp ha with rfl | ha
      · exact .inr (hlawful _ _)
      · exact .inl ha
    refine ⟨γ₁, hg, fun w₂ h₂ _ => ⟨rfl, ?_, fun box hbox => ?_⟩⟩
    · exact (hat₁.step hT hg hat.handler hat.batch hat.key).rely hT h₂
    · cases hbox
      exact ⟨_, h₂.log _ List.mem_cons_self, rfl⟩
  · -- nothing is encrypted, and the permits are lost
    have hfails : o = none → (w₁.keyBytes key).length ≠ 32 := fun hnone hl => hworks ⟨hnone, hl⟩
    obtain ⟨e, hexec⟩ := exec_encrypt_fails (P := P) clear nonce hfails
    rw [hexec]
    have hg : Guarantee P F K H i γ γ₁ w₁ { w₁ with record := { w₁.record with
        answers := ⟨.encrypt clear key nonce, o⟩ :: w₁.record.answers } } := by
      refine ⟨⟨id, le_rfl, le_rfl, fun _ => id, id, fun a ha => List.mem_cons_of_mem _ ha,
        fun _ => id⟩, fun _ _ _ _ => rfl, fun _ _ _ => rfl,
        ⟨hat₁.standing.marks, hat₁.standing.key⟩, fun a ha => ?_, .inl ⟨rfl, fun t ht => .inl ht.1⟩,
        le_rfl⟩
      rcases List.mem_cons.mp ha with rfl | ha
      · exact .inr (hlawful _ _)
      · exact .inl ha
    refine ⟨γ₁, hg, fun w₂ h₂ _ => ⟨rfl, ?_, fun box hbox => by cases hbox⟩⟩
    exact (hat₁.step hT hg hat.handler hat.batch hat.key).rely hT h₂

/-- **The encryption of a file** uses up what it draws: a key for the contents, which is wrapped
once, and two nonces. -/
theorem encryptWithWrappedKey_gwp (hT : Growing K T) {data : Bytes} {r : Ref}
    (hdata : Imported H data) (hr : ∀ w, T w → KeyLike K r w) (hat : At F K i h b k T γ w) :
    (CryptoService.encryptWithWrappedKey P data r).gwp (sealer P F K H i) (fun x γ' w' =>
      At F K i h b k T γ' w' ∧ ∀ bundle, x = .ok bundle → Bundled P bundle w') γ w := by
  unfold CryptoService.encryptWithWrappedKey
  -- the three draws
  rw [gwp_bind]
  refine gwp_mono _ ?_ (randomBytes_gwp hT {.contents w.drawn, .wrapping w.drawn}
    (by rintro t (rfl | rfl) <;> exact ⟨rfl, rfl⟩) hat)
  rintro _ γ₁ w₁ ⟨rfl, hp₁, hat₁⟩
  have hT₁ := growing_and hT (growing_drawn (K := K) (w.drawn + 32))
  dsimp only
  rw [gwp_bind]
  refine gwp_mono _ ?_ (randomBytes_gwp hT₁ {.nonce w₁.drawn}
    (by rintro t rfl; exact ⟨rfl, rfl⟩) hat₁)
  rintro _ γ₂ w₂ ⟨rfl, hp₂, hat₂⟩
  have hT₂ := growing_and hT₁ (growing_drawn (K := K) (w₁.drawn + 12))
  dsimp only
  rw [gwp_bind]
  refine gwp_mono _ ?_ (randomBytes_gwp hT₂ {.nonce w₂.drawn}
    (by rintro t rfl; exact ⟨rfl, rfl⟩) hat₂)
  rintro _ γ₃ w₃ ⟨rfl, hp₃, hat₃⟩
  have hne : w₁.drawn ≠ w₂.drawn := by
    have hle := hat₂.more.2
    omega
  have hat₃ : At F K i h b k T γ₃ w₃ := hat₃.imp fun ht => ht.1.1.1
  dsimp only
  -- the contents
  rw [gwp_bind]
  refine gwp_mono _ ?_ (encrypt_gwp hT [.contents w.drawn, .nonce w₁.drawn]
    (fun w' _ => ⟨.contents w.drawn w₁.drawn data, hdata, rfl, rfl⟩)
    (by simp [hp₃, hp₂, hp₁]) hat₃)
  rintro (e | secretBox) γ₄ w₄ ⟨hp₄, hat₄, hbox⟩
  · exact ⟨hat₄, fun bundle hb => by cases hb⟩
  obtain ⟨e, he, hcipher⟩ := hbox secretBox rfl
  have hT₄ := growing_and hT (growing_log (K := K) e)
  have hat₄ : At F K i h b k (fun w => T w ∧ e ∈ w.record.encryptions) γ₄ w₄ :=
    hat₄.imp fun ht => ⟨ht, he⟩
  dsimp only
  -- the key of the contents, under the stored key or what a lock has left of it
  rw [gwp_bind]
  refine gwp_mono _ ?_ (encrypt_gwp hT₄ [.wrapping w.drawn, .nonce w₂.drawn] ?_ ?_ hat₄)
  · rintro (e' | wrapped) γ₅ w₅ ⟨-, hat₅, hbox'⟩
    · exact ⟨hat₅.imp fun ht => ht.1, fun bundle hb => by cases hb⟩
    obtain ⟨e', he', hwrapped⟩ := hbox' wrapped rfl
    refine ⟨hat₅.imp fun ht => ht.1, fun bundle hb => ?_⟩
    cases hb
    exact ⟨⟨e, hat₅.more.2, hcipher⟩, e', he', hwrapped⟩
  · exact fun w' ht => ⟨.wrapping (w'.heap r) w.drawn w₂.drawn, (hr w' ht.1).2, rfl, rfl⟩
  · have hne' : w₂.drawn ≠ w₁.drawn := hne.symm
    simp [hp₄, hp₃, hp₂, hp₁, hne']

end Encryptions

/-! ### Exports and imports -/

theorem seeing_neutral : Seeing Neutral where
  sees op hop := by cases op <;> first | exact trivial | exact absurd hop id
  hop := trivial

theorem discarding_neutral : Discarding Neutral where
  toSeeing := seeing_neutral
  delayed _ := trivial
  delete _ := trivial
  rename _ _ := trivial
  empty _ := rfl

section Vault

variable {F : Prop} {K : Option Bytes} {H : World → Prop} {i h b : ℕ} {k : Option Ref} {γ : Purse}
  {w : World} {T : World → Prop}

/-- What has opened under a key, in guarded runs. -/
def Guarded (F : Prop) (key clear : Bytes) (w : World) : Prop :=
  F → Opened w.record.encryptions key clear

theorem growing_guarded (key clear : Bytes) : Growing K (Guarded F key clear) :=
  fun _ _ h hg hF => Opened.mono hg.log (h hF)

/-- What an export has returned has opened under the known key. -/
def Yields (F : Prop) (K : Option Bytes) (x : Except DartError Bytes) (w : World) : Prop :=
  ∀ d, x = .ok d → F → ∀ key ∈ K, Unseals w.record.encryptions key d

theorem growing_yields (x : Except DartError Bytes) : Growing K (Yields F K x) :=
  fun _ _ h hg d hd hF key hkey => Unseals.mono hg.log (h d hd hF key hkey)

/-- A decryption, under whichever key stays what it is. -/
theorem decrypt_wp (hT : Growing K T) (key : SecretKey) (box : SecretBox)
    (hat : At F K i h b k T γ w) : (call (.decrypt box key)).wp ((sealer P F K H i).fixed γ)
      (fun x w' => At F K i h b k T γ w' ∧ ∀ d, x = .ok d → ∀ kb,
        (∀ w, At F K i h b k T γ w → F → w.keyBytes key = kb) → Guarded F kb d w') w := by
  rw [wp_call]
  intro w₁ h₁ o ho
  have hat₁ := hat.rely hT h₁
  have hg : Guarantee P F K H i γ γ w₁ (w₁.exec P (.decrypt box key) o).2 :=
    guarantee_plain hat₁.standing (show Neutral (.decrypt box key) from trivial) o
  refine ⟨hg, fun w₂ h₂ _ => ⟨?_, fun d hd kb hkey hF => ?_⟩⟩
  · exact (hat₁.step hT hg hat.handler hat.batch hat.key).rely hT h₂
  · cases o with
    | some e => cases hd
    | none =>
      -- nobody has forged the box
      have hopen : P.aes.open (w₁.keyBytes key) box = .ok d := hd
      have hopened := ho.1.2 hF box key d rfl (CryptoService.open_eq_ok.mp hopen).2
      rw [hkey w₁ hat₁ hF] at hopened
      exact Opened.mono (fun e he => h₂.log e (hg.log e he)) hopened

/-- **An export** returns what has opened under the known key. -/
theorem exportClear_wp (hT : Growing K T) {r : Ref} (id : Text)
    (hat : At F K i h b (some r) T γ w) :
    (awaited (VaultRepository.exportClear P id r)).wp ((sealer P F K H i).fixed γ)
      (fun x w' => At F K i h b (some r) T γ w' ∧ Yields F K x w') w := by
  have plain {α : Type} {p : App α} (hp : p.Within Neutral Spare) :
      p.Keeps ((sealer P F K H i).fixed γ) (At F K i h b (some r) T γ) := keeps_plain hT hp γ
  have fails (e : DartError) (w : World) (hat : At F K i h b (some r) T γ w) :
      At F K i h b (some r) T γ w ∧ Yields F K (.error e) w :=
    ⟨hat, fun d hd => by cases hd⟩
  have hlook (f : File) : (call (.fileExists f)).Within Neutral Spare := within_call.mpr trivial
  have hread (f : File) : (call (.readAsBytes f)).Within Neutral Spare := within_call.mpr trivial
  have hfile (f : File) : (awaited (return f : App File)).Within Neutral Spare :=
    within_awaited trivial trivial
  rw [wp_awaited]
  -- what has been opened stays so while the result is on its way
  have hhop (x : Except DartError Bytes) (w : World) (hat : At F K i h b (some r) T γ w ∧
      Yields F K x w) : (call .hop).wp ((sealer P F K H i).fixed γ) (fun _ w' =>
        At F K i h b (some r) T γ w' ∧ Yields F K x w') w := by
    have hT' := growing_and hT (growing_yields (F := F) (K := K) x)
    have hat' : At F K i h b (some r) (fun w => T w ∧ Yields F K x w) γ w :=
      hat.1.imp fun ht => ⟨ht, hat.2⟩
    refine wp_mono _ (fun _ w' hat' => ?_)
      (keeps_plain hT' (within_call.mpr (show Neutral .hop from trivial)) γ w hat')
    exact ⟨At.imp hat' And.left, (At.more hat').2⟩
  refine wp_mono _ hhop ?_
  unfold VaultRepository.exportClear
  refine Keeps.seq (plain (within_when (Within.throw _))) (fun _ w hat => ?_) fails hat
  refine Keeps.seq (plain (Within.get _)) (fun _ w hat => ?_) fails hat
  refine Keeps.seq (plain (within_when (Within.throw _))) (fun _ w hat => ?_) fails hat
  refine Keeps.seq (plain (VaultRepository.Seeing.ensureVaultDir seeing_neutral))
    (fun vault w hat => ?_) fails hat
  refine Keeps.seq (plain (hfile _)) (fun metaFile w hat => ?_) fails hat
  refine Keeps.seq (plain (hlook _)) (fun metaThere w hat => ?_) fails hat
  refine Keeps.seq (plain (within_when (Within.throw _))) (fun _ w hat => ?_) fails hat
  refine Keeps.seq (plain (hfile _)) (fun dataFile w hat => ?_) fails hat
  refine Keeps.seq (plain (hlook _)) (fun dataThere w hat => ?_) fails hat
  refine Keeps.seq (plain (within_when (Within.throw _))) (fun _ w hat => ?_) fails hat
  refine Keeps.seq (plain (VaultRepository.Seeing.readMeta seeing_neutral _))
    (fun fileMeta w hat => ?_) fails hat
  refine Keeps.seq (plain (hread _)) (fun cipher w hat => ?_) fails hat
  refine Keeps.seq (plain (within_when (Within.throw _))) (fun _ w hat => ?_) fails hat
  refine Keeps.seq (plain (Within.done _)) (fun fileIv w hat => ?_) fails hat
  refine Keeps.seq (plain (Within.done _)) (fun dekWrapped w hat => ?_) fails hat
  refine Keeps.seq (plain (Within.done _)) (fun dekWrapIv w hat => ?_) fails hat
  rw [wp_awaited]
  refine wp_mono _ hhop ?_
  -- the key of the contents is opened under the stored key, and the contents under that
  unfold CryptoService.decryptWithWrappedKey
  refine Keeps.seq (plain (Within.done _)) (fun wrapped w hat => ?_) fails hat
  rw [wp_bind]
  refine wp_mono _ ?_ (decrypt_wp hT (.buffer r) wrapped hat)
  rintro (e | dek) w₁ ⟨hat₁, hdek⟩
  · exact fails e w₁ hat₁
  let T' (w : World) : Prop := T w ∧ ∀ key ∈ K, Guarded F key dek w
  have hT' : Growing K T' :=
    growing_and hT fun w w' h hg key hkey => growing_guarded key dek w w' (h key hkey) hg
  have hat₁' : At F K i h b (some r) T' γ w₁ := by
    refine hat₁.imp fun ht => ⟨ht, fun key hkey => hdek dek rfl key fun w hat hF => ?_⟩
    exact (hat.standing.key hF r hat.key).1 key hkey
  refine Keeps.seq (keeps_plain hT' (Within.done _) γ) (fun box w hat => ?_)
    (fun e w hat => fails e w (hat.imp And.left)) hat₁'
  refine wp_mono _ ?_ (decrypt_wp hT' (.bytes dek) box hat)
  rintro x w₂ ⟨hat₂, hd⟩
  refine ⟨hat₂.imp And.left, fun d hx hF key hkey => ⟨dek, hat₂.more.2 key hkey hF, ?_⟩⟩
  exact hd d hx dek (fun _ _ _ => rfl) hF

/-- A file that was picked is read. -/
theorem readAsBytes_gwp (hT : Growing K T) {path : Text} (hpicked : ∀ w, T w → ∃ files,
      ⟨.pickFiles, .ok (some files)⟩ ∈ w.record.answers ∧ some path ∈ files)
    (hat : At F K i h b k T γ w) :
    (call (.readAsBytes (File.ofPath path))).gwp (sealer P F K H i) (fun x γ' w' =>
      At F K i h b k T γ' w' ∧ ∀ bytes, x = .ok bytes → Imported H bytes) γ w := by
  rw [gwp_call]
  intro w₁ h₁ o ho
  have hat₁ := hat.rely hT h₁
  have hg : Guarantee P F K H i γ γ w₁ (w₁.exec P (.readAsBytes (File.ofPath path)) o).2 :=
    guarantee_plain hat₁.standing (show Neutral (.readAsBytes _) from trivial) o
  refine ⟨γ, hg, fun w₂ h₂ _ => ⟨?_, fun bytes hx => ?_⟩⟩
  · exact (hat₁.step hT hg hat.handler hat.batch hat.key).rely hT h₂
  · cases o with
    | some e => cases hx
    | none =>
      have hread : w₁.readFile (File.ofPath path) = .ok bytes := hx
      unfold World.readFile at hread
      obtain ⟨files, hanswer, hmem⟩ := hpicked w₁ hat₁.more
      cases hf : w₁.fs.read (File.ofPath path) with
      | none => rw [hf] at hread; cases hread
      | some c =>
        rw [hf] at hread
        cases hread
        exact ⟨w₁, files, path, ho.2, hanswer, hmem, hf⟩

/-- A write of what may be written. -/
theorem gkeeps_write (hT : Growing K T) {f : File} {bytes : Bytes}
    (hw : ∀ w, T w → Written P w.record.encryptions bytes) :
    (call (.writeAsBytes f bytes)).GKeeps (sealer P F K H i) (At F K i h b k T) := by
  intro γ w hat
  rw [gwp_call]
  intro w₁ h₁ o ho
  have hat₁ := hat.rely hT h₁
  have hg : Guarantee P F K H i γ γ w₁ (w₁.exec P (.writeAsBytes f bytes) o).2 := by
    refine guarantee_exec hat₁.standing nofun nofun nofun ⟨nofun, fun f' b' hf' => ?_, nofun⟩
    cases hf'
    exact hw w₁ hat₁.more
  exact ⟨γ, hg, fun w₂ h₂ _ => (hat₁.step hT hg hat.handler hat.batch hat.key).rely hT h₂⟩

/-- The metadata hold the wrapped key. -/
theorem makeMeta_gwp (source : File) (mimeType id : Text) (bytes : Bytes) (bundle : Bundle)
    (hat : At F K i h b k T γ w) : (VaultRepository.makeMeta P source mimeType id bytes bundle).gwp
      (sealer P F K H i) (fun x γ' w' => At F K i h b k T γ' w' ∧ ∀ m, x = .ok m →
        m.dekWrappedB64 = Base64.encode bundle.dekWrapped) γ w := by
  unfold VaultRepository.makeMeta
  change (Program.done _ : App VaultFileMeta).gwp _ _ _ _
  rw [gwp_done]
  refine ⟨hat, fun m hm => ?_⟩
  rw [VaultFileMeta.make_eq_ok hm]

/-- **An import** of a file that was picked encrypts what it has read, and writes what it has
encrypted. -/
theorem gkeeps_importFile (hT : Growing K T) {path mimeType : Text} {r : Ref}
    (moveFile : Bool) (hr : ∀ w, T w → KeyLike K r w) (hpicked : ∀ w, T w → ∃ files,
      ⟨.pickFiles, .ok (some files)⟩ ∈ w.record.answers ∧ some path ∈ files) :
    (awaited (VaultRepository.importFile P (File.ofPath path) mimeType r moveFile)).GKeeps
      (sealer P F K H i) (At F K i h b k T) := by
  have plain {α : Type} {p : App α} (hp : p.Within Neutral Spare) :
      p.GKeeps (sealer P F K H i) (At F K i h b k T) := gkeeps_plain hT hp
  refine gkeeps_awaited hT ?_
  unfold VaultRepository.importFile
  refine GKeeps.bind (plain (within_call.mpr trivial)) fun there => ?_
  refine GKeeps.bind (plain (within_when (Within.throw _))) fun _ => ?_
  refine GKeeps.bind (GKeeps.get _) fun _ => ?_
  refine GKeeps.bind (plain (within_when (Within.throw _))) fun _ => ?_
  refine GKeeps.bind (plain (VaultRepository.Seeing.ensureVaultDir seeing_neutral)) fun vault => ?_
  refine GKeeps.bind (plain (Within.getModify fun w => ?_)) fun id => ?_
  · exact ⟨rfl, le_rfl, rfl, rfl, rfl, rfl, rfl, rfl, le_rfl, rfl⟩
  refine GKeeps.seq (fun γ w hat => readAsBytes_gwp hT hpicked hat) fun bytes γ w hat hbytes => ?_
  refine GKeeps.bind (plain (within_when (Within.throw _))) (fun _ γ w hat => ?_) γ w hat
  rw [gwp_bind, gwp_awaited]
  refine gwp_mono _ ?_ (encryptWithWrappedKey_gwp hT hbytes hr hat)
  rintro x γ₁ w₁ ⟨hat₁, hbundle⟩
  cases x with
  | error e =>
    refine gwp_mono _ ?_ (hop_gwp hT hat₁)
    rintro _ γ₂ w₂ ⟨rfl, hat₂⟩
    exact hat₂
  | ok bundle =>
    -- the boxes of the bundle stay in the log
    have hT' := growing_and hT (growing_bundled (P := P) (K := K) bundle)
    have hat₁' : At F K i h b k (fun w => T w ∧ Bundled P bundle w) γ₁ w₁ :=
      hat₁.imp fun ht => ⟨ht, hbundle bundle rfl⟩
    refine gwp_mono _ ?_ (hop_gwp hT' hat₁')
    rintro _ γ₂ w₂ ⟨rfl, hat₂⟩
    have plain' {α : Type} {p : App α} (hp : p.Within Neutral Spare) :
        p.GKeeps (sealer P F K H i) (At F K i h b k fun w => T w ∧ Bundled P bundle w) :=
      gkeeps_plain hT' hp
    -- what is written are the two boxes and the metadata with the wrapped key
    have hrest (fileMeta : VaultFileMeta)
        (hmeta : fileMeta.dekWrappedB64 = Base64.encode bundle.dekWrapped) :
        Program.GKeeps (sealer P F K H i) (At F K i h b k fun w => T w ∧ Bundled P bundle w) (do
          let dataFile ← awaited (VaultRepository.dataFile vault id)
          let metaFile ← awaited (VaultRepository.metaFile vault id)
          VaultRepository.writeEntry fileMeta bundle.cipher dataFile metaFile
          when moveFile (VaultRepository.moveSource (File.ofPath path) dataFile metaFile)
          return fileMeta) := by
      refine GKeeps.bind (plain' (within_awaited trivial trivial)) fun dataFile => ?_
      refine GKeeps.bind (plain' (within_awaited trivial trivial)) fun metaFile => ?_
      refine GKeeps.bind (GKeeps.bind (gkeeps_write hT' fun w ht => ?_) fun _ γ w hat => ?_)
        fun _ => ?_
      · exact .inr (.inl ht.2.1)
      · refine gkeeps_write hT' (fun w' ht => ?_) γ w hat
        obtain ⟨e, he, hwrapped⟩ := ht.2.2
        exact .inr (.inr ⟨fileMeta, w.zone, rfl, e, he, hmeta.trans (congrArg _ hwrapped)⟩)
      · refine GKeeps.bind (plain' (within_when ?_)) fun _ => GKeeps.ret _
        exact VaultRepository.Discarding.moveSource discarding_neutral _ _ _
    refine gwp_mono _ (fun _ _ _ hat => hat.imp fun ht => ht.1) (GKeeps.seq (I := At F K i h b k
      fun w => T w ∧ Bundled P bundle w) (fun γ w hat => makeMeta_gwp _ _ _ _ _ hat)
      (fun fileMeta γ w hat hmeta => hrest fileMeta hmeta γ w hat) γ₂ w₂ hat₂)

end Vault

end Sealing

end CajaSegura
