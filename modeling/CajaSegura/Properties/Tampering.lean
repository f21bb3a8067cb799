import CajaSegura.Properties.SealedCalls

/-!
# Files that somebody else changes

The handlers of the three screens keep what `Sealing.Secured` says, and what is shared, encrypted
and written along a run follows.

## Main definitions

* `Sealing.Marking`: a change of marks, and of what the invariant does not notice
* `Launched`: an application that has done nothing yet
* `sharedRun`: a file is imported and shared

## Main results

* `Sealing.sound_sealing`: the programs of the application keep the invariant
* `shared_imported`: what is shared has been imported
* `encryptions_apart`: nonces and drawn keys are used once
* `written_sealed`: what is written is sealed, and what is copied has been picked
-/

namespace CajaSegura

open Codec Async
open Program hiding bind

variable {P : Platform}

namespace Sealing

/-! ### Handlers -/

open HomeScreen

/-- Nothing but marks, and what nothing here depends on. -/
structure Marking (m : ℕ × Stretch) (w w' : World) : Prop where
  grows : ∀ K, Grows K w w'
  heap : w'.heap = w.heap
  answers : w'.record.answers = w.record.answers
  log : w'.record.encryptions = w.record.encryptions
  called : calledExports w ≤ calledExports w'
  ended : endedExports w' = endedExports w
  others : ∀ m', m' ≠ m → w'.record.running.count m' = w.record.running.count m'

theorem Grows.remarked {K : Option Bytes} {w w' : World} (h : Grows K w w')
    (run : List (ℕ × Stretch)) : Grows K w { w' with record := { w'.record with running := run } } :=
  ⟨h.storage, h.drawn, h.allocated, h.keys, h.session, h.answers, h.log⟩

theorem marking_entered {w w' : World} (hs : Spare w w') (m : ℕ × Stretch) :
    Marking m w (World.entered m w') where
  grows _ := hs.grows.remarked _
  heap := hs.heap
  answers := hs.answers
  log := hs.log
  called := hs.called
  ended := hs.ended
  others m' hm' := by
    rw [← hs.running]
    exact List.count_cons_of_ne hm'.symm

theorem marking_left {w w' : World} (hs : Spare w w') (m : ℕ × Stretch) :
    Marking m w (World.left m w') where
  grows _ := hs.grows.remarked _
  heap := hs.heap
  answers := hs.answers
  log := hs.log
  called := hs.called
  ended := hs.ended
  others m' hm' := by
    rw [← hs.running]
    exact List.count_erase_of_ne hm'

/-- A change of what is on the screen. -/
theorem spare_shown (f : HomeScreenState → HomeScreenState) (w : World) : Spare w (shown f w) :=
  ⟨rfl, le_rfl, rfl, rfl, rfl, rfl, rfl, rfl, le_rfl, rfl⟩

theorem spare_taken (w : World) : Spare w (taken w) :=
  ⟨rfl, le_rfl, rfl, rfl, rfl, rfl, rfl, rfl, le_rfl, rfl⟩

/-- The screen has changed if it is there. -/
theorem spare_given (w : World) : Spare w (if w.homeScreen.mounted then given w else w) := by
  split
  · exact spare_shown _ w
  · exact .refl w

section Handlers

variable {F : Prop} {K : Option Bytes} {H : World → Prop} {i h b h' b' : ℕ} {k : Option Ref}
  {γ γ' : Purse} {w w' : World} {T : World → Prop} {s : Stretch}

/-- A thread that exports from no buffer looks at its marks anew. -/
theorem At.marked (hT : Growing K T) (hat : At F K i h b none T γ w) (hm : Marking (i, s) w w')
    (hhandler : w'.record.running.count (i, .handler) = h')
    (hbatch : w'.record.running.count (i, .batch) = b') :
    ∃ γ', Guarantee P F K H i γ γ' w w' ∧ At F K i h' b' none T γ' w' := by
  let γ' : Purse := { γ with marks := fun s => w'.record.running.count (i, s) }
  have hst : Standing F K i γ' w' := ⟨fun _ => rfl, fun _ r hr => by cases hat.key.symm.trans hr⟩
  have hg : Guarantee P F K H i γ γ' w w' := by
    refine ⟨hm.grows K, fun _ _ r _ => congrFun hm.heap r, fun j hj t => ?_, hst,
      fun a ha => .inl (hm.answers ▸ ha), .inl ⟨hm.log, fun _ => .inl⟩, ?_⟩
    · exact hm.others _ fun he => hj (congrArg Prod.fst he)
    · rw [hm.ended]
      exact Nat.add_le_add_left hm.called _
  exact ⟨γ', hg, hat.step hT hg hhandler hbatch hat.key⟩

theorem At.count_handler (hat : At F K i h b k T γ w) : w.record.running.count (i, .handler) = h :=
  (hat.standing.marks _).trans hat.handler

theorem At.count_batch (hat : At F K i h b k T γ w) : w.record.running.count (i, .batch) = b :=
  (hat.standing.marks _).trans hat.batch

/-- The marks of loads and of exposed stretches say nothing about keys. -/
theorem gkeeps_marking (hT : Growing K T) {f : World → World} (hs : s ≠ .handler) (hs' : s ≠ .batch)
    (hf : ∀ w, Marking (i, s) w (f w)) :
    (Program.modify f).GKeeps (sealer P F K H i) (At F K i h b none T) := by
  intro γ w hat
  rw [gwp_modify]
  apply hat.marked hT (hf w)
  · rw [(hf w).others _ fun he => hs (congrArg Prod.snd he).symm, hat.count_handler]
  · rw [(hf w).others _ fun he => hs' (congrArg Prod.snd he).symm, hat.count_batch]

theorem gwp_observed {α : Type} {D : GhostDiscipline (device P) Purse}
    {Q : Except DartError α → Purse → World → Prop} (c : HomeCall) (verdict : α → Bool)
    (p : App α) : (observed c verdict p).gwp D Q γ w ↔ p.gwp D (fun r γ w =>
      ∃ γ', D.guarantee γ γ' w (replied c (r.map verdict) w) ∧
        Q r γ' (replied c (r.map verdict) w)) γ w := by
  refine (gwp_handle p _).trans (iff_of_eq (congrArg (fun R => p.gwp D R γ w) ?_))
  funext r γ w
  refine propext ((gwp_bind _ _).trans ((gwp_modify _).trans ?_))
  simp only [gwp_done]

theorem spare_replied {c : HomeCall} (hc : c ≠ .exportClear) (r : Except DartError Bool)
    (w : World) : Spare w (replied c r w) := by
  refine ⟨rfl, le_rfl, rfl, rfl, rfl, rfl, rfl, rfl, le_rfl, ?_⟩
  exact List.countP_cons_of_neg (by simpa using hc)

/-- The record of the end of a call. -/
theorem gkeeps_observed (hT : Growing K T) {α : Type} {c : HomeCall} (hc : c ≠ .exportClear)
    (verdict : α → Bool) {p : App α} (hp : p.GKeeps (sealer P F K H i) (At F K i h b k T)) :
    (observed c verdict p).GKeeps (sealer P F K H i) (At F K i h b k T) := by
  intro γ w hat
  rw [gwp_observed]
  refine gwp_mono p (fun r γ' w' hat' => ?_) (hp γ w hat)
  have hg : Guarantee P F K H i γ' γ' w' (replied c (r.map verdict) w') :=
    guarantee_spare hat'.standing (spare_replied hc _ w')
  exact ⟨γ', hg, hat'.step hT hg hat'.handler hat'.batch hat'.key⟩

theorem gkeeps_whenMounted (hT : Growing K T) (f : HomeScreenState → HomeScreenState) :
    (whenMounted (shown f)).GKeeps (sealer P F K H i) (At F K i h b k T) := by
  apply gkeeps_modify hT
  intro w
  split
  · exact spare_shown f w
  · exact .refl w

/-! ### The work of a handler -/

theorem gkeeps_load (hT : Growing K T) (force : Bool) :
    (_load P i force).GKeeps (sealer P F K H i) (At F K i h b none T) := by
  refine GKeeps.bind (GKeeps.get _) fun busy => ?_
  by_cases hbusy : (busy && !force) = true
  · rw [if_pos hbusy]
    exact GKeeps.ret ()
  rw [if_neg hbusy]
  refine GKeeps.bind ?_ fun _ => GKeeps.tryFinally (GKeeps.tryCatch ?_ fun e => ?_) ?_
  · refine gkeeps_marking (s := .load) hT nofun nofun fun w => ?_
    split
    · exact marking_entered (spare_taken w) _
    · exact ⟨fun _ => .refl w, rfl, rfl, rfl, le_rfl, rfl, fun _ _ => rfl⟩
  · have hlist : (VaultRepository.listAll P).Within Neutral Spare :=
      VaultRepository.Seeing.listAll seeing_neutral fun _ => trivial
    refine GKeeps.bind (gkeeps_observed hT (by simp) _ (gkeeps_awaited hT (gkeeps_plain hT hlist)))
      fun all => gkeeps_whenMounted hT _
  · exact gkeeps_whenMounted hT _
  · exact gkeeps_marking (s := .load) hT nofun nofun fun w => marking_left (spare_given w) _

theorem gkeeps_gate (hT : Growing K T) (hK : ∀ key ∈ K, key.length = 32) :
    (gate P).GKeeps (sealer P F K H i) (At F K i h b k T) := by
  refine GKeeps.bind (GKeeps.get _) fun unlocked => ?_
  cases unlocked
  · exact gkeeps_observed hT (by simp) _ (gkeeps_unlock hT hK)
  · exact GKeeps.ret true

/-- A key that is handed out is the known one. -/
theorem At.keyLike (hat : At F K i h b k T γ w) {r : Ref} (hr : LockManager.kek w = some r) :
    KeyLike K r w := by
  obtain ⟨hkey, hlt⟩ := hat.session r (AuthService.kek_eq_some.mp hr).2
  exact ⟨hlt, fun key hk => .inl (hkey key hk)⟩

theorem finalKek_gwp (hT : Growing K T) (hK : ∀ key ∈ K, key.length = 32)
    (hat : At F K i h b k T γ w) : (finalKek P).gwp (sealer P F K H i) (fun x γ' w' => At F K i h b k T γ' w' ∧
      ∀ r, x = .ok r → KeyLike K r w') γ w := by
  have hunlock : (observed .unlockAgain id (awaited (LockManager.unlock P))).GKeeps
      (sealer P F K H i) (At F K i h b k T) := gkeeps_observed hT (by simp) _ (gkeeps_unlock hT hK)
  unfold finalKek
  rw [gwp_bind, gwp_get]
  dsimp only
  rw [gwp_bind]
  refine gwp_mono _ ?_ (gkeeps_when (GKeeps.bind hunlock fun reauth => ?_) γ w hat)
  · rintro (e | u) γ₁ w₁ hat₁
    · exact ⟨hat₁, fun r hr => by cases hr⟩
    dsimp only
    rw [gwp_bind, gwp_get]
    dsimp only
    cases hkek : LockManager.kek w₁ with
    | none => exact ⟨hat₁, fun r hr => by cases hr⟩
    | some kek =>
      refine ⟨hat₁, fun r hr => ?_⟩
      cases hr
      exact hat₁.keyLike hkek
  · cases reauth
    · exact GKeeps.fail _
    · exact GKeeps.bind (GKeeps.get _) fun kekRetry => gkeeps_when (GKeeps.fail _)

theorem gkeeps_calling (hT : Growing K T) (name : String) :
    (calling name).GKeeps (sealer P F K H i) (At F K i h b k T) :=
  gkeeps_modify hT fun _ => ⟨rfl, le_rfl, rfl, rfl, rfl, rfl, rfl, rfl,
    (Nat.le_add_right _ _).trans_eq List.countP_cons.symm, rfl⟩

/-- The files of a batch are among those that were picked. -/
theorem gkeeps_importEach (hT : Growing K T) {kek : Ref}
    (hr : ∀ w, T w → KeyLike K kek w) (files : List (Option Text))
    (hpicked : ∀ w, T w → ∃ all, ⟨.pickFiles, .ok (some all)⟩ ∈ w.record.answers ∧
      ∀ f ∈ files, f ∈ all) :
    (importEach P kek files).GKeeps (sealer P F K H i) (At F K i h b k T) := by
  induction files with
  | nil => exact GKeeps.ret ()
  | cons f files ih =>
    refine GKeeps.bind ?_ fun _ => ih fun w ht => ?_
    · cases f with
      | none => exact GKeeps.ret ()
      | some path =>
        refine GKeeps.bind (gkeeps_observed hT (by simp) _ (gkeeps_plain hT
          (within_call.mpr trivial))) fun there => gkeeps_when ?_
        refine GKeeps.bind (gkeeps_calling hT _) fun _ => ?_
        refine GKeeps.bind (gkeeps_observed hT (by simp) _ (gkeeps_importFile hT true hr
          fun w ht => ?_)) fun _ => GKeeps.ret ()
        obtain ⟨all, hanswer, hall⟩ := hpicked w ht
        exact ⟨all, hanswer, hall _ List.mem_cons_self⟩
    · obtain ⟨all, hanswer, hall⟩ := hpicked w ht
      exact ⟨all, hanswer, fun g hg => hall g (List.mem_cons_of_mem f hg)⟩

/-- **The batch** imports what was picked, and exports nothing. -/
theorem gkeeps_importAll (hK : ∀ key ∈ K, key.length = 32) (hT : Growing K T)
    {files : List (Option Text)}
    (hpicked : ∀ w, T w → ⟨.pickFiles, .ok (some files)⟩ ∈ w.record.answers) :
    (importAll P i files).GKeeps (sealer P F K H i) (At F K i h 0 none T) := by
  intro γ w hat
  unfold importAll
  rw [gwp_bind]
  refine gwp_mono _ ?_ (finalKek_gwp hT hK hat)
  rintro (e | kek) γ₁ w₁ ⟨hat₁, hkek⟩
  · exact hat₁
  dsimp only
  have hT' := growing_and hT (growing_keyLike (K := K) kek)
  have hat₁' : At F K i h 0 none (fun w => T w ∧ KeyLike K kek w) γ₁ w₁ :=
    hat₁.imp fun ht => ⟨ht, hkek kek rfl⟩
  rw [gwp_bind, gwp_modify]
  -- the thread is in a batch
  have hin : (World.entered (i, .batch) w₁).record.running.count (i, .batch) = 1 :=
    List.count_cons_self.trans (congrArg (· + 1) hat₁.count_batch)
  obtain ⟨γ₂, hg₂, hat₂⟩ := hat₁'.marked (P := P) (H := H) hT'
    (marking_entered (.refl w₁) (i, .batch))
    ((List.count_cons_of_ne (by simp)).trans hat₁.count_handler) hin
  refine ⟨γ₂, hg₂, ?_⟩
  dsimp only
  rw [gwp_bind, gwp_tryFinally]
  refine gwp_mono _ ?_ (gkeeps_importEach hT' (fun w ht => ht.2) files
    (fun w ht => ⟨files, hpicked w ht.1, fun _ => id⟩) γ₂ _ hat₂)
  intro r γ₃ w₃ hat₃
  rw [gwp_modify]
  -- and in none again
  have hout : (World.left (i, .batch) w₃).record.running.count (i, .batch) = 0 :=
    List.count_erase_self.trans (congrArg (· - 1) hat₃.count_batch)
  obtain ⟨γ₄, hg₄, hat₄⟩ := hat₃.marked (P := P) (H := H) hT'
    (marking_left (.refl w₃) (i, .batch))
    ((List.count_erase_of_ne (by simp)).trans hat₃.count_handler) hout
  refine ⟨γ₄, hg₄, ?_⟩
  have hat₄' : At F K i h 0 none T γ₄ _ := hat₄.imp fun ht => ht.1
  -- the two reloads of a batch that has succeeded encrypt nothing
  cases r with
  | error e => exact hat₄'
  | ok u =>
    have hload : (awaited (_load P i true)).GKeeps (sealer P F K H i) (At F K i h 0 none T) :=
      gkeeps_awaited hT (gkeeps_load hT true)
    have hdelayed : (call (.delayed 200)).Within Neutral Spare := within_call.mpr trivial
    exact GKeeps.bind hload (fun _ => GKeeps.bind (gkeeps_plain hT hdelayed)
      fun _ => hload) γ₄ _ hat₄'

/-- A thread begins to export from the buffer of the session. -/
theorem At.exporting (hT : Growing K T) (hat : At F K i 1 0 none T γ w) {kek : Ref}
    (hkek : LockManager.kek w = some kek) :
    ∃ γ', Guarantee P F K H i γ γ' w (called "exportClear" w) ∧
      At F K i 1 0 (some kek) T γ' (called "exportClear" w) := by
  let γ' : Purse := { γ with key := some kek }
  have hsession := hat.session kek (AuthService.kek_eq_some.mp hkek).2
  have hst : Standing F K i γ' (called "exportClear" w) := by
    refine ⟨hat.standing.marks, fun _ r hr => ?_⟩
    obtain rfl : kek = r := Option.some.inj hr
    refine ⟨hsession.1, hsession.2, ?_, hat.batch⟩
    change γ.marks .handler ≠ 0
    rw [hat.handler]
    exact Nat.one_ne_zero
  have hcalled : γ'.exports + endedExports w + calledExports w ≤
      γ.exports + endedExports w + calledExports (called "exportClear" w) := by
    have hone : calledExports (called "exportClear" w) = calledExports w + 1 :=
      List.countP_cons_of_pos (by simp)
    have hpurse : γ'.exports = 1 := rfl
    omega
  have hg : Guarantee P F K H i γ γ' w (called "exportClear" w) :=
    ⟨⟨id, le_rfl, le_rfl, fun _ => id, id, fun _ => id, fun _ => id⟩, fun _ _ _ _ => rfl,
      fun _ _ _ => rfl, hst, fun _ => .inl, .inl ⟨rfl, fun _ => .inl⟩, hcalled⟩
  exact ⟨γ', hg, hat.step hT hg hat.handler hat.batch rfl⟩

/-- The export is over. -/
theorem At.exported (hT : Growing K T) {r : Ref} (hat : At F K i h b (some r) T γ w)
    (x : Except DartError Bool) : ∃ γ', Guarantee P F K H i γ γ' w (replied .exportClear x w) ∧
      At F K i h b none T γ' (replied .exportClear x w) := by
  let γ' : Purse := { γ with key := none }
  have hst : Standing F K i γ' (replied .exportClear x w) :=
    ⟨hat.standing.marks, fun _ r hr => by cases hr⟩
  have hended : γ'.exports + endedExports (replied .exportClear x w) + calledExports w ≤
      γ.exports + endedExports w + calledExports w := by
    have hone : endedExports (replied .exportClear x w) = endedExports w + 1 :=
      List.countP_cons_of_pos (by simp)
    have hpurse : γ.exports = 1 := by
      unfold Purse.exports
      rw [hat.key]
      rfl
    have hpurse' : γ'.exports = 0 := rfl
    omega
  have hg : Guarantee P F K H i γ γ' w (replied .exportClear x w) :=
    ⟨⟨id, le_rfl, le_rfl, fun _ => id, id, fun _ => id, fun _ => id⟩, fun _ _ _ _ => rfl,
      fun _ _ _ => rfl, hst, fun _ => .inl, .inl ⟨rfl, fun _ => .inl⟩, hended⟩
  exact ⟨γ', hg, hat.step hT hg hat.handler hat.batch rfl⟩

/-- What has opened under the known key may be shared. -/
theorem gkeeps_share (hT : Growing K T) {bytes : Bytes} (name mimeType : Text)
    (hopens : ∀ w, T w → F → ∀ key ∈ K, Unseals w.record.encryptions key bytes) :
    (call (.shareXFiles bytes name mimeType)).GKeeps (sealer P F K H i) (At F K i h b k T) := by
  intro γ w hat
  rw [gwp_call]
  intro w₁ h₁ o _
  have hat₁ := hat.rely hT h₁
  have hg : Guarantee P F K H i γ γ w₁ (w₁.exec P (.shareXFiles bytes name mimeType) o).2 := by
    refine guarantee_exec hat₁.standing nofun nofun nofun ⟨fun hF d n m he => ?_, nofun, nofun⟩
    cases he
    exact hopens w₁ hat₁.more hF
  exact ⟨γ, hg, fun w₂ h₂ _ => (hat₁.step hT hg hat₁.handler hat₁.batch hat₁.key).rely hT h₂⟩

/-- **An export** shares what has opened under the known key. -/
theorem gkeeps_exportOne (hT : Growing K T) (entry : VaultFileMeta) :
    (exportOne P entry).GKeeps (sealer P F K H i) (At F K i 1 0 none T) := by
  intro γ w hat
  unfold exportOne
  rw [gwp_bind, gwp_get]
  dsimp only
  -- without a key nothing is called
  cases hkek : LockManager.kek w with
  | none => exact hat
  | some kek =>
    obtain ⟨γ₁, hg₁, hat₁⟩ := hat.exporting (P := P) (H := H) hT hkek
    dsimp only
    unfold calling
    rw [gwp_bind, gwp_modify]
    refine ⟨γ₁, hg₁, ?_⟩
    dsimp only
    rw [gwp_bind, gwp_observed]
    refine gwp_of_wp (exportClear_wp hT entry.id hat₁) fun x w₂ hx => ?_
    obtain ⟨hat₂, hopens⟩ := hx
    obtain ⟨γ₃, hg₃, hat₃⟩ := hat₂.exported (P := P) (H := H) hT
      (x.map fun bytes => !bytes.isEmpty)
    refine ⟨γ₃, hg₃, ?_⟩
    cases x with
    | error e => exact hat₃
    -- what is shared has been opened
    | ok bytes =>
      have hT' := growing_and hT (growing_yields (F := F) (K := K) (.ok bytes))
      have hat₃' : At F K i 1 0 none (fun w => T w ∧ Yields F K (.ok bytes) w) γ₃ _ :=
        hat₃.imp fun ht => ⟨ht, hopens⟩
      have hshare := gkeeps_observed hT' (c := .shareXFiles) (by simp) (fun _ => true)
        (gkeeps_share (P := P) (H := H) (i := i) (h := 1) (b := 0) (k := none) hT'
          entry.originalName entry.mimeType fun w ht => ht.2 bytes rfl)
      exact gwp_mono _ (fun _ _ _ hat => At.imp hat And.left)
        (GKeeps.bind (gkeeps_when (GKeeps.fail _)) (fun _ => hshare) γ₃ _ hat₃')

theorem gkeeps_deleteOne (hT : Growing K T) (entry : VaultFileMeta) :
    (deleteOne P i entry).GKeeps (sealer P F K H i) (At F K i h b none T) := by
  have hdelete : (VaultRepository.deleteById entry.id).Within Neutral Spare :=
    VaultRepository.Discarding.deleteById discarding_neutral _
  refine GKeeps.bind (gkeeps_calling hT _) fun _ => GKeeps.bind (gkeeps_observed hT (by simp) _
    (gkeeps_awaited hT (gkeeps_plain hT hdelete))) fun _ => ?_
  exact gkeeps_awaited hT (gkeeps_load hT false)

/-- **The section of a handler**, whatever becomes of its screen. -/
theorem gkeeps_guarded (hT : Growing K T) (what : Text) {body : App Unit}
    (hbody : body.GKeeps (sealer P F K H i) (At F K i 1 0 none T)) :
    (guarded i what body).GKeeps (sealer P F K H i) (At F K i 0 0 none T) := by
  intro γ w hat
  unfold guarded setState
  rw [gwp_bind, gwp_bind]
  have huse : (use .home).Within Neutral Spare := by
    refine Within.bind (Within.get _) fun mounted => within_when ?_
    refine Within.bind (Within.modify.mpr fun w => ?_) fun _ => Within.throw _
    exact ⟨rfl, le_rfl, rfl, rfl, rfl, rfl, rfl, rfl, le_rfl, rfl⟩
  refine gwp_mono _ ?_ (gkeeps_plain hT huse γ w hat)
  rintro (e | u) γ₁ w₁ hat₁
  · exact hat₁
  dsimp only
  rw [gwp_modify]
  -- the thread is in a handler
  have hin : (World.entered (i, .handler) (taken w₁)).record.running.count (i, .handler) = 1 :=
    List.count_cons_self.trans (congrArg (· + 1) hat₁.count_handler)
  obtain ⟨γ₂, hg₂, hat₂⟩ := hat₁.marked (P := P) (H := H) hT
    (marking_entered (spare_taken w₁) (i, .handler)) hin
    ((List.count_cons_of_ne (by simp)).trans hat₁.count_batch)
  refine ⟨γ₂, hg₂, ?_⟩
  dsimp only
  have hexposed : (Program.modify (World.left (i, .exposed .home))).GKeeps (sealer P F K H i)
      (At F K i 1 0 none T) :=
    gkeeps_marking (s := .exposed .home) hT nofun nofun fun w => marking_left (.refl w) _
  obtain ⟨γ₃, hg₃, hat₃⟩ := (gwp_modify _).mp (hexposed γ₂ _ hat₂)
  rw [gwp_bind, gwp_modify]
  refine ⟨γ₃, hg₃, ?_⟩
  dsimp only
  rw [gwp_tryFinally]
  refine gwp_mono _ ?_ (GKeeps.tryCatch hbody (fun e => gkeeps_whenMounted hT _) γ₃ _ hat₃)
  intro r γ₄ w₄ hat₄
  rw [gwp_modify]
  -- and in none again
  have hrunning := (spare_given w₄).running
  have hout : (World.left (i, .handler) (if w₄.homeScreen.mounted then given w₄ else w₄)
      ).record.running.count (i, .handler) = 0 :=
    List.count_erase_self.trans (by rw [hrunning, hat₄.count_handler])
  obtain ⟨γ₅, hg₅, hat₅⟩ := hat₄.marked (P := P) (H := H) hT
    (marking_left (spare_given w₄) (i, .handler)) hout
    ((List.count_erase_of_ne (by simp)).trans (by rw [hrunning, hat₄.count_batch]))
  exact ⟨γ₅, hg₅, by cases r <;> exact hat₅⟩

/-- What the picker returns is among the answers. -/
theorem pickFiles_gwp (hat : At F K i h b k (fun _ => True) γ w) :
    (call .pickFiles).gwp (sealer P F K H i) (fun x γ' w' =>
      At F K i h b k (fun _ => True) γ' w' ∧ ∀ result, x = .ok result →
        ⟨.pickFiles, .ok result⟩ ∈ w'.record.answers) γ w := by
  rw [gwp_call]
  intro w₁ h₁ o _
  have hat₁ := hat.rely growing_true h₁
  have hg : Guarantee P F K H i γ γ w₁ (w₁.exec P .pickFiles o).2 :=
    guarantee_plain hat₁.standing (show Neutral .pickFiles from trivial) o
  refine ⟨γ, hg, fun w₂ h₂ _ => ⟨?_, fun result hresult => ?_⟩⟩
  · exact (hat₁.step growing_true hg hat.handler hat.batch hat.key).rely growing_true h₂
  · obtain rfl : o = .ok result := hresult
    refine h₂.answers _ ?_
    rw [World.answers_exec]
    exact List.mem_cons_self

/-- **An import** from the home screen. -/
theorem gkeeps_import (hK : ∀ key ∈ K, key.length = 32) :
    (_import P i).GKeeps (sealer P F K H i) (At F K i 0 0 none fun _ => True) := by
  refine GKeeps.bind (GKeeps.get _) fun busy => ?_
  cases busy
  case true => exact GKeeps.ret ()
  refine GKeeps.bind (gkeeps_gate growing_true hK) fun ok => ?_
  cases ok
  case false => exact GKeeps.ret ()
  -- the handler knows what it has got from the picker
  refine GKeeps.seq (R := fun result _ w => ⟨.pickFiles, .ok result⟩ ∈ w.record.answers)
    (fun γ w hat => ?_) fun result γ w hat hanswer => ?_
  · rw [gwp_observed]
    refine gwp_mono _ ?_ (pickFiles_gwp hat)
    rintro r γ₁ w₁ ⟨hat₁, hpicked⟩
    have hreply : Guarantee P F K H i γ₁ γ₁ w₁ (replied .pickFiles (r.map picked) w₁) :=
      guarantee_spare hat₁.standing (spare_replied (by simp) _ w₁)
    exact ⟨γ₁, hreply, hat₁.step growing_true hreply hat₁.handler hat₁.batch hat₁.key, hpicked⟩
  · rcases result with - | (- | ⟨f, files⟩)
    · exact hat
    · exact hat
    · have hT := growing_answer (K := K) ⟨.pickFiles, .ok (some (f :: files))⟩
      have hat' : At F K i 0 0 none (fun w => ⟨.pickFiles, .ok (some (f :: files))⟩ ∈
          w.record.answers) γ w := hat.imp fun _ => hanswer
      exact gwp_mono _ (fun _ _ _ hat => At.imp hat fun _ => trivial)
        (gkeeps_guarded hT _ (gkeeps_importAll hK hT fun _ => id) γ w hat')

theorem gkeeps_export (hK : ∀ key ∈ K, key.length = 32) (entry : VaultFileMeta) :
    (_export P i entry).GKeeps (sealer P F K H i) (At F K i 0 0 none fun _ => True) := by
  refine GKeeps.bind (GKeeps.get _) fun busy => ?_
  cases busy
  case true => exact GKeeps.ret ()
  refine GKeeps.bind (gkeeps_gate growing_true hK) fun ok => ?_
  cases ok
  case false => exact GKeeps.ret ()
  exact gkeeps_guarded growing_true _ (gkeeps_exportOne growing_true entry)

theorem gkeeps_delete (entry : VaultFileMeta) :
    (_delete P i entry).GKeeps (sealer P F K H i) (At F K i 0 0 none fun _ => True) := by
  refine GKeeps.bind (GKeeps.get _) fun busy => ?_
  cases busy
  case true => exact GKeeps.ret ()
  refine GKeeps.bind (gkeeps_observed growing_true (by simp) _
    (gkeeps_plain growing_true (within_call.mpr trivial))) fun ok => ?_
  by_cases hok : ok = some true
  · simp only [hok, if_true]
    exact gkeeps_guarded growing_true _ (gkeeps_deleteOne growing_true entry)
  · simp only [hok, if_false]
    exact GKeeps.ret ()

/-! ### The other screens -/

theorem spare_use (s : Screen) : (use s).Within Neutral Spare := by
  refine Within.bind (Within.get _) fun mounted => within_when ?_
  refine Within.bind (Within.modify.mpr fun w => ?_) fun _ => Within.throw _
  exact ⟨rfl, le_rfl, rfl, rfl, rfl, rfl, rfl, rfl, le_rfl, rfl⟩

theorem gkeeps_exposing (hT : Growing K T) {α : Type} (s : Screen) {p : App α}
    (hp : p.GKeeps (sealer P F K H i) (At F K i h b none T)) :
    (exposing i s p).GKeeps (sealer P F K H i) (At F K i h b none T) := by
  refine GKeeps.bind (gkeeps_marking (s := .exposed s) hT nofun nofun fun w => ?_) fun _ =>
    GKeeps.tryFinally hp (gkeeps_marking (s := .exposed s) hT nofun nofun fun w => ?_)
  · exact marking_entered (.refl w) _
  · exact marking_left (.refl w) _

theorem gkeeps_unlocking (hK : ∀ key ∈ K, key.length = 32) :
    (LockScreen._unlock P i).GKeeps (sealer P F K H i) (At F K i 0 0 none fun _ => True) := by
  have plain {α : Type} {p : App α} (hp : p.Within Neutral Spare) :
      p.GKeeps (sealer P F K H i) (At F K i 0 0 none fun _ => True) := gkeeps_plain growing_true hp
  have hshown (f : World → World) (hf : ∀ w, Spare w (f w)) :
      (LockScreen.whenMounted f).Within Neutral Spare := by
    refine Within.modify.mpr fun w => ?_
    split
    · exact hf w
    · exact .refl w
  have hscreen (f : LockScreenState → LockScreenState) (w : World) :
      Spare w (LockScreen.shown f w) := ⟨rfl, le_rfl, rfl, rfl, rfl, rfl, rfl, rfl, le_rfl, rfl⟩
  refine GKeeps.bind (GKeeps.get _) fun busy => ?_
  cases busy
  case true => exact GKeeps.ret ()
  refine GKeeps.bind (plain (Within.bind (spare_use _) fun _ => Within.modify.mpr (hscreen _)))
    fun _ => GKeeps.tryFinally (GKeeps.tryCatch ?_ fun e => ?_) (plain (hshown _ (hscreen _)))
  · refine GKeeps.bind (gkeeps_exposing growing_true _ (GKeeps.bind
      (gkeeps_init growing_true hK) fun _ => gkeeps_unlock growing_true hK)) fun ok => ?_
    refine GKeeps.bind (GKeeps.get _) fun mounted => ?_
    split
    · refine plain (Within.bind (within_call.mpr trivial) fun _ => hshown _ fun w => ?_)
      exact ⟨rfl, le_rfl, rfl, rfl, rfl, rfl, rfl, rfl, le_rfl, rfl⟩
    · exact plain (Within.bind (spare_use _) fun _ => hshown _ (hscreen _))
  · exact plain (Within.bind (spare_use _) fun _ => hshown _ (hscreen _))

/-- The calls of the settings. -/
theorem neutral_ofSettings {op : Op} (h : SettingsService.OfSettings op) : Neutral op := by
  rcases h with rfl | rfl | ⟨k, v, rfl⟩ | ⟨k, rfl⟩ <;> trivial

theorem spare_cached (key : Text) (value : Option Preference) (w : World) :
    Spare w (SettingsService.cached key value w) :=
  ⟨rfl, le_rfl, rfl, rfl, rfl, rfl, rfl, rfl, le_rfl, rfl⟩

theorem spare_setValue (key : Text) (value : Preference) :
    (awaited (SettingsService.setValue P key value)).Within Neutral Spare := by
  refine within_awaited (Within.mono ?_ (fun _ _ h => h)
    (SettingsService.within_setValue (spare_cached _ _))) trivial
  rintro op (rfl | rfl) <;> trivial

theorem spare_settingsShown (f : SettingsScreenState → SettingsScreenState) :
    (SettingsScreen.setState f).Within Neutral Spare :=
  Within.bind (spare_use _) fun _ => Within.modify.mpr fun _ =>
    ⟨rfl, le_rfl, rfl, rfl, rfl, rfl, rfl, rfl, le_rfl, rfl⟩

theorem spare_getter {α : Type} (f : World → Except DartError α) :
    (SettingsScreen.getter f).Within Neutral Spare := fun w => Within.done (f w)

theorem gkeeps_loadSettings :
    (SettingsScreen._loadSettings i).GKeeps (sealer P F K H i)
      (At F K i h b none fun _ => True) := by
  have hinit : (awaited SettingsService.init).Within Neutral Spare := by
    refine within_awaited (Within.mono (fun _ => neutral_ofSettings) (fun _ _ h => h)
      (SettingsService.within_init fun w => ?_)) trivial
    exact ⟨rfl, le_rfl, rfl, rfl, rfl, rfl, rfl, rfl, le_rfl, rfl⟩
  refine gkeeps_exposing growing_true _ (gkeeps_plain growing_true ?_)
  refine Within.bind hinit fun _ => Within.bind (spare_getter _) fun _ => ?_
  exact Within.bind (spare_getter _) fun _ => Within.bind (spare_getter _) fun _ =>
    spare_settingsShown _

theorem gkeeps_resetSettings :
    (SettingsScreen._resetSettings P i).GKeeps (sealer P F K H i)
      (At F K i h b none fun _ => True) := by
  have hremove (key : Text) : (SettingsService.removeValue P key).Within Neutral Spare := by
    refine Within.mono ?_ (fun _ _ h => h) (SettingsService.within_removeValue (spare_cached _ _))
    rintro op (rfl | rfl) <;> trivial
  have hreset : (SettingsService.resetSettings P).Within Neutral Spare :=
    Within.bind (hremove _) fun _ => Within.bind (hremove _) fun _ => hremove _
  refine GKeeps.bind (gkeeps_exposing growing_true _ (gkeeps_plain growing_true ?_))
    fun confirmed => gkeeps_when
      (GKeeps.tryFinally (gkeeps_plain growing_true (spare_use _)) gkeeps_loadSettings)
  refine Within.bind (within_call.mpr trivial) fun confirmed => ?_
  exact Within.bind (within_when (within_awaited hreset trivial)) fun _ => Within.ret _

theorem neutral_ofBackgrounds {op : Op} (h : BackgroundService.OfBackgrounds op) : Neutral op := by
  cases op <;> first | exact trivial | exact absurd h id

/-- The picture that was picked becomes the background. -/
theorem gkeeps_setBackground (hT : Growing K T) {path : Text} (hpicked : ∀ w, T w → ∃ files,
      ⟨.pickFiles, .ok (some (some path :: files))⟩ ∈ w.record.answers) :
    (BackgroundService.setBackground P (.ofPath path)).GKeeps (sealer P F K H i)
      (At F K i h b k T) := by
  have hset : (BackgroundService.setBackground P (.ofPath path)).Within
      (BackgroundService.OfPicture (.ofPath path)) Spare :=
    BackgroundService.calls_setBackground
      (fun w path => ⟨rfl, le_rfl, rfl, rfl, rfl, rfl, rfl, rfl, le_rfl, rfl⟩) _
  refine GKeeps.of_keeps fun γ => keeps_within hT hset ?_
  rintro op w o (hop | ⟨t, rfl⟩) hat
  · exact guarantee_plain hat.standing (neutral_ofBackgrounds hop) o
  · obtain ⟨files, hmem⟩ := hpicked w hat.more
    refine guarantee_exec hat.standing nofun nofun nofun ⟨nofun, nofun, ?_⟩
    rintro _ _ ⟨⟩
    exact ⟨path, files, rfl, hmem⟩

theorem gkeeps_selectBackground :
    (onSelectBackground P).GKeeps (sealer P F K H i) (At F K i h b none fun _ => True) := by
  have hselect : (BackgroundService.selectBackground P).GKeeps (sealer P F K H i)
      (At F K i h b none fun _ => True) := by
    refine GKeeps.tryCatch ?_ fun _ => GKeeps.ret false
    -- the screen knows what it has got from the picker
    refine GKeeps.seq (R := fun result _ w => ⟨.pickFiles, .ok result⟩ ∈ w.record.answers)
      (fun γ w hat => pickFiles_gwp hat) fun result γ w hat hanswer => ?_
    rcases result with - | (- | ⟨- | path, files⟩)
    · exact hat
    · exact hat
    · exact hat
    · have hT := growing_answer (K := K) ⟨.pickFiles, .ok (some (some path :: files))⟩
      have hat' : At F K i h b none (fun w => ⟨.pickFiles, .ok (some (some path :: files))⟩ ∈
          w.record.answers) γ w := hat.imp fun _ => hanswer
      exact gwp_mono _ (fun _ _ _ hat => At.imp hat fun _ => trivial)
        (gkeeps_awaited hT (gkeeps_setBackground hT fun w ht => ⟨files, ht⟩) γ w hat')
  refine GKeeps.bind (gkeeps_awaited growing_true hselect) fun _ =>
    gkeeps_plain growing_true (Within.bind (spare_use _) fun _ => ?_)
  exact Within.modify.mpr Spare.refl

theorem spare_clearBackground : onClearBackground.Within Neutral Spare := by
  have hclear : BackgroundService.clearBackground.Within Neutral Spare := by
    refine Within.mono (fun _ => neutral_ofBackgrounds) (fun _ _ h => h)
      (BackgroundService.calls_clearBackground fun w => ?_)
    exact ⟨rfl, le_rfl, rfl, rfl, rfl, rfl, rfl, rfl, le_rfl, rfl⟩
  refine Within.bind (within_awaited hclear trivial) fun _ => Within.bind (spare_use _) fun _ => ?_
  exact Within.modify.mpr Spare.refl

/-! ### Programs -/

/-- **A lock** leaves zeros where the key was, and nobody exports from there. -/
theorem guarantee_locked (hK : ∀ key ∈ K, key.length = 32) (hquiet : F → Unexporting w)
    (hat : At F K i h b none T γ w) : Guarantee P F K H i γ γ w (AuthService.locked w) := by
  have hheap (r : Ref) (hr : KeyLike K r w) : KeyLike K r (AuthService.locked w) := by
    refine ⟨hr.1, fun key hkey => ?_⟩
    change AuthService.zeroed w r = key ∨ AuthService.zeroed w r = zeroKey
    have hr := hr.2 key hkey
    unfold AuthService.zeroed
    cases hkek : w.auth._kek with
    | none => exact hr
    | some r' =>
      dsimp only
      by_cases hne : r = r'
      · subst hne
        have hlength : (w.heap r).length = 32 := by
          rcases hr with he | he
          · exact (congrArg List.length he).trans (hK key hkey)
          · exact (congrArg List.length he).trans List.length_replicate
        rw [Function.update_self, hlength]
        exact .inr rfl
      · rw [Function.update_of_ne hne]
        exact hr
  refine ⟨⟨id, le_rfl, le_rfl, hheap, fun _ r hr => (by cases hr), fun _ => id, fun _ => id⟩,
    fun hF h => absurd (hquiet hF) h, fun _ _ _ => rfl, ⟨hat.standing.marks, fun _ r hr => ?_⟩,
    fun _ => .inl, .inl ⟨rfl, fun _ => .inl⟩, le_rfl⟩
  cases hat.key.symm.trans hr

theorem gkeeps_screen (hK : ∀ key ∈ K, key.length = 32) {a : ScreenAction}
    (ha : a ≠ .lifecycle true) :
    (a.program P i).GKeeps (sealer P F K H i) (At F K i 0 0 none fun _ => True) := by
  cases a with
  | unlock => exact gkeeps_unlocking hK
  | load => exact gkeeps_load growing_true false
  | tapImport => exact gkeeps_exposing growing_true _ (gkeeps_import hK)
  | tapExport entry => exact gkeeps_exposing growing_true _ (gkeeps_export hK entry)
  | tapDelete entry => exact gkeeps_exposing growing_true _ (gkeeps_delete entry)
  | selectBackground =>
    exact gkeeps_exposing growing_true _ gkeeps_selectBackground
  | clearBackground =>
    exact gkeeps_exposing growing_true _ (gkeeps_plain growing_true spare_clearBackground)
  | loadSettings => exact gkeeps_loadSettings
  | updateScreenProtection value =>
    refine gkeeps_exposing growing_true _ (gkeeps_plain growing_true (Within.tryCatch ?_
      fun _ => spare_use _))
    refine Within.bind (spare_setValue _ _) fun _ => Within.bind (spare_getter _) fun _ => ?_
    refine Within.bind (spare_settingsShown _) fun _ => ?_
    exact Within.bind (within_call.mpr trivial) fun _ => spare_use _
  | updateBiometricAuth value =>
    refine gkeeps_exposing growing_true _ (gkeeps_plain growing_true (Within.tryCatch ?_
      fun _ => spare_use _))
    refine Within.bind (spare_setValue _ _) fun _ => Within.bind (spare_getter _) fun _ => ?_
    exact Within.bind (spare_settingsShown _) fun _ => spare_use _
  | updateAutoLockTime minutes =>
    refine gkeeps_exposing growing_true _ (gkeeps_plain growing_true ?_)
    refine Within.bind (spare_settingsShown _) fun _ => ?_
    exact Within.bind (spare_setValue _ _) fun _ => spare_use _
  | resetSettings => exact gkeeps_resetSettings
  | lifecycle paused =>
    cases paused
    case true => exact absurd rfl ha
    exact GKeeps.ret ()
  | tick now =>
    exact gkeeps_modify growing_true fun w =>
      ⟨rfl, le_rfl, rfl, rfl, rfl, rfl, rfl, rfl, le_rfl, rfl⟩
  | dispose s =>
    refine gkeeps_modify growing_true fun w => ?_
    cases s <;> exact ⟨rfl, le_rfl, rfl, rfl, rfl, rfl, rfl, rfl, le_rfl, rfl⟩

/-- **Every program** of the application, and whoever changes the files. -/
theorem program_gwp (hK : ∀ key ∈ K, key.length = 32) {a : SealAction} {told : Prop}
    (ha : (sealing P told F).enabled w a)
    (hat : At F K i 0 0 none (fun _ => True) γ w) :
    (a.program P i).gwp (sealer P F K H i) (fun _ _ _ => True) γ w := by
  have hend {α : Type} {p : App α} (hp : p.GKeeps (sealer P F K H i)
      (At F K i 0 0 none fun _ => True)) : p.gwp (sealer P F K H i) (fun _ _ _ => True) γ w :=
    gwp_mono p (fun _ _ _ _ => trivial) (hp γ w hat)
  cases a with
  | main => exact hend (gkeeps_main hK)
  | enterHome =>
    refine hend (GKeeps.bind (gkeeps_modify growing_true fun w => ?_) fun _ =>
      gkeeps_load growing_true false)
    exact ⟨rfl, le_rfl, rfl, rfl, rfl, rfl, rfl, rfl, le_rfl, rfl⟩
  | enterSettings =>
    refine hend (GKeeps.bind (gkeeps_modify growing_true fun w => ?_) fun _ => gkeeps_loadSettings)
    exact ⟨rfl, le_rfl, rfl, rfl, rfl, rfl, rfl, rfl, le_rfl, rfl⟩
  | screen a =>
    by_cases hpause : a = .lifecycle true
    · subst hpause
      exact ⟨γ, guarantee_locked hK (fun hF => ha hF rfl) hat, trivial⟩
    · exact hend (gkeeps_screen hK hpause)
  | tamper fs zone =>
    refine hend (gkeeps_modify growing_true fun w => ?_)
    exact ⟨rfl, le_rfl, rfl, rfl, rfl, rfl, rfl, rfl, le_rfl, rfl⟩

theorem sound_sealing {told : Prop} (htold : ∀ key ∈ K, told) (hK : ∀ key ∈ K, key.length = 32)
    (n : ℕ) : ((sealing P told F).during H).GhostSound (fun i _ => sealer P F K H i) Purse.empty
      (Secured P F K H n) fun _ _ _ _ => True where
  allow _ _ _ _ _ _ _ h := ⟨⟨fun key hkey => h.2.1 (htold key hkey), h.2.2⟩, h.1⟩
  deliver _ _ _ _ _ _ _ _ := trivial
  rely_refl i _ γ w := Rely.refl i γ w
  rely_trans _ _ _ _ _ _ h h' := Rely.trans h h'
  compat _ _ _ _ _ _ _ _ hij h hg := h.compat hg hij
  inv _ _ _ _ _ _ h hg := h.step hg
  start i a gs w hidle h ha := by
    have ha : (sealing P told F).enabled w a := ha
    refine program_gwp hK ha ⟨h.storage, h.session, ?_, rfl, rfl, rfl, trivial⟩
    rw [← hidle]
    exact h.standing i
  post _ _ _ _ _ _ _ := trivial
  crash gs w w' h hw := by
    obtain rfl : w' = restarted w := hw
    exact h.restarted

end Handlers

end Sealing

/-! ## Runs -/

open Sealing

section Runs

variable {told F : Prop} {K : Option Bytes} {key : Bytes} {w₀ : World}

/-- An application that has done nothing yet, on a device that stores the key if one is known. -/
structure Launched (K : Option Bytes) (w : World) : Prop where
  storage : KeyStored K w
  kek : w.auth._kek = none
  encryptions : w.record.encryptions = []
  answers : w.record.answers = []
  running : w.record.running = []
  replies : w.record.replies = []

theorem Launched.sealed (h : Launched K w₀) (H : World → Prop) :
    Secured P F K H w₀.drawn (fun _ => Purse.empty) w₀ where
  storage := h.storage
  session r hr := by cases h.kek.symm.trans hr
  standing i := by
    refine ⟨fun s => ?_, fun _ r hr => by cases hr⟩
    rw [h.running]
    rfl
  lawful a ha := by
    rw [h.answers] at ha
    cases ha
  accounts := by
    refine ⟨∅, [], Rights.empty, le_rfl, fun t ht => ht.elim, fun t ht => ht.elim,
      h.encryptions, fun u hu => ?_⟩
    cases hu
  exports := by
    refine ⟨∅, fun _ hi => absurd hi Bool.false_ne_true, ?_⟩
    unfold endedExports
    rw [h.replies]
    exact Nat.zero_le _

/-- A moment of the run that has led to `c`. -/
def Earlier (w₀ : World) (c : (sealing P told F).Config) (w : World) : Prop :=
  ∃ c₁ : (sealing P told F).Config, System.Reachable _ w₀ c₁ ∧ System.Steps _ c₁ c ∧ c₁.world = w

/-- The invariant holds along every run. -/
theorem sealed_reachable (htold : ∀ key ∈ K, told) (hK : ∀ key ∈ K, key.length = 32)
    (h₀ : Launched K w₀) {c : (sealing P told F).Config} (hc : System.Reachable _ w₀ c) :
    ∃ gs, Secured P F K (Earlier w₀ c) w₀.drawn gs c.world := by
  have hduring := System.steps_during (H := Earlier w₀ c) hc fun c₁ h₁ h₁' => ⟨c₁, h₁, h₁', rfl⟩
  obtain ⟨gs, hok⟩ := (sound_sealing htold hK w₀.drawn).reachable (h₀.sealed _) hduring
  exact ⟨gs, hok.inv⟩

/-- The same, for a device that stores the key. -/
theorem accounts_reachable (hkey : key.length = 32) (h₀ : Launched (some key) w₀)
    {c : (sealing P True F).Config} (hc : System.Reachable _ w₀ c) :
    ∃ gs issued uses, Secured P F (some key) (Earlier w₀ c) w₀.drawn gs c.world ∧
      Accounts P (some key) (Earlier w₀ c) w₀.drawn (fun i => (gs i).permits) c.world issued
        uses := by
  have hlength : ∀ k ∈ some key, k.length = 32 := by
    rintro _ ⟨⟩
    exact hkey
  obtain ⟨gs, hsealed⟩ := sealed_reachable (fun _ _ => trivial) hlength h₀ hc
  obtain ⟨issued, uses, hacc⟩ := hsealed.accounts
  exact ⟨gs, issued, uses, hsealed, hacc⟩

/-- **What is shared has been imported**, whatever somebody else has done to the files, as long as
no box is opened that has been forged under a secret key. -/
theorem shared_imported (hkey : key.length = 32) (hne : key ≠ zeroKey)
    (h₀ : Launched (some key) w₀) {c : (sealing P True True).Config} (hc : System.Reachable _ w₀ c)
    (hr : Unrepeated P key w₀.drawn c.world.drawn) {d : Bytes} {name mimeType : Text}
    {e : Option DartError} (hd : ⟨.shareXFiles d name mimeType, e⟩ ∈ c.world.record.answers) :
    ∃ (c₁ : (sealing P True True).Config) (files : List (Option Text)) (path : Text),
      System.Reachable _ w₀ c₁ ∧ System.Steps _ c₁ c ∧
      ⟨.pickFiles, .ok (some files)⟩ ∈ c₁.world.record.answers ∧ some path ∈ files ∧
        c₁.world.fs.read (File.ofPath path) = some d := by
  obtain ⟨gs, issued, uses, hsealed, hacc⟩ := accounts_reachable hkey h₀ hc
  have hunseals := (hsealed.lawful _ hd).shared trivial d name mimeType rfl key rfl
  obtain ⟨w, files, path, ⟨c₁, h₁, h₁', rfl⟩, hpicked, hmem, hread⟩ :=
    hacc.imported_of_unseals hr hne hunseals
  exact ⟨c₁, files, path, h₁, h₁', hpicked, hmem, hread⟩

/-- **No nonce is used twice**, and a key that is drawn encrypts once. The stored key, and what a
lock leaves of it, encrypt nothing but keys that have been drawn. -/
theorem encryptions_apart (hkey : key.length = 32) (h₀ : Launched (some key) w₀)
    {c : (sealing P True False).Config} (hc : System.Reachable _ w₀ c)
    (hr : Unrepeated P key w₀.drawn c.world.drawn) :
    (c.world.record.encryptions.map Encryption.nonce).Nodup ∧
      (∀ e ∈ c.world.record.encryptions, ∀ e' ∈ c.world.record.encryptions, e.key = e'.key →
        e = e' ∨ e.key = key ∨ e.key = zeroKey) ∧
      ∀ e ∈ c.world.record.encryptions, e.key = key ∨ e.key = zeroKey →
        ∃ n, w₀.drawn ≤ n ∧ n + 32 ≤ c.world.drawn ∧ e.clear = CryptoService.drawn P n 32 := by
  obtain ⟨gs, issued, uses, -, hacc⟩ := accounts_reachable hkey h₀ hc
  refine ⟨hacc.nonces hr, fun e he e' he' hsame => hacc.keys hr he he' hsame, fun e he hsame => ?_⟩
  have he' : ⟨e.key, e.nonce, e.clear⟩ ∈ c.world.record.encryptions := he
  obtain ⟨n, iv, hu, hclear⟩ := hacc.wrapping_of_mem hr hsame he'
  have hbounds := hacc.bounds _ (hacc.issued_of_mem hu (t := .wrapping n) (by simp [Use.permits]))
  exact ⟨n, hbounds.1, hbounds.2, hclear⟩

/-- **What is written is sealed**: it is nothing, a box that the cipher has returned, or metadata
with such a box. What is copied is the file that was picked first, as the picture of a background
is. -/
theorem written_sealed (h₀ : Launched none w₀) {c : (sealing P False False).Config}
    (hc : System.Reachable _ w₀ c) :
    (∀ f b o, ⟨.writeAsBytes f b, o⟩ ∈ c.world.record.answers →
      Written P c.world.record.encryptions b) ∧
    ∀ f t o, ⟨.copy f t, o⟩ ∈ c.world.record.answers → PickedFirst c.world f := by
  -- whichever key the device stores
  obtain ⟨gs, hsealed⟩ := sealed_reachable (K := none) nofun nofun h₀ hc
  exact ⟨fun f b o ha => (hsealed.lawful _ ha).written f b rfl,
    fun f t o ha => (hsealed.lawful _ ha).copied f t rfl⟩

end Runs

/-! ## A file that is imported and shared -/

theorem drawn_counting {aes : AesGcm} {i j n : ℕ} (hn : 0 < n) (hi : i < 256) (hj : j < 256)
    (h : CryptoService.drawn (.counting aes) i n = CryptoService.drawn (.counting aes) j n) :
    i = j := by
  have hfirst := congrArg (fun l : Bytes => l[0]?) h
  have hbyte : UInt8.ofNat i = UInt8.ofNat j := by
    simpa [CryptoService.drawn, hn, Platform.counting] using hfirst
  have hnat := congrArg UInt8.toNat hbyte
  simpa [Nat.mod_eq_of_lt hi, Nat.mod_eq_of_lt hj] using hnat

/-- Bytes that count up are not all the same. -/
theorem drawn_counting_ne {aes : AesGcm} {i n : ℕ} (hn : 1 < n) (b : UInt8) :
    CryptoService.drawn (.counting aes) i n ≠ List.replicate n b := by
  intro h
  have hbyte (k : ℕ) (hk : k < n) : UInt8.ofNat (i + k) = b := by
    have hat := congrArg (fun l : Bytes => l[k]?) h
    simpa [CryptoService.drawn, hk, Platform.counting] using hat
  have hsame := congrArg UInt8.toNat ((hbyte 0 (by omega)).trans (hbyte 1 hn).symm)
  rw [UInt8.toNat_ofNat', UInt8.toNat_ofNat'] at hsame
  omega

theorem unrepeated_counting {aes : AesGcm} {m : ℕ} (hm : m ≤ 256) (b : UInt8) :
    Unrepeated (.counting aes) (List.replicate 32 b) 0 m where
  nonces i j _ hij hj h := by
    have heq := drawn_counting (by omega) (by omega) (by omega) h
    omega
  keys i j _ hij hj h := by
    have heq := drawn_counting (by omega) (by omega) (by omega) h
    omega
  secret i _ _ := ⟨drawn_counting_ne (by omega) b, drawn_counting_ne (by omega) 0⟩

/-- The encryptions of one import of `[1]`. -/
def countedCalls : List Encryption :=
  let key : Bytes := CryptoService.drawn (.counting .marked) 0 32
  [⟨List.replicate 32 200, CryptoService.drawn (.counting .marked) 44 12, key⟩,
    ⟨key, CryptoService.drawn (.counting .marked) 32 12, [1]⟩]

/-- The device whose cipher knows those. -/
abbrev countedDevice : Platform := .counting (.logged countedCalls)

/-- A home screen on a device that stores a key. -/
def launchedWorld : World :=
  { World.sample [] [1] with
    storage := some (Base64.encode (List.replicate 32 200))
    homeScreen := ⟨true, [], false, none⟩ }

theorem launched_launchedWorld : Launched (some (List.replicate 32 200)) launchedWorld := by
  refine ⟨?_, rfl, rfl, rfl, rfl, rfl⟩
  rintro _ ⟨⟩
  rfl

/-- The world after a tap. -/
@[irreducible] def afterTap (i : ℕ) (a : ScreenAction) (w : World) : World :=
  ((a.program countedDevice i).run (device countedDevice) (fun _ => picking "/home/a".toList) 0 w).2

def importedEntry : VaultFileMeta :=
  ⟨['u'], ['a'], ['t'], 1, launchedWorld.now.local, ['k'], ['n'], ['n']⟩

/-- The file has been imported and shared. -/
def sharedRun (F : Prop) : (sealing countedDevice True F).Config :=
  ((System.Config.idle launchedWorld).update 0 (SealAction.screen .tapImport)
    (.finished, afterTap 0 .tapImport launchedWorld)).update 1
      (SealAction.screen (.tapExport importedEntry))
      (.finished, afterTap 1 (.tapExport importedEntry) (afterTap 0 .tapImport launchedWorld))

/-- What is decrypted is in the log. -/
def genuine (P : Platform) (w : World) : Op → Bool
  | .decrypt box key => match P.aes.decrypt (w.keyBytes key) box with
    | none => true
    | some clear => decide (⟨w.keyBytes key, box.nonce, clear⟩ ∈ w.record.encryptions)
  | _ => true

theorem unforged_of_genuine {w : World} {op : Op} (h : genuine P w op = true) :
    Unforged P w op := by
  rintro box key clear rfl hopen
  unfold genuine at h
  dsimp only at h
  rw [hopen] at h
  exact .inr ⟨box.nonce, of_decide_eq_true h⟩

/-- What is decrypted in the course of a tap is in the log. -/
def Genuine (i : ℕ) (a : ScreenAction) (w : World) : Prop :=
  (a.program countedDevice i).Along (device countedDevice)
    (fun w op _ => genuine countedDevice w op = true) (fun _ => picking "/home/a".toList) 0 w

instance (i : ℕ) (a : ScreenAction) (w : World) : Decidable (Genuine i a w) :=
  Program.Along.decidable _ _ _ _ _ _

theorem genuine_tapImport : Genuine 0 .tapImport launchedWorld := by decide +kernel

theorem genuine_tapExport :
    Genuine 1 (.tapExport importedEntry) (afterTap 0 .tapImport launchedWorld) := by
  decide +kernel

theorem reachable_sharedRun (F : Prop) : System.Reachable _ launchedWorld (sharedRun F) := by
  have htruthful (op : Op) : Truthful op (picking "/home/a".toList op) := by
    cases op <;> first | exact .inl rfl | trivial
  have hstep {c : (sealing countedDevice True F).Config} {i : ℕ} {a : ScreenAction}
      (hi : c.threads i = none) (ha : a ≠ .lifecycle true) (h : Genuine i a c.world) :
      System.Steps _ c (c.update i (SealAction.screen a) (.finished, afterTap i a c.world)) := by
    unfold afterTap
    refine System.steps_carried (S := sealing countedDevice True F)
      (a := SealAction.screen a) hi (fun _ he => absurd (SealAction.screen.inj he) ha) ?_
    refine Program.Along.mono (fun _ w op hg => ?_) h
    exact ⟨⟨fun _ => htruthful op, fun _ => unforged_of_genuine hg⟩, trivial⟩
  refine (hstep (i := 0) (a := .tapImport) rfl nofun genuine_tapImport).trans ?_
  exact hstep (i := 1) (a := .tapExport importedEntry) rfl nofun genuine_tapExport

theorem shared_imported_sharedRun :
    ∃ (c₁ : (sealing countedDevice True True).Config) (files : List (Option Text)) (path : Text),
      System.Reachable _ launchedWorld c₁ ∧ System.Steps _ c₁ (sharedRun True) ∧
      ⟨.pickFiles, .ok (some files)⟩ ∈ c₁.world.record.answers ∧ some path ∈ files ∧
        c₁.world.fs.read (File.ofPath path) = some [1] := by
  have hshared : (sharedRun True).world.record.answers.any
      (fun a => a.1 = .shareXFiles [1] ['a'] ['t']) = true := by decide +kernel
  obtain ⟨⟨op, e⟩, hmem, hop⟩ := List.any_eq_true.mp hshared
  obtain rfl : op = .shareXFiles [1] ['a'] ['t'] := of_decide_eq_true hop
  exact shared_imported rfl (by decide) launched_launchedWorld (reachable_sharedRun True)
    (unrepeated_counting (by decide +kernel) 200) hmem

theorem encryptions_apart_sharedRun :
    ((sharedRun False).world.record.encryptions.map Encryption.nonce).Nodup ∧
      (∀ e ∈ (sharedRun False).world.record.encryptions,
        ∀ e' ∈ (sharedRun False).world.record.encryptions, e.key = e'.key →
          e = e' ∨ e.key = List.replicate 32 200 ∨ e.key = zeroKey) ∧
      ∀ e ∈ (sharedRun False).world.record.encryptions,
        e.key = List.replicate 32 200 ∨ e.key = zeroKey →
          ∃ n, launchedWorld.drawn ≤ n ∧ n + 32 ≤ (sharedRun False).world.drawn ∧
            e.clear = CryptoService.drawn countedDevice n 32 :=
  encryptions_apart rfl launched_launchedWorld (reachable_sharedRun False)
    (unrepeated_counting (by decide +kernel) 200)

/-- A home screen before anything has been stored, and a picture. -/
def unstoredWorld : World :=
  let w := World.sample [] [1]
  { w with
    fs := w.fs.put ⟨["home".toList], "a.jpg".toList⟩ [2] World.fits_picture
    homeScreen := ⟨true, [], false, none⟩ }

/-- The first session of an installation: the picture becomes the background and is imported. -/
def sealedRun : (sealing (.sample .marked) False False).Config :=
  (sealing (.sample .marked) False False).play (picking "/home/a.jpg".toList)
    [.screen .selectBackground, .screen .tapImport] 0 (.idle unstoredWorld)

theorem written_sealed_sealedRun :
    (∃ f b o, f.rel = "u.enc".toList ∧ b = [2] ++ AesGcm.tagOf (List.replicate 32 1) ∧
      ⟨.writeAsBytes f b, o⟩ ∈ sealedRun.world.record.answers ∧
        Written (.sample .marked) sealedRun.world.record.encryptions b) ∧
    ∃ f t o, ⟨.copy f t, o⟩ ∈ sealedRun.world.record.answers ∧ PickedFirst sealedRun.world f := by
  have hreachable : System.Reachable _ unstoredWorld sealedRun := by
    refine System.steps_play (fun w op => ?_) (fun _ _ _ => trivial) (fun _ _ => rfl)
      ⟨nofun, nofun, trivial⟩
    exact ⟨nofun, nofun⟩
  obtain ⟨hwrites, hcopies⟩ := written_sealed ⟨nofun, rfl, rfl, rfl, rfl, rfl⟩ hreachable
  let f : File := ⟨["app".toList, "vault".toList], "u.enc".toList⟩
  let b : Bytes := [2] ++ AesGcm.tagOf (List.replicate 32 1)
  have hwritten : sealedRun.world.record.answers.any (fun a => a.1 = .writeAsBytes f b) = true := by
    decide +kernel
  let picture : File := .ofPath "/home/a.jpg".toList
  let t : File := .ofPath "/app/backgrounds/custom_background_0.jpg".toList
  have hcopied : sealedRun.world.record.answers.any (fun a => a.1 = .copy picture t) = true := by
    decide +kernel
  obtain ⟨⟨op, o⟩, hmem, hop⟩ := List.any_eq_true.mp hwritten
  obtain rfl : op = .writeAsBytes f b := of_decide_eq_true hop
  obtain ⟨⟨op', o'⟩, hmem', hop'⟩ := List.any_eq_true.mp hcopied
  obtain rfl : op' = .copy picture t := of_decide_eq_true hop'
  exact ⟨⟨f, b, o, rfl, rfl, hmem, hwrites f b o hmem⟩, picture, t, o', hmem',
    hcopies picture t o' hmem'⟩

end CajaSegura
