import Mathlib.Data.List.Nodup
import Mathlib.Data.List.Pairwise
import Mathlib.Data.Set.Insert
import Mathlib.Logic.Function.Basic

/-!
# Rights that are used once

Rights are issued to threads, and each can be spent once. Nobody else holds a right that a thread
holds, and a right that has been spent is held by nobody.

## Main definitions

* `Rights`: who holds what, and what has been spent

## Main results

* `Rights.issue`: a thread is given rights that are new
* `Rights.spend`: a thread spends rights that it holds
* `Rights.eq_of_spent`: what has been spent for different uses is different
-/

namespace Async

variable {ι τ : Type}

/-- What has been issued is held by one thread, spent, or lost. -/
structure Rights (issued : Set τ) (held : ι → Set τ) (spent : List τ) : Prop where
  held_issued : ∀ i, ∀ t ∈ held i, t ∈ issued
  spent_issued : ∀ t ∈ spent, t ∈ issued
  once : spent.Nodup
  exclusive : ∀ i j t, t ∈ held i → t ∈ held j → i = j
  unspent : ∀ i, ∀ t ∈ held i, t ∉ spent

namespace Rights

variable {issued : Set τ} {held : ι → Set τ} {spent : List τ}

theorem empty : Rights (∅ : Set τ) (fun _ : ι => ∅) [] := by
  constructor <;> simp

/-- Rights may be lost. -/
theorem lose (h : Rights issued held spent) {held' : ι → Set τ} (hsub : ∀ i, held' i ⊆ held i) :
    Rights issued held' spent where
  held_issued i t ht := h.held_issued i t (hsub i ht)
  spent_issued := h.spent_issued
  once := h.once
  exclusive i j t hi hj := h.exclusive i j t (hsub i hi) (hsub j hj)
  unspent i t ht := h.unspent i t (hsub i ht)

section Update

variable [DecidableEq ι] {i : ι} {s : Set τ}

/-- Who else holds what a thread has afterwards held it before. -/
theorem exclusive_update (hs : ∀ j, j ≠ i → ∀ t ∈ s, t ∉ held j)
    (h : ∀ j k t, t ∈ held j → t ∈ held k → j = k) (j k : ι) (t : τ)
    (hj : t ∈ Function.update held i s j) (hk : t ∈ Function.update held i s k) : j = k := by
  by_cases hji : j = i
  · by_cases hki : k = i
    · exact hji.trans hki.symm
    · subst hji
      rw [Function.update_self] at hj
      rw [Function.update_of_ne hki] at hk
      exact absurd hk (hs k hki t hj)
  · rw [Function.update_of_ne hji] at hj
    by_cases hki : k = i
    · subst hki
      rw [Function.update_self] at hk
      exact absurd hj (hs j hji t hk)
    · rw [Function.update_of_ne hki] at hk
      exact h j k t hj hk

/-- **New rights** are issued to the thread `i`. -/
theorem issue (h : Rights issued held spent) {new : Set τ} (hnew : ∀ t ∈ new, t ∉ issued)
    (hs : ∀ t ∈ s, t ∈ held i ∨ t ∈ new) :
    Rights (issued ∪ new) (Function.update held i s) spent where
  held_issued j t ht := by
    by_cases hj : j = i
    · subst hj
      rw [Function.update_self] at ht
      exact (hs t ht).imp (h.held_issued j t) id
    · rw [Function.update_of_ne hj] at ht
      exact .inl (h.held_issued j t ht)
  spent_issued t ht := .inl (h.spent_issued t ht)
  once := h.once
  exclusive := by
    refine exclusive_update (fun j hj t ht hheld => ?_) h.exclusive
    rcases hs t ht with hi | hn
    · exact hj (h.exclusive j i t hheld hi)
    · exact hnew t hn (h.held_issued j t hheld)
  unspent j t ht hspent := by
    by_cases hj : j = i
    · subst hj
      rw [Function.update_self] at ht
      rcases hs t ht with hi | hn
      · exact h.unspent j t hi hspent
      · exact hnew t hn (h.spent_issued t hspent)
    · rw [Function.update_of_ne hj] at ht
      exact h.unspent j t ht hspent

/-- **Rights are spent** by the thread `i`, which keeps others. -/
theorem spend (h : Rights issued held spent) {used : List τ} (honce : used.Nodup)
    (hused : ∀ t ∈ used, t ∈ held i) (hs : ∀ t ∈ s, t ∈ held i ∧ t ∉ used) :
    Rights issued (Function.update held i s) (used ++ spent) where
  held_issued j t ht := by
    by_cases hj : j = i
    · subst hj
      rw [Function.update_self] at ht
      exact h.held_issued j t (hs t ht).1
    · rw [Function.update_of_ne hj] at ht
      exact h.held_issued j t ht
  spent_issued t ht := by
    rcases List.mem_append.mp ht with hu | hu
    · exact h.held_issued i t (hused t hu)
    · exact h.spent_issued t hu
  once := by
    refine List.nodup_append'.mpr ⟨honce, h.once, ?_⟩
    intro t hu hspent
    exact h.unspent i t (hused t hu) hspent
  exclusive := exclusive_update
    (fun j hj t ht hheld => hj (h.exclusive j i t hheld (hs t ht).1)) h.exclusive
  unspent j t ht hmem := by
    by_cases hj : j = i
    · subst hj
      rw [Function.update_self] at ht
      rcases List.mem_append.mp hmem with hu | hu
      · exact (hs t ht).2 hu
      · exact h.unspent j t (hs t ht).1 hu
    · rw [Function.update_of_ne hj] at ht
      rcases List.mem_append.mp hmem with hu | hu
      · exact hj (h.exclusive j i t ht (hused t hu))
      · exact h.unspent j t ht hu

end Update

/-- A right that two uses have spent was spent by one. -/
theorem eq_of_spent {υ : Type} {rights : υ → List τ} {uses : List υ}
    (h : Rights issued held (uses.flatMap rights)) {u v : υ} (hu : u ∈ uses) (hv : v ∈ uses) {t : τ}
    (htu : t ∈ rights u) (htv : t ∈ rights v) : u = v := by
  by_contra hne
  have hpair := (List.nodup_flatMap.mp h.once).2
  have hsymm : Std.Symm (Function.onFun List.Disjoint rights) := ⟨fun _ _ hd _ hu hv => hd hv hu⟩
  exact hpair.forall hu hv hne htu htv

end Rights

end Async
