/-
**Which errors a computation can end with.**

A fallible computation is put together from checks, conversions and loops, each with an error of its
own.  `Raises E` says that every error of a computation is among `E`; it is found out by going
through its parts, and the rules below are one for each way of putting parts together.

Main definitions:

* `Wire.Raises` — every error of a computation satisfies a predicate.

Main results:

* `Wire.Raises.bind`, `Wire.Raises.mapM`, `Wire.Raises.foldlM` — sequences and loops;
* `Wire.exists_foldlM_error` — where a loop fails.
-/

import CompactCore.Wire.Reader

set_option relaxedAutoImplicit false
set_option autoImplicit false

namespace Wire

variable {ε α β σ : Type} {E : ε → Prop}

/-- Every error of the computation satisfies `E`. -/
def Raises (E : ε → Prop) (x : Except ε α) : Prop := ∀ e, x = .error e → E e

theorem raises_ok (a : α) : Raises E (.ok a) := by
  intro e h
  cases h

theorem raises_pure (a : α) : Raises E (pure a) := raises_ok a

theorem raises_error {e : ε} (h : E e) : Raises (α := α) E (.error e) := by
  intro e' h'
  cases h'
  exact h

theorem raises_failIf {bad : Prop} [Decidable bad] {e : ε} (h : E e) : Raises E (failIf bad e) := by
  unfold failIf
  split
  · exact raises_error h
  · exact raises_ok ()

theorem raises_okOr {e : ε} {o : Option α} (h : E e) : Raises E (okOr e o) := by
  cases o with
  | none => exact raises_error h
  | some a => exact raises_ok a

/-- The second part is only run on what the first one returns. -/
theorem Raises.bind {x : Except ε α} {f : α → Except ε β} (h : Raises E x)
    (hf : ∀ a, x = .ok a → Raises E (f a)) : Raises E (x >>= f) := by
  cases x with
  | error e =>
      intro e' h'
      cases h'
      exact h e rfl
  | ok a => exact hf a rfl

theorem Raises.mapM {f : α → Except ε β} {xs : List α} (h : ∀ a ∈ xs, Raises E (f a)) :
    Raises E (xs.mapM f) := by
  induction xs with
  | nil => exact raises_ok []
  | cons a xs ih =>
      rw [List.mapM_cons]
      refine (h a List.mem_cons_self).bind fun _ _ => ?_
      exact (ih fun b hb => h b (List.mem_cons_of_mem _ hb)).bind fun _ _ => raises_pure _

theorem Raises.foldlM {f : σ → α → Except ε σ} {xs : List α}
    (h : ∀ s, ∀ a ∈ xs, Raises E (f s a)) (s : σ) : Raises E (xs.foldlM f s) := by
  induction xs generalizing s with
  | nil => exact raises_ok s
  | cons a xs ih =>
      rw [List.foldlM_cons]
      refine (h s a List.mem_cons_self).bind fun s' _ => ?_
      exact ih (fun s b hb => h s b (List.mem_cons_of_mem _ hb)) s'

/-- A loop that fails does so at one of its entries. -/
theorem exists_foldlM_error {f : σ → α → Except ε σ} {xs : List α} {s : σ} {e : ε}
    (h : xs.foldlM f s = .error e) :
    ∃ before x after s', xs = before ++ x :: after ∧ before.foldlM f s = .ok s' ∧
      f s' x = .error e := by
  induction xs generalizing s with
  | nil => cases h
  | cons x xs ih =>
      rw [List.foldlM_cons] at h
      cases hstep : f s x with
      | error e' =>
          rw [hstep] at h
          cases h
          exact ⟨[], x, xs, s, rfl, rfl, hstep⟩
      | ok s₁ =>
          rw [hstep] at h
          obtain ⟨before, y, after, s', rfl, hbefore, hy⟩ := ih h
          refine ⟨x :: before, y, after, s', rfl, ?_, hy⟩
          rw [List.foldlM_cons, hstep]
          exact hbefore

end Wire
