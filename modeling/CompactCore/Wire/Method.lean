/-
**Methods that change their receiver and may fail.**

A method takes a mutable receiver; when it fails, the receiver keeps what was changed before the
failure.  That is the monad `EStateM ε σ`: this module lets a method use fallible functions that do
not touch the receiver, and says when a method, a sequence of methods, and a loop over a list
succeed.

Main results:

* `Wire.Method.bind_ok` and its companions — **when a method succeeds**;
* `Wire.Method.bind_error` and its companions — when it fails, and what it leaves;
* `Wire.Method.forM_invariant` — a loop that succeeds preserves what its body preserves.
-/

import Mathlib.Data.List.Basic

set_option relaxedAutoImplicit false
set_option autoImplicit false

namespace Wire.Method

variable {ε σ α β : Type}

instance liftExcept : MonadLift (Except ε) (EStateM ε σ) where
  monadLift x := fun s =>
    match x with
    | .ok a => .ok a s
    | .error e => .error e s

/-- Call a method on a receiver that is given up when the method fails. -/
def exec (x : EStateM ε σ α) (s : σ) : Except ε σ :=
  match x s with
  | .ok _ s' => .ok s'
  | .error e _ => .error e

@[simp] theorem exec_ok {x : EStateM ε σ α} {s s' : σ} :
    exec x s = .ok s' ↔ ∃ a, x s = .ok a s' := by
  rw [exec]
  cases x s <;> simp

@[simp] theorem pure_ok {a b : α} {s s' : σ} :
    (pure a : EStateM ε σ α) s = .ok b s' ↔ a = b ∧ s = s' := by
  show EStateM.Result.ok a s = _ ↔ _
  simp

/-- A sequence of methods succeeds exactly when the second succeeds on what the first leaves. -/
@[simp] theorem bind_ok {x : EStateM ε σ α} {f : α → EStateM ε σ β} {s s'' : σ} {b : β} :
    (x >>= f) s = .ok b s'' ↔ ∃ a s', x s = .ok a s' ∧ f a s' = .ok b s'' := by
  show EStateM.bind x f s = _ ↔ _
  rw [EStateM.bind]
  cases x s <;> simp

@[simp] theorem get_ok {a s s' : σ} :
    (get : EStateM ε σ σ) s = .ok a s' ↔ s = a ∧ s = s' := by
  show EStateM.Result.ok s s = _ ↔ _
  simp

@[simp] theorem modify_ok {f : σ → σ} {u : Unit} {s s' : σ} :
    (modify f : EStateM ε σ Unit) s = .ok u s' ↔ s' = f s := by
  show EStateM.Result.ok () (f s) = _ ↔ _
  simp [eq_comm]

/-- A fallible function does not touch the receiver. -/
@[simp] theorem lift_ok {x : Except ε α} {a : α} {s s' : σ} :
    (liftM x : EStateM ε σ α) s = .ok a s' ↔ x = .ok a ∧ s = s' := by
  show (match x with
    | .ok a => EStateM.Result.ok a s
    | .error e => EStateM.Result.error e s) = _ ↔ _
  cases x <;> simp

@[simp] theorem throw_ok {e : ε} {a : α} {s s' : σ} :
    (throw e : EStateM ε σ α) s = .ok a s' ↔ False := by
  show EStateM.Result.error e s = _ ↔ _
  simp

/-! ### When a method fails -/

@[simp] theorem pure_error {a : α} {e : ε} {s s' : σ} :
    (pure a : EStateM ε σ α) s = .error e s' ↔ False := by
  show EStateM.Result.ok a s = _ ↔ _
  simp

/-- A sequence of methods fails where its first part fails, or where the second part does. -/
@[simp] theorem bind_error {x : EStateM ε σ α} {f : α → EStateM ε σ β} {s s'' : σ} {e : ε} :
    (x >>= f) s = .error e s'' ↔
      x s = .error e s'' ∨ ∃ a s', x s = .ok a s' ∧ f a s' = .error e s'' := by
  show EStateM.bind x f s = _ ↔ _
  rw [EStateM.bind]
  cases x s <;> simp

@[simp] theorem get_error {e : ε} {s s' : σ} :
    (get : EStateM ε σ σ) s = .error e s' ↔ False := by
  show EStateM.Result.ok s s = _ ↔ _
  simp

@[simp] theorem modify_error {f : σ → σ} {e : ε} {s s' : σ} :
    (modify f : EStateM ε σ Unit) s = .error e s' ↔ False := by
  show EStateM.Result.ok () (f s) = _ ↔ _
  simp

/-- A fallible function that fails does not touch the receiver. -/
@[simp] theorem lift_error {x : Except ε α} {e : ε} {s s' : σ} :
    (liftM x : EStateM ε σ α) s = .error e s' ↔ x = .error e ∧ s = s' := by
  show (match x with
    | .ok a => EStateM.Result.ok a s
    | .error e => EStateM.Result.error e s) = _ ↔ _
  cases x <;> simp

/-! ### Loops -/

theorem forM_nil {f : α → EStateM ε σ Unit} {u : Unit} {s s' : σ} :
    ([] : List α).forM f s = .ok u s' ↔ s' = s := by
  show (pure () : EStateM ε σ Unit) s = _ ↔ _
  simp [eq_comm]

theorem forM_cons {f : α → EStateM ε σ Unit} {a : α} {as : List α} {u : Unit} {s s' : σ} :
    (a :: as).forM f s = .ok u s' ↔ ∃ s₁, f a s = .ok () s₁ ∧ as.forM f s₁ = .ok () s' := by
  constructor
  · intro h
    obtain ⟨_, s₁, ha, hrest⟩ := bind_ok.1 h
    exact ⟨s₁, ha, hrest⟩
  · intro h
    obtain ⟨s₁, ha, hrest⟩ := h
    exact bind_ok.2 ⟨(), s₁, ha, hrest⟩

/-- A loop that succeeds preserves what its body preserves.  `P` relates what has been gone through
to the receiver. -/
theorem forM_invariant {f : α → EStateM ε σ Unit} {as : List α} {P : List α → σ → Prop}
    (step : ∀ done a s s', P done s → f a s = .ok () s' → P (done ++ [a]) s')
    (done : List α) {s s' : σ} (h : P done s) (hloop : as.forM f s = .ok () s') :
    P (done ++ as) s' := by
  induction as generalizing done s with
  | nil =>
      rw [forM_nil] at hloop
      rwa [List.append_nil, hloop]
  | cons a as ih =>
      obtain ⟨s₁, ha, hrest⟩ := forM_cons.1 hloop
      rw [List.append_cons]
      exact ih (done ++ [a]) (step done a s s₁ h ha) hrest

end Wire.Method
