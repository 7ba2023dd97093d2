/-
**Loops that end.**

A `Loop` is the body of a `while` loop that walks some input: it goes on with a new state, stops, or
fails.  Every round makes a measure of the state smaller, so the loop ends, and `Loop.run` needs no
bound on the number of rounds.  What a run does is a chain of rounds and a last state in which the
body stops or fails.

Main definitions:

* `Wire.Loop` — a loop body, with the measure that it makes smaller;
* `Wire.Loop.run` — running it;
* `Wire.Loop.Rounds` — a chain of rounds.

Main results:

* `Wire.Loop.run_ok`, `Wire.Loop.run_error` — **a run is a chain of rounds**;
* `Wire.Loop.exists_end` — every loop ends;
* `Wire.Loop.Rounds.invariant` — what every round preserves, a run preserves.
-/

import CompactCore.Wire.Reader
import Mathlib.Logic.Relation

set_option relaxedAutoImplicit false
set_option autoImplicit false

namespace Wire

/-- The body of a loop. -/
structure Loop (ε σ : Type) where
  step : σ → Except ε (Option σ)
  measure : σ → ℕ
  decreases : ∀ {s s' : σ}, step s = .ok (some s') → measure s' < measure s

namespace Loop

variable {ε σ : Type} (loop : Loop ε σ)

/-- Run a loop until its body stops or fails. -/
def run (s : σ) : Except ε σ :=
  match _h : loop.step s with
  | .ok (some s') => run s'
  | .ok none => .ok s
  | .error e => .error e
termination_by loop.measure s
decreasing_by exact loop.decreases _h

/-- `loop.Rounds s s'`: some rounds lead from `s` to `s'`. -/
def Rounds (s s' : σ) : Prop :=
  Relation.ReflTransGen (fun a b => loop.step a = .ok (some b)) s s'

variable {loop} {s s' : σ}

theorem run_of_some (h : loop.step s = .ok (some s')) : loop.run s = loop.run s' := by
  rw [run]
  split
  · rename_i heq
    rw [h] at heq
    cases heq
    rfl
  · rename_i heq
    rw [h] at heq
    cases heq
  · rename_i heq
    rw [h] at heq
    cases heq

theorem run_of_none (h : loop.step s = .ok none) : loop.run s = .ok s := by
  rw [run]
  split
  · rename_i heq
    rw [h] at heq
    cases heq
  · rfl
  · rename_i heq
    rw [h] at heq
    cases heq

theorem run_of_error {e : ε} (h : loop.step s = .error e) : loop.run s = .error e := by
  rw [run]
  split
  · rename_i heq
    rw [h] at heq
    cases heq
  · rename_i heq
    rw [h] at heq
    cases heq
  · rename_i heq
    rw [h] at heq
    cases heq
    rfl

/-- Rounds do not change the result. -/
theorem Rounds.run_eq (h : loop.Rounds s s') : loop.run s = loop.run s' := by
  induction h with
  | refl => rfl
  | tail _ hstep ih => rw [ih, run_of_some hstep]

/-- Every loop ends: some rounds lead to a state in which the body stops or fails. -/
theorem exists_end (s : σ) :
    ∃ s', loop.Rounds s s' ∧ (loop.step s' = .ok none ∨ ∃ e, loop.step s' = .error e) := by
  induction hm : loop.measure s using Nat.strong_induction_on generalizing s with
  | _ m ih =>
      cases hstep : loop.step s with
      | error e => exact ⟨s, .refl, Or.inr ⟨e, hstep⟩⟩
      | ok next =>
          cases next with
          | none => exact ⟨s, .refl, Or.inl hstep⟩
          | some s₁ =>
              subst hm
              obtain ⟨s', hrounds, hend⟩ := ih _ (loop.decreases hstep) s₁ rfl
              exact ⟨s', .head hstep hrounds, hend⟩

/-- **A run that succeeds** is a chain of rounds to a state in which the body stops. -/
theorem run_ok : loop.run s = .ok s' ↔ loop.Rounds s s' ∧ loop.step s' = .ok none := by
  constructor
  · intro h
    obtain ⟨s₁, hrounds, hend⟩ := loop.exists_end s
    rw [hrounds.run_eq] at h
    rcases hend with hstop | ⟨e, herr⟩
    · rw [run_of_none hstop] at h
      cases h
      exact ⟨hrounds, hstop⟩
    · rw [run_of_error herr] at h
      cases h
  · intro h
    obtain ⟨hrounds, hstop⟩ := h
    rw [hrounds.run_eq, run_of_none hstop]

/-- **A run that fails** is a chain of rounds to a state in which the body fails. -/
theorem run_error {e : ε} :
    loop.run s = .error e ↔ ∃ s', loop.Rounds s s' ∧ loop.step s' = .error e := by
  constructor
  · intro h
    obtain ⟨s₁, hrounds, hend⟩ := loop.exists_end s
    rw [hrounds.run_eq] at h
    rcases hend with hstop | ⟨e', herr⟩
    · rw [run_of_none hstop] at h
      cases h
    · rw [run_of_error herr] at h
      cases h
      exact ⟨s₁, hrounds, herr⟩
  · intro h
    obtain ⟨s₁, hrounds, herr⟩ := h
    rw [hrounds.run_eq, run_of_error herr]

/-- What every round preserves, a run preserves. -/
theorem Rounds.invariant {P : σ → Prop} (h : loop.Rounds s s')
    (hstep : ∀ a b, P a → loop.step a = .ok (some b) → P b) (hs : P s) : P s' := by
  induction h with
  | refl => exact hs
  | tail _ hround ih => exact hstep _ _ ih hround

end Loop

end Wire
