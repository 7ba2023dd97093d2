/-
**Programs whose threads take turns in any order.**

A concurrent program is a step relation: in every state any thread that can go on may be the next to
do so.  What such a program does is what it does in every run.  `Always` says that no run goes on
for ever, that none gets stuck, and that all of them end with a result that satisfies a predicate;
`Returns` says that some run ends with a result.

Main definitions:

* `Wire.Concurrent` — a program;
* `Wire.Concurrent.Always`, `Wire.Concurrent.Returns` — what every run, or some run, ends with.

Main results:

* `Wire.Concurrent.always_of_invariant` — **the rule for runs**: an invariant, a measure that every
  step makes smaller, and what the invariant says where no step is left;
* `Wire.Concurrent.Always.of_returns` — what every run ends with, a run ends with;
* `Wire.Concurrent.Always.and`, `Wire.Concurrent.Always.exists` — two facts about every run, and
  that there is a run.
-/

import Mathlib.Data.Nat.Init
import Mathlib.Data.Nat.Notation
import Mathlib.Logic.Basic
import Mathlib.Logic.Relation

set_option relaxedAutoImplicit false
set_option autoImplicit false

namespace Wire

/-- A program of several threads. -/
structure Concurrent (α : Type) where
  State : Type
  start : State
  Step : State → State → Prop
  /-- What the program returns, in a state in which its threads have ended. -/
  result : State → Option α

namespace Concurrent

variable {α : Type} (p : Concurrent α)

/-- No thread can go on. -/
def Terminal (s : p.State) : Prop := ∀ s', ¬p.Step s s'

/-- Some steps lead from the start to a state. -/
def Reachable (s : p.State) : Prop := Relation.ReflTransGen p.Step p.start s

/-- Every run from a state ends, with a result that satisfies `P`. -/
inductive EndsWith (P : α → Prop) : p.State → Prop
  | intro {s : p.State} (next : ∀ s', p.Step s s' → EndsWith P s')
      (stop : p.Terminal s → ∃ a, p.result s = some a ∧ P a) : EndsWith P s

/-- Every run ends, with a result that satisfies `P`. -/
def Always (P : α → Prop) : Prop := p.EndsWith P p.start

/-- Some run ends with the result `a`. -/
def Returns (a : α) : Prop := ∃ s, p.Reachable s ∧ p.Terminal s ∧ p.result s = some a

/-- A program without threads. -/
def pure (a : α) : Concurrent α where
  State := Unit
  start := ()
  Step _ _ := False
  result _ := some a

variable {p} {P Q : α → Prop} {a : α}

theorem always_pure : (pure a).Always P ↔ P a := by
  constructor
  · intro h
    cases h with
    | intro _ stop =>
        obtain ⟨b, hb, hP⟩ := stop fun _ => id
        cases hb
        exact hP
  · intro h
    exact .intro (fun _ hstep => hstep.elim) fun _ => ⟨a, rfl, h⟩

theorem EndsWith.mono {s : p.State} (h : p.EndsWith P s) (hPQ : ∀ a, P a → Q a) :
    p.EndsWith Q s := by
  induction h with
  | intro _ stop ih =>
      refine .intro ih fun hterminal => ?_
      obtain ⟨a, ha, hP⟩ := stop hterminal
      exact ⟨a, ha, hPQ a hP⟩

theorem Always.mono (h : p.Always P) (hPQ : ∀ a, P a → Q a) : p.Always Q := EndsWith.mono h hPQ

theorem EndsWith.of_steps {s s' : p.State} (h : p.EndsWith P s)
    (hsteps : Relation.ReflTransGen p.Step s s') : p.EndsWith P s' := by
  induction hsteps with
  | refl => exact h
  | tail _ hstep ih =>
      cases ih with
      | intro next _ => exact next _ hstep

/-- **What every run ends with, a run ends with.** -/
theorem Always.of_returns (h : p.Always P) (ha : p.Returns a) : P a := by
  obtain ⟨s, hreach, hterminal, hresult⟩ := ha
  cases EndsWith.of_steps h hreach with
  | intro _ stop =>
      obtain ⟨b, hb, hP⟩ := stop hterminal
      rw [hresult] at hb
      cases hb
      exact hP

theorem Always.and (h : p.Always P) (hQ : p.Always Q) : p.Always fun a => P a ∧ Q a := by
  suffices hboth : ∀ s, p.EndsWith P s → p.EndsWith Q s → p.EndsWith (fun a => P a ∧ Q a) s from
    hboth _ h hQ
  intro s hP
  induction hP with
  | intro _ stop ih =>
      intro hQ
      cases hQ with
      | intro next stopQ =>
          refine .intro (fun s' hstep => ih s' hstep (next s' hstep)) fun hterminal => ?_
          obtain ⟨a, ha, hPa⟩ := stop hterminal
          obtain ⟨b, hb, hQb⟩ := stopQ hterminal
          rw [ha] at hb
          cases hb
          exact ⟨a, ha, hPa, hQb⟩

/-- A state from which every run ends leads to an end. -/
theorem EndsWith.exists {s : p.State} (h : p.EndsWith P s) :
    ∃ s' a, Relation.ReflTransGen p.Step s s' ∧ p.Terminal s' ∧ p.result s' = some a ∧ P a := by
  induction h with
  | @intro s _ stop ih =>
      by_cases hterminal : p.Terminal s
      · obtain ⟨a, ha, hP⟩ := stop hterminal
        exact ⟨s, a, .refl, hterminal, ha, hP⟩
      · obtain ⟨s', hstep⟩ := not_forall_not.1 hterminal
        obtain ⟨s'', a, hsteps, hend⟩ := ih s' hstep
        exact ⟨s'', a, .head hstep hsteps, hend⟩

/-- Every program that always ends returns something. -/
theorem Always.exists (h : p.Always P) : ∃ a, p.Returns a ∧ P a := by
  obtain ⟨s, a, hsteps, hterminal, ha, hP⟩ := EndsWith.exists h
  exact ⟨a, ⟨s, hsteps, hterminal, ha⟩, hP⟩

/-- **The rule for runs.**  An invariant that holds in the end makes every run end well, if every
step makes a measure smaller. -/
theorem always_of_invariant {I : p.State → Prop} (measure : p.State → ℕ) (start : I p.start)
    (step : ∀ s s', I s → p.Step s s' → I s')
    (decreases : ∀ s s', p.Step s s' → measure s' < measure s)
    (stop : ∀ s, I s → p.Terminal s → ∃ a, p.result s = some a ∧ P a) : p.Always P := by
  suffices h : ∀ n s, measure s = n → I s → p.EndsWith P s from h _ _ rfl start
  intro n
  induction n using Nat.strong_induction_on with
  | _ n ih =>
      intro s hs hinv
      refine .intro (fun s' hstep => ?_) (stop s hinv)
      exact ih _ (hs ▸ decreases s s' hstep) s' rfl (step s s' hinv hstep)

end Concurrent

end Wire
