/-
**Scanners: loops that follow a log.**

A scanner walks a log record by record and keeps what it has seen in its state.  It may fail where a
record is acceptable but the totals overflow.  This module packages the induction over the records:
what one round does is enough to know where a run gets to.

Main definitions:

* `Wire.Follows` — a loop takes one round for every record.

Main results:

* `Wire.Follows.rounds` — **a loop follows a log to its end**;
* `Wire.Follows.run_error` — and fails on the first record that is not good.
-/

import CompactCore.Wire.Log
import CompactCore.Wire.Loop

set_option relaxedAutoImplicit false
set_option autoImplicit false

namespace Wire

variable {ε σ ρ : Type}

/-- A loop takes one round for every record of a log, as long as the records are good.  `R` relates
the state to the records before it. -/
structure Follows (loop : Loop ε σ) (F : LogFormat ρ) (data : List UInt8) (c : ℕ)
    (R : σ → List ρ → Prop) (Good : List ρ → Prop) : Prop where
  next : ∀ {s : σ} {rs : List ρ} {r : ρ}, R s rs → F.Holds data c (rs ++ [r]) → Good (rs ++ [r]) →
    ∃ s', loop.step s = .ok (some s') ∧ R s' (rs ++ [r])
  fail : ∀ {s : σ} {rs : List ρ} {r : ρ}, R s rs → F.Holds data c (rs ++ [r]) →
    ¬Good (rs ++ [r]) → ∃ e, loop.step s = .error e
  good_of_append : ∀ {rs rs' : List ρ}, Good (rs ++ rs') → Good rs

namespace Follows

variable {loop : Loop ε σ} {F : LogFormat ρ} {data : List UInt8} {c : ℕ}
  {R : σ → List ρ → Prop} {Good : List ρ → Prop}

/-- **A loop follows a log of good records to its end.** -/
theorem rounds (h : Follows loop F data c R Good) {s : σ} {rs : List ρ} (rest : List ρ)
    (hs : R s rs) (hlog : F.Holds data c (rs ++ rest)) (hgood : Good (rs ++ rest)) :
    ∃ s', loop.Rounds s s' ∧ R s' (rs ++ rest) := by
  induction rest generalizing s rs with
  | nil => exact ⟨s, .refl, by rwa [List.append_nil]⟩
  | cons r rest ih =>
      rw [List.append_cons] at hlog hgood
      obtain ⟨s₁, hstep, hs₁⟩ := h.next hs hlog.of_append (h.good_of_append hgood)
      obtain ⟨s', hrounds, hs'⟩ := ih hs₁ hlog hgood
      exact ⟨s', .head hstep hrounds, by rwa [List.append_cons]⟩

/-- A loop fails on a log that is not good. -/
theorem run_error (h : Follows loop F data c R Good) {s : σ} {rs : List ρ} (rest : List ρ)
    (hs : R s rs) (hrs : Good rs) (hlog : F.Holds data c (rs ++ rest))
    (hbad : ¬Good (rs ++ rest)) :
    ∃ e, loop.run s = .error e := by
  induction rest generalizing s rs with
  | nil => exact absurd hrs (by rwa [List.append_nil] at hbad)
  | cons r rest ih =>
      rw [List.append_cons] at hlog hbad
      by_cases hgood : Good (rs ++ [r])
      · obtain ⟨s₁, hstep, hs₁⟩ := h.next hs hlog.of_append hgood
        obtain ⟨e, he⟩ := ih hs₁ hgood hlog hbad
        exact ⟨e, by rw [Loop.run_of_some hstep, he]⟩
      · obtain ⟨e, he⟩ := h.fail hs hlog.of_append hgood
        exact ⟨e, Loop.run_of_error he⟩

end Follows

end Wire
