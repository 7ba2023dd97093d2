/-
**Cutting a list greedily.**

An encoder cuts its input into pieces of some kind, each as long as it can be.  Where every end of
a piece is a piece, no other way of cutting the input has fewer pieces: the greedy cut is always at
least as far.

Main definitions:

* `Wire.Greedy` — the pieces of a list, each the longest at its place.

Main results:

* `Wire.Greedy.flatten` — the pieces are the list;
* `Wire.Greedy.length_le` — **no other cut has fewer pieces**.
-/

import Mathlib.Data.List.Basic

set_option relaxedAutoImplicit false
set_option autoImplicit false

namespace Wire

variable {α : Type} {Piece : List α → Prop}

/-- `Greedy Piece xs pieces`: each of `pieces` is the longest one where it starts. -/
inductive Greedy (Piece : List α → Prop) : List α → List (List α) → Prop
  | nil : Greedy Piece [] []
  | cons {piece rest : List α} {pieces : List (List α)} (nonempty : piece ≠ [])
      (longest : ∀ other, Piece other → other <+: piece ++ rest → other.length ≤ piece.length)
      (next : Greedy Piece rest pieces) : Greedy Piece (piece ++ rest) (piece :: pieces)

namespace Greedy

variable {xs : List α} {pieces : List (List α)}

theorem flatten (h : Greedy Piece xs pieces) : pieces.flatten = xs := by
  induction h with
  | nil => rfl
  | cons _ _ _ ih => rw [List.flatten_cons, ih]

/-- An end of a piece and a list is an end of the list, or starts in the piece. -/
theorem suffix_append_iff {as bs : List α} :
    xs <:+ as ++ bs ↔ xs <:+ bs ∨ ∃ cs, cs ≠ [] ∧ cs <:+ as ∧ xs = cs ++ bs := by
  constructor
  · rintro ⟨front, h⟩
    rcases List.append_eq_append_iff.1 h with ⟨cs, rfl, rfl⟩ | ⟨cs, rfl, rfl⟩
    · rcases eq_or_ne cs [] with rfl | hne
      · exact Or.inl (List.suffix_refl _)
      · exact Or.inr ⟨cs, hne, List.suffix_append _ _, rfl⟩
    · exact Or.inl (List.suffix_append _ _)
  · rintro (h | ⟨cs, -, ⟨front, rfl⟩, rfl⟩)
    · exact List.suffix_append_of_suffix h
    · exact ⟨front, (List.append_assoc _ _ _).symm⟩

/-- **No other cut has fewer pieces**, not even a cut of a longer list with this end. -/
theorem length_le (h : Greedy Piece xs pieces)
    (hends : ∀ piece other, Piece piece → other ≠ [] → other <:+ piece → Piece other)
    {others : List (List α)} (hothers : ∀ other ∈ others, Piece other)
    (hxs : xs <:+ others.flatten) : pieces.length ≤ others.length := by
  induction others generalizing xs pieces with
  | nil =>
      cases h with
      | nil => exact Nat.le_refl _
      | cons nonempty _ _ =>
          exact absurd (List.append_eq_nil_iff.1 (List.suffix_nil.1 hxs)).1 nonempty
  | cons other others ih =>
      have htail : ∀ o ∈ others, Piece o := fun o ho => hothers o (List.mem_cons_of_mem _ ho)
      rw [List.flatten_cons, suffix_append_iff] at hxs
      rcases hxs with hxs | ⟨start, hne, hstart, heq⟩
      · exact Nat.le_succ_of_le (ih h htail hxs)
      · cases h with
        | nil => exact Nat.zero_le _
        | @cons piece rest pieces _ longest next =>
            -- the greedy piece ends behind the end of the other one
            have hpiece := hends other start (hothers other List.mem_cons_self) hne hstart
            have hlen := longest start hpiece ⟨others.flatten, heq.symm⟩
            have hpre := List.prefix_of_prefix_length_le ⟨others.flatten, heq.symm⟩
              (List.prefix_append piece rest) hlen
            obtain ⟨more, rfl⟩ := hpre
            rw [List.append_assoc, List.append_cancel_left_eq] at heq
            exact Nat.succ_le_succ (ih next htail ⟨more, heq⟩)

end Greedy

end Wire
