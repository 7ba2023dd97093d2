/-
**The first smallest of a list.**

A loop tries the items of a list in order, measures those that can be measured, and keeps the first
one that no other is smaller than.  Items that cannot be measured are passed over, so that nothing
is kept only if there is nothing to keep.

Main definitions:

* `Wire.FirstLeast` — what a loop has kept after some items.

Main results:

* `Wire.FirstLeast.snoc` — **one more item**: it is kept if it is smaller than what was;
* `Wire.FirstLeast.isSome_iff` — something is kept as soon as one item can be measured;
* `Wire.FirstLeast.exists_split` — what is kept is at most every item, and less than those before.
-/

import Mathlib.Data.List.Basic
import Mathlib.Order.Lattice

set_option relaxedAutoImplicit false
set_option autoImplicit false

namespace Wire

variable {α β κ : Type} [LinearOrder κ]

/-- `FirstLeast f xs best`: of the items of `xs` that `f` measures, `best` is the first that no
other is smaller than, with its measure. -/
inductive FirstLeast (f : α → Option (κ × β)) : List α → Option (κ × β) → Prop
  | empty {xs : List α} (h : ∀ x ∈ xs, f x = none) : FirstLeast f xs none
  | kept {before : List α} {x : α} {after : List α} {k : κ} {b : β} (value : f x = some (k, b))
      (first : ∀ y ∈ before, ∀ k' b', f y = some (k', b') → k < k')
      (least : ∀ y ∈ after, ∀ k' b', f y = some (k', b') → k ≤ k') :
      FirstLeast f (before ++ x :: after) (some (k, b))

namespace FirstLeast

variable {f : α → Option (κ × β)} {xs : List α} {best : Option (κ × β)}

theorem nil : FirstLeast f [] none := .empty fun x hx => by cases hx

/-- An item that cannot be measured changes nothing. -/
theorem skip {x : α} (h : FirstLeast f xs best) (hx : f x = none) :
    FirstLeast f (xs ++ [x]) best := by
  cases h with
  | empty hall =>
      refine .empty fun y hy => ?_
      rcases List.mem_append.1 hy with hy | hy
      · exact hall y hy
      · rwa [List.mem_singleton.1 hy]
  | kept value first least =>
      rw [List.append_assoc, List.cons_append]
      refine .kept value first fun y hy k' b' hk => ?_
      rcases List.mem_append.1 hy with hy | hy
      · exact least y hy k' b' hk
      · rw [List.mem_singleton.1 hy, hx] at hk
        cases hk

/-- **One more item** is kept if it is smaller than what was, or nothing was. -/
theorem snoc {x : α} {k : κ} {b : β} (h : FirstLeast f xs best) (hx : f x = some (k, b)) :
    FirstLeast f (xs ++ [x]) (if best.all (k < ·.1) then some (k, b) else best) := by
  cases h with
  | empty hall =>
      rw [Option.all_none, if_pos rfl]
      refine .kept hx (fun y hy k' b' hk => ?_) (fun y hy => by cases hy)
      rw [hall y hy] at hk
      cases hk
  | @kept before x₀ after k₀ b₀ value first least =>
      rw [Option.all_some]
      by_cases hlt : k < k₀
      · -- the new item is smaller than what was kept, and so than everything before it
        rw [if_pos (decide_eq_true hlt)]
        refine .kept hx (fun y hy k' b' hk => ?_) (fun y hy => by cases hy)
        rcases List.mem_append.1 hy with hy | hy
        · exact hlt.trans (first y hy k' b' hk)
        rcases List.mem_cons.1 hy with rfl | hy
        · rw [value, Option.some.injEq, Prod.mk.injEq] at hk
          rwa [← hk.1]
        · exact lt_of_lt_of_le hlt (least y hy k' b' hk)
      · rw [if_neg fun h => hlt (of_decide_eq_true h), List.append_assoc, List.cons_append]
        refine .kept value first fun y hy k' b' hk => ?_
        rcases List.mem_append.1 hy with hy | hy
        · exact least y hy k' b' hk
        · rw [List.mem_singleton.1 hy, hx, Option.some.injEq, Prod.mk.injEq] at hk
          exact hk.1 ▸ not_lt.1 hlt

/-- Something is kept as soon as one item can be measured. -/
theorem isSome_iff (h : FirstLeast f xs best) :
    best.isSome = true ↔ ∃ x ∈ xs, (f x).isSome = true := by
  cases h with
  | empty hall =>
      constructor
      · intro hsome
        cases hsome
      · rintro ⟨x, hx, hsome⟩
        rw [hall x hx] at hsome
        cases hsome
  | @kept before x after k b value first least =>
      constructor
      · intro _
        exact ⟨x, List.mem_append_right _ List.mem_cons_self, by rw [value]; rfl⟩
      · intro _
        rfl

/-- **What is kept** is at most every item, and less than the items before it. -/
theorem exists_split {k : κ} {b : β} (h : FirstLeast f xs (some (k, b))) :
    ∃ before x after, xs = before ++ x :: after ∧ f x = some (k, b) ∧
      (∀ y ∈ before, ∀ k' b', f y = some (k', b') → k < k') ∧
        ∀ y ∈ xs, ∀ k' b', f y = some (k', b') → k ≤ k' := by
  cases h with
  | @kept before x after _ _ value first least =>
      refine ⟨before, x, after, rfl, value, first, fun y hy k' b' hk => ?_⟩
      rcases List.mem_append.1 hy with hy | hy
      · exact (first y hy k' b' hk).le
      rcases List.mem_cons.1 hy with rfl | hy
      · rw [value, Option.some.injEq, Prod.mk.injEq] at hk
        exact hk.1.le
      · exact least y hy k' b' hk

end FirstLeast

end Wire
