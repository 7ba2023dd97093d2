/-
**Tilings of a range.**

Items that have a start and a length tile a range when each of them starts where the one before it
ends.  Then there is no gap between them, and no overlap.

Main definitions:

* `Wire.Tiles` — some items tile a range.

Main results:

* `Wire.Tiles.exists_mem` — **no gap**: every position of the range is in an item;
* `Wire.Tiles.pairwise` — **no overlap**: an item ends before those behind it start.
-/

import Mathlib.Data.List.Basic

set_option relaxedAutoImplicit false
set_option autoImplicit false

namespace Wire

variable {α : Type} {start len : α → ℕ}

/-- Some items tile the range from `first` to `last`. -/
def Tiles (start len : α → ℕ) : ℕ → List α → ℕ → Prop
  | first, [], last => first = last
  | first, x :: xs, last => start x = first ∧ Tiles start len (first + len x) xs last

theorem Tiles.le {first last : ℕ} {xs : List α} (h : Tiles start len first xs last) :
    first ≤ last := by
  induction xs generalizing first with
  | nil => exact Nat.le_of_eq h
  | cons x xs ih => exact Nat.le_trans (Nat.le_add_right _ _) (ih h.2)

theorem tiles_append {first last : ℕ} {xs ys : List α} :
    Tiles start len first (xs ++ ys) last ↔
      ∃ mid, Tiles start len first xs mid ∧ Tiles start len mid ys last := by
  induction xs generalizing first with
  | nil => simp [Tiles]
  | cons x xs ih =>
      simp only [List.cons_append, Tiles, ih, and_assoc, exists_and_left]

/-- An item lies inside the range. -/
theorem Tiles.bounds {first last : ℕ} {xs : List α} (h : Tiles start len first xs last) {x : α}
    (hx : x ∈ xs) : first ≤ start x ∧ start x + len x ≤ last := by
  obtain ⟨before, after, rfl⟩ := List.append_of_mem hx
  obtain ⟨mid, hbefore, rfl, hafter⟩ := tiles_append.1 h
  exact ⟨hbefore.le, hafter.le⟩

/-- **No overlap**: an item ends before those behind it start. -/
theorem Tiles.pairwise {first last : ℕ} {xs : List α} (h : Tiles start len first xs last) :
    xs.Pairwise fun x y => start x + len x ≤ start y := by
  induction xs generalizing first with
  | nil => exact List.Pairwise.nil
  | cons x xs ih =>
      obtain ⟨rfl, hrest⟩ := h
      exact List.Pairwise.cons (fun y hy => (hrest.bounds hy).1) (ih hrest)

/-- **No gap**: every position of the range is in an item. -/
theorem Tiles.exists_mem {first last : ℕ} {xs : List α} (h : Tiles start len first xs last) {i : ℕ}
    (hle : first ≤ i) (hlt : i < last) : ∃ x ∈ xs, start x ≤ i ∧ i < start x + len x := by
  induction xs generalizing first with
  | nil =>
      have heq : first = last := h
      omega
  | cons x xs ih =>
      obtain ⟨rfl, hrest⟩ := h
      rcases Nat.lt_or_ge i (start x + len x) with hhere | hlater
      · exact ⟨x, List.mem_cons_self, hle, hhere⟩
      · obtain ⟨y, hy, hfound⟩ := ih hrest hlater
        exact ⟨y, List.mem_cons_of_mem _ hy, hfound⟩

end Wire
