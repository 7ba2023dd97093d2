/-
**Binary search.**

A search halves the part of a sequence that may still hold the answer.  What the comparison says of
each position is all it looks at, so the library works with a sequence of orderings, and asks that
they be in order: positions that are too small come first, positions that are too large last.

Main definitions:

* `Wire.InOrder` — the positions that are too small come first, those that are too large last;
* `Wire.narrow` — the halving loop;
* `Wire.binarySearchBy` — the search in a list: the place of a match, or the place to insert one;
* `Wire.partitionPoint` — where the items that satisfy a predicate end;
* `Wire.Words.linearOrderUInt64` — machine words as keys.

Main results:

* `Wire.narrow_spec` — what the loop leaves of the sequence;
* `Wire.binarySearchBy_ok`, `Wire.binarySearchBy_error` — **a place that is found matches, and a
  place to insert splits the list**;
* `Wire.find_binarySearchBy` — a search by a strictly monotone key finds the item with that key;
* `Wire.partitionPoint_append` — the items that satisfy the predicate end where the others begin.
-/

import Mathlib.Data.List.Nodup
import Mathlib.Data.List.TakeWhile
import Mathlib.Data.Nat.Init
import Mathlib.Order.Compare
import Mathlib.Order.Lattice

set_option relaxedAutoImplicit false
set_option autoImplicit false

namespace Wire

variable {α κ : Type}

/-! ### The loop -/

/-- The comparisons of the first `n` positions are in order. -/
def InOrder (cmp : ℕ → Ordering) (n : ℕ) : Prop :=
  ∀ i j, i < j → j < n → (cmp i = .gt → cmp j = .gt) ∧ (cmp j = .lt → cmp i = .lt)

/-- Halve the `size` positions from `base` on until one is left. -/
def narrow (cmp : ℕ → Ordering) (base size : ℕ) : ℕ :=
  if size ≤ 1 then base
  else
    let half := size / 2
    let mid := base + half
    narrow cmp (if cmp mid = .gt then base else mid) (size - half)
termination_by size
decreasing_by omega

/-- The loop keeps what is before its part at most a match, and what is behind it too large. -/
theorem narrow_spec {cmp : ℕ → Ordering} {n base size : ℕ} (hn : InOrder cmp n) (hsize : 0 < size)
    (hle : base + size ≤ n) (hbase : base = 0 ∨ cmp base ≠ .gt)
    (hend : ∀ i, base + size ≤ i → i < n → cmp i = .gt) :
    narrow cmp base size < n ∧ (narrow cmp base size = 0 ∨ cmp (narrow cmp base size) ≠ .gt) ∧
      ∀ i, narrow cmp base size < i → i < n → cmp i = .gt := by
  induction size using Nat.strong_induction_on generalizing base with
  | _ size ih =>
      rw [narrow]
      split
      · have hone : size = 1 := by omega
        exact ⟨by omega, hbase, fun i hi hin => hend i (by omega) hin⟩
      · rename_i hmany
        by_cases hmid : cmp (base + size / 2) = .gt
        · -- the upper half is too large
          simp only [if_pos hmid]
          refine ih _ (by omega) (by omega) (by omega) hbase fun i hi hin => ?_
          rcases Nat.eq_or_lt_of_le (show base + size / 2 ≤ i by omega) with heq | hlt
          · rw [← heq]
            exact hmid
          · exact (hn _ i hlt hin).1 hmid
        · simp only [if_neg hmid]
          refine ih _ (by omega) (by omega) (by omega) (Or.inr hmid) fun i hi hin => ?_
          exact hend i (by omega) hin

/-! ### Searching a list -/

/-- What the comparison says of position `i`. -/
def cmpAt (cmp : α → Ordering) (xs : List α) (i : ℕ) : Ordering := (xs[i]?.map cmp).getD .gt

theorem cmpAt_getElem (cmp : α → Ordering) (xs : List α) (i : ℕ) (h : i < xs.length) :
    cmpAt cmp xs i = cmp xs[i] := by
  rw [cmpAt, List.getElem?_eq_getElem h]
  rfl

/-- `slice::binary_search_by`: the place of a match, or the place where one can be inserted. -/
def binarySearchBy (cmp : α → Ordering) (xs : List α) : Except ℕ ℕ :=
  if xs.length = 0 then .error 0
  else
    let base := narrow (cmpAt cmp xs) 0 xs.length
    match cmpAt cmp xs base with
    | .eq => .ok base
    | .lt => .error (base + 1)
    | .gt => .error base

/-- A list whose items are in order for a comparison. -/
theorem inOrder_of_pairwise {cmp : α → Ordering} {xs : List α}
    (h : xs.Pairwise fun a b => (cmp a = .gt → cmp b = .gt) ∧ (cmp b = .lt → cmp a = .lt)) :
    InOrder (cmpAt cmp xs) xs.length := by
  intro i j hij hj
  rw [cmpAt_getElem cmp xs i (by omega), cmpAt_getElem cmp xs j hj]
  exact List.pairwise_iff_getElem.1 h i j (by omega) hj hij

/-- **A place that is found matches.** -/
theorem binarySearchBy_ok {cmp : α → Ordering} {xs : List α} {i : ℕ}
    (h : binarySearchBy cmp xs = .ok i)
    (hxs : InOrder (cmpAt cmp xs) xs.length) : ∃ x, xs[i]? = some x ∧ cmp x = .eq := by
  unfold binarySearchBy at h
  split at h
  · cases h
  · rename_i hne
    have hspec := @narrow_spec _ _ 0 xs.length hxs (by omega) (by omega)
      (Or.inl rfl) (by omega)
    simp only at h
    split at h
    · rename_i heq
      cases h
      rw [cmpAt_getElem cmp xs _ hspec.1] at heq
      exact ⟨_, List.getElem?_eq_getElem hspec.1, heq⟩
    · cases h
    · cases h

/-- **A place to insert splits the list** into items that are too small and items that are too
large. -/
theorem binarySearchBy_error {cmp : α → Ordering} {xs : List α} {k : ℕ}
    (h : binarySearchBy cmp xs = .error k) (hxs : InOrder (cmpAt cmp xs) xs.length) :
    k ≤ xs.length ∧ (∀ x ∈ xs.take k, cmp x = .lt) ∧ ∀ x ∈ xs.drop k, cmp x = .gt := by
  -- the two halves are read off the positions
  suffices hpos : k ≤ xs.length ∧ (∀ i < k, cmpAt cmp xs i = .lt) ∧
      ∀ i, k ≤ i → i < xs.length → cmpAt cmp xs i = .gt by
    obtain ⟨hk, hlt, hgt⟩ := hpos
    refine ⟨hk, fun x hx => ?_, fun x hx => ?_⟩
    · obtain ⟨i, hi, rfl⟩ := List.mem_take_iff_getElem.1 hx
      have := hlt i (by omega)
      rwa [cmpAt_getElem cmp xs i (by omega)] at this
    · obtain ⟨i, hi, rfl⟩ := List.mem_drop_iff_getElem.1 hx
      have := hgt (k + i) (by omega) (by omega)
      rwa [cmpAt_getElem cmp xs (k + i) (by omega)] at this
  unfold binarySearchBy at h
  split at h
  · cases h
    exact ⟨by omega, by omega, by omega⟩
  · rename_i hne
    obtain ⟨hlast, hbase, hend⟩ := @narrow_spec _ _ 0 xs.length hxs (by omega)
      (by omega) (Or.inl rfl) (by omega)
    simp only at h
    split at h
    · cases h
    · rename_i hlt
      cases h
      refine ⟨by omega, fun i hi => ?_, fun i hi hin => hend i (by omega) hin⟩
      rcases Nat.eq_or_lt_of_le (Nat.lt_succ_iff.1 hi) with heq | hless
      · rw [heq]
        exact hlt
      · exact (hxs i _ hless hlast).2 hlt
    · rename_i hgt
      cases h
      -- the loop never moved
      have hzero := hbase.resolve_right fun hne => hne hgt
      refine ⟨by omega, by omega, fun i hi hin => ?_⟩
      rcases Nat.eq_or_lt_of_le hi with heq | hless
      · rw [← heq]
        exact hgt
      · exact hend i hless hin

/-! ### Searching by a predicate -/

/-- `slice::partition_point`. -/
def partitionPoint (pred : α → Bool) (xs : List α) : ℕ :=
  match binarySearchBy (fun x => if pred x then .lt else .gt) xs with
  | .ok i => i
  | .error i => i

/-- **The items that satisfy the predicate end where the others begin.** -/
theorem partitionPoint_append {pred : α → Bool} {xs ys : List α} (hxs : ∀ x ∈ xs, pred x = true)
    (hys : ∀ y ∈ ys, pred y = false) : partitionPoint pred (xs ++ ys) = xs.length := by
  let cmp : α → Ordering := fun x => if pred x then .lt else .gt
  have horder : InOrder (cmpAt cmp (xs ++ ys)) (xs ++ ys).length := by
    refine inOrder_of_pairwise (List.pairwise_append.2 ⟨?_, ?_, ?_⟩)
    · exact List.pairwise_of_forall_mem_list fun a ha b hb => by simp [cmp, hxs a ha, hxs b hb]
    · exact List.pairwise_of_forall_mem_list fun a ha b hb => by simp [cmp, hys a ha, hys b hb]
    · intro a ha b hb
      simp [cmp, hxs a ha, hys b hb]
  rw [partitionPoint]
  cases h : binarySearchBy cmp (xs ++ ys) with
  | ok i =>
      -- no item compares equal
      obtain ⟨x, -, heq⟩ := binarySearchBy_ok h horder
      simp only [cmp] at heq
      split at heq <;> cases heq
  | error k =>
      obtain ⟨hk, hlt, hgt⟩ := binarySearchBy_error h horder
      rw [List.length_append] at hk
      rcases Nat.lt_trichotomy k xs.length with hless | heq | hmore
      · have hmem : xs[k] ∈ (xs ++ ys).drop k := by
          rw [List.drop_append_of_le_length (by omega), List.mem_append]
          exact Or.inl (List.mem_drop_iff_getElem.2 ⟨0, by omega, by simp⟩)
        have hbad := hgt _ hmem
        rw [show cmp xs[k] = .lt by simp [cmp, hxs _ (List.getElem_mem hless)]] at hbad
        cases hbad
      · exact heq
      · obtain ⟨y, ys, rfl⟩ : ∃ y ys', ys = y :: ys' :=
          List.exists_cons_of_length_pos (by omega)
        have hmem : y ∈ (xs ++ y :: ys).take k := by
          rw [List.take_append, List.mem_append]
          refine Or.inr (List.mem_take_iff_getElem.2 ⟨0, ?_, rfl⟩)
          rw [List.length_cons]
          omega
        have hbad := hlt _ hmem
        rw [show cmp y = .gt by simp [cmp, hys y List.mem_cons_self]] at hbad
        cases hbad

/-- Where the predicate never comes back, they end where it first fails. -/
theorem partitionPoint_eq {pred : α → Bool} {xs : List α}
    (hxs : xs.Pairwise fun a b => pred b = true → pred a = true) :
    partitionPoint pred xs = (xs.takeWhile pred).length := by
  have hrest : ∀ y ∈ xs.dropWhile pred, pred y = false := by
    intro y hy
    cases hdrop : xs.dropWhile pred with
    | nil =>
        rw [hdrop] at hy
        cases hy
    | cons first rest =>
        -- the first item that is dropped fails, and so do those behind it
        have hfirst : pred first = false := by
          have hhead := List.head_dropWhile_not pred (hdrop ▸ List.cons_ne_nil first rest)
          simpa only [hdrop, List.head_cons] using hhead
        rw [hdrop, List.mem_cons] at hy
        rcases hy with rfl | hy
        · exact hfirst
        · have hpair := hxs.sublist (List.dropWhile_sublist pred)
          rw [hdrop, List.pairwise_cons] at hpair
          by_contra htrue
          rw [hpair.1 y hy (by simpa using htrue)] at hfirst
          cases hfirst
  have htaken : ∀ x ∈ xs.takeWhile pred, pred x = true := fun x hx => List.mem_takeWhile_imp hx
  have hsplit := partitionPoint_append htaken hrest
  rwa [List.takeWhile_append_dropWhile] at hsplit

/-! ### Searching by a key -/

section Key

variable [LinearOrder κ] {key : α → κ} {xs : List α}

/-- Items in increasing order of a key are in order for a comparison with that key. -/
theorem inOrder_compare (hxs : xs.Pairwise fun a b => key a < key b) (target : κ) :
    InOrder (cmpAt (fun x => compare (key x) target) xs) xs.length := by
  refine inOrder_of_pairwise (hxs.imp fun {a b} hab => ⟨fun h => ?_, fun h => ?_⟩)
  · rw [compare_gt_iff_gt] at h ⊢
    exact lt_trans h hab
  · rw [compare_lt_iff_lt] at h ⊢
    exact lt_trans hab h

/-- **A search by a key finds the item with that key.** -/
theorem find_binarySearchBy (hxs : xs.Pairwise fun a b => key a < key b) (target : κ) (x : α) :
    ((binarySearchBy (fun x => compare (key x) target) xs).toOption.bind (xs[·]?)) = some x ↔
      x ∈ xs ∧ key x = target := by
  have horder := inOrder_compare hxs target
  have hnodup : (xs.map key).Nodup := List.pairwise_map.2 (hxs.imp fun h => ne_of_lt h)
  cases h : binarySearchBy (fun x => compare (key x) target) xs with
  | ok i =>
      obtain ⟨y, hy, heq⟩ := binarySearchBy_ok h horder
      have hmem : y ∈ xs := List.mem_of_getElem? hy
      rw [compare_eq_iff_eq] at heq
      simp only [Except.toOption, Option.bind_some, hy, Option.some.injEq]
      constructor
      · rintro rfl
        exact ⟨hmem, heq⟩
      · intro hx
        exact List.inj_on_of_nodup_map hnodup hmem hx.1 (by rw [heq, hx.2])
  | error k =>
      obtain ⟨hk, hlt, hgt⟩ := binarySearchBy_error h horder
      simp only [Except.toOption, Option.bind_none, reduceCtorEq, false_iff, not_and]
      intro hx heq
      rw [← List.take_append_drop k xs, List.mem_append] at hx
      rcases hx with hx | hx
      · exact absurd heq (ne_of_lt (compare_lt_iff_lt.1 (hlt x hx)))
      · exact absurd heq (ne_of_gt (compare_gt_iff_gt.1 (hgt x hx)))

/-- A search succeeds exactly when there is an item with the key. -/
theorem isSome_binarySearchBy (hxs : xs.Pairwise fun a b => key a < key b) (target : κ) :
    (binarySearchBy (fun x => compare (key x) target) xs).toOption.isSome = true ↔
      ∃ x ∈ xs, key x = target := by
  have hfind := find_binarySearchBy hxs target
  cases h : binarySearchBy (fun x => compare (key x) target) xs with
  | ok i =>
      rw [h] at hfind
      obtain ⟨x, hx, heq⟩ := binarySearchBy_ok h (inOrder_compare hxs target)
      exact ⟨fun _ => ⟨x, (hfind x).1 hx⟩, fun _ => rfl⟩
  | error k =>
      rw [h] at hfind
      refine ⟨fun hsome => (by cases hsome), fun hex => ?_⟩
      obtain ⟨x, hmem, heq⟩ := hex
      cases (hfind x).2 ⟨hmem, heq⟩

end Key

/-! ### Words as keys -/

namespace Words

/-- Machine words are linearly ordered. -/
scoped instance linearOrderUInt64 : LinearOrder UInt64 where
  le_refl := UInt64.le_refl
  le_trans := fun _ _ _ => UInt64.le_trans
  le_antisymm := fun _ _ => UInt64.le_antisymm
  le_total := UInt64.le_total
  lt_iff_le_not_ge := fun a b => by
    rw [UInt64.not_le]
    exact ⟨fun h => ⟨UInt64.le_of_lt h, h⟩, fun h => h.2⟩
  toDecidableLE := inferInstance
  toDecidableLT := inferInstance
  toDecidableEq := inferInstance
  min_def := fun _ _ => rfl
  max_def := fun _ _ => rfl
  compare_eq_compareOfLessAndEq := fun _ _ => rfl

end Words

end Wire
