/-
**Logs of self-delimiting records.**

A log is a sequence of records, one behind the other.  Which record may come next depends on the
records before it: records carry sequence numbers.  Records are self-delimiting, so a byte string
holds at most one acceptable record at a position, and two logs that start at the same position
agree as far as both go.  A log is complete when no acceptable record follows it; that is where a
scanner has to stop.

Main definitions:

* `Wire.LogFormat` — the bytes of a record, and which record may follow which;
* `Wire.LogFormat.Chain` — records that may follow each other;
* `Wire.LogFormat.Holds` — a byte string holds a log at a position;
* `Wire.LogFormat.Complete` — and no acceptable record follows it.

Main results:

* `Wire.LogFormat.Holds.isPrefix_complete` — **a complete log extends every other**;
* `Wire.LogFormat.complete_unique`, `Wire.LogFormat.exists_complete` — there is exactly one;
* `Wire.LogFormat.holds_take`, `Wire.LogFormat.Complete.take` — what is left of a log when its bytes
  are cut off.
-/

import CompactCore.Wire.Bytes

set_option relaxedAutoImplicit false
set_option autoImplicit false

namespace Wire

/-- A format of records that follow each other. -/
structure LogFormat (ρ : Type) where
  bytes : ρ → List UInt8
  /-- The record may follow these records. -/
  Accepts : List ρ → ρ → Prop
  bytes_ne : ∀ {rs : List ρ} {r : ρ}, Accepts rs r → bytes r ≠ []
  unique : ∀ {data : List UInt8} {c : ℕ} {rs : List ρ} {r r' : ρ}, Accepts rs r → Accepts rs r' →
    At data c (bytes r) → At data c (bytes r') → r = r'

namespace LogFormat

variable {ρ : Type} (F : LogFormat ρ)

/-- The bytes of some records. -/
def flat (rs : List ρ) : List UInt8 := rs.flatMap F.bytes

/-- The records `rs` may follow each other, after the records `done`. -/
def Chain : List ρ → List ρ → Prop
  | _, [] => True
  | done, r :: rs => F.Accepts done r ∧ Chain (done ++ [r]) rs

/-- A byte string holds a log at a position. -/
def Holds (data : List UInt8) (c : ℕ) (rs : List ρ) : Prop :=
  F.Chain [] rs ∧ At data c (F.flat rs)

/-- A byte string holds a log, and no acceptable record behind it. -/
def Complete (data : List UInt8) (c : ℕ) (rs : List ρ) : Prop :=
  F.Holds data c rs ∧ ∀ r, F.Accepts rs r → ¬At data (c + (F.flat rs).length) (F.bytes r)

variable {F} {data : List UInt8} {c : ℕ} {rs rs' : List ρ} {r : ρ}

@[simp] theorem flat_nil : F.flat [] = [] := rfl

@[simp] theorem flat_append (rs rs' : List ρ) : F.flat (rs ++ rs') = F.flat rs ++ F.flat rs' :=
  List.flatMap_append ..

@[simp] theorem flat_singleton (r : ρ) : F.flat [r] = F.bytes r := List.flatMap_singleton ..

theorem flat_cons (r : ρ) (rs : List ρ) : F.flat (r :: rs) = F.bytes r ++ F.flat rs :=
  List.flatMap_cons ..

theorem chain_append {done : List ρ} :
    F.Chain done (rs ++ rs') ↔ F.Chain done rs ∧ F.Chain (done ++ rs) rs' := by
  induction rs generalizing done with
  | nil => simp [Chain]
  | cons r rs ih =>
      rw [List.cons_append, Chain, Chain, ih, List.append_assoc, List.singleton_append, and_assoc]

theorem chain_snoc : F.Chain [] (rs ++ [r]) ↔ F.Chain [] rs ∧ F.Accepts rs r := by
  rw [chain_append, List.nil_append, Chain, Chain, and_true]

theorem holds_nil (hc : c ≤ data.length) : F.Holds data c [] := ⟨trivial, at_nil.2 hc⟩

/-- A log grows by an acceptable record behind it. -/
theorem holds_snoc : F.Holds data c (rs ++ [r]) ↔
    F.Holds data c rs ∧ F.Accepts rs r ∧ At data (c + (F.flat rs).length) (F.bytes r) := by
  simp only [Holds, chain_snoc, flat_append, flat_singleton, at_append]
  exact ⟨fun ⟨⟨h₁, h₂⟩, h₃, h₄⟩ => ⟨⟨h₁, h₃⟩, h₂, h₄⟩, fun ⟨⟨h₁, h₃⟩, h₂, h₄⟩ => ⟨⟨h₁, h₂⟩, h₃, h₄⟩⟩

theorem Holds.of_append (h : F.Holds data c (rs ++ rs')) : F.Holds data c rs := by
  obtain ⟨hchain, hat⟩ := h
  rw [flat_append, at_append] at hat
  exact ⟨(chain_append.1 hchain).1, hat.1⟩

theorem Holds.le (h : F.Holds data c rs) : c + (F.flat rs).length ≤ data.length := h.2.le

theorem Holds.length_take (h : F.Holds data c rs) :
    (data.take (c + (F.flat rs).length)).length = c + (F.flat rs).length := by
  rw [List.length_take, Nat.min_eq_left h.le]

/-- Every record takes at least a byte. -/
theorem length_le_flat {done : List ρ} (h : F.Chain done rs) : rs.length ≤ (F.flat rs).length := by
  induction rs generalizing done with
  | nil => simp
  | cons r rs ih =>
      have hpos := List.length_pos_of_ne_nil (F.bytes_ne h.1)
      have hrest := ih h.2
      rw [List.length_cons, flat_cons, List.length_append]
      omega

/-- **A complete log extends every other log** at its position. -/
theorem Holds.isPrefix_complete (h : F.Holds data c rs) (hmax : F.Complete data c rs') :
    rs <+: rs' := by
  induction rs using List.reverseRecOn with
  | nil => exact List.nil_prefix
  | append_singleton rs r ih =>
      obtain ⟨hrs, hacc, hat⟩ := holds_snoc.1 h
      obtain ⟨rest, rfl⟩ := ih hrs
      cases rest with
      | nil =>
          rw [List.append_nil] at hmax
          exact absurd hat (hmax.2 r hacc)
      | cons r' rest =>
          have hlog := hmax.1
          rw [show rs ++ r' :: rest = (rs ++ [r']) ++ rest by simp] at hlog
          obtain ⟨-, hacc', hat'⟩ := holds_snoc.1 hlog.of_append
          obtain rfl := F.unique hacc hacc' hat hat'
          exact ⟨rest, by simp⟩

/-- There is one complete log at a position. -/
theorem complete_unique (h : F.Complete data c rs) (h' : F.Complete data c rs') : rs = rs' :=
  (h.1.isPrefix_complete h').eq_of_length_le (h'.1.isPrefix_complete h).length_le

/-- Every log can be completed. -/
theorem Holds.exists_complete (h : F.Holds data c rs) : ∃ rest, F.Complete data c (rs ++ rest) := by
  induction hm : data.length - (F.flat rs).length using Nat.strong_induction_on
    generalizing rs with
  | _ m ih =>
      by_cases hmax : ∃ r, F.Accepts rs r ∧ At data (c + (F.flat rs).length) (F.bytes r)
      · obtain ⟨r, hacc, hat⟩ := hmax
        have hsnoc := holds_snoc.2 ⟨h, hacc, hat⟩
        have hpos := List.length_pos_of_ne_nil (F.bytes_ne hacc)
        have hle := hsnoc.le
        rw [flat_append, flat_singleton, List.length_append] at hle
        obtain ⟨rest, hrest⟩ := ih _ (by
          rw [flat_append, flat_singleton, List.length_append]
          omega) hsnoc rfl
        exact ⟨r :: rest, by simpa using hrest⟩
      · refine ⟨[], by rwa [List.append_nil], ?_⟩
        rw [List.append_nil]
        intro r hacc hat
        exact hmax ⟨r, hacc, hat⟩

theorem exists_complete (hc : c ≤ data.length) : ∃ rs, F.Complete data c rs := by
  obtain ⟨rest, hrest⟩ := (holds_nil (F := F) hc).exists_complete
  exact ⟨rest, hrest⟩

/-- A log that reaches the end of its bytes is complete. -/
theorem Holds.complete (h : F.Holds data c rs) (hend : data.length ≤ c + (F.flat rs).length) :
    F.Complete data c rs := by
  refine ⟨h, ?_⟩
  intro r hacc hat
  have hpos := List.length_pos_of_ne_nil (F.bytes_ne hacc)
  have hle := hat.le
  omega

/-! ### Cutting off bytes -/

/-- The logs that are left when bytes are cut off are those that end before the cut. -/
theorem holds_take {n : ℕ} (hn : n ≤ data.length) :
    F.Holds (data.take n) c rs ↔ F.Holds data c rs ∧ c + (F.flat rs).length ≤ n := by
  constructor
  · intro h
    obtain ⟨hchain, hat⟩ := h
    have hle := hat.le
    rw [List.length_take] at hle
    exact ⟨⟨hchain, hat.of_take⟩, by omega⟩
  · intro h
    obtain ⟨⟨hchain, hat⟩, hle⟩ := h
    exact ⟨hchain, hat.take hle⟩

/-- Bytes behind a log do not matter to it. -/
theorem Holds.append_right (h : F.Holds data c rs) (tail : List UInt8) :
    F.Holds (data ++ tail) c rs := ⟨h.1, h.2.append_right tail⟩

/-- Where a cut falls among the records of a log. -/
theorem exists_cut (F : LogFormat ρ) {n : ℕ} (rs : List ρ) (hn : c ≤ n) :
    ∃ before after, rs = before ++ after ∧ c + (F.flat before).length ≤ n ∧
      ∀ r rest, after = r :: rest → n < c + (F.flat before).length + (F.bytes r).length := by
  induction rs generalizing c with
  | nil => exact ⟨[], [], rfl, hn, fun _ _ h => by cases h⟩
  | cons r rs ih =>
      by_cases hle : c + (F.bytes r).length ≤ n
      · obtain ⟨before, after, rfl, hfits, hcut⟩ := ih hle
        refine ⟨r :: before, after, rfl, ?_, ?_⟩
        · rw [flat_cons, List.length_append]
          omega
        · intro r' rest h
          have := hcut r' rest h
          rw [flat_cons, List.length_append]
          omega
      · refine ⟨[], r :: rs, rfl, hn, ?_⟩
        intro r' rest h
        cases h
        exact Nat.lt_of_not_le hle

/-- **What is left of a complete log** when bytes are cut off are its records up to the first that
does not end before the cut. -/
theorem Complete.take {n : ℕ} (h : F.Complete data c (rs ++ rs')) (hn : n ≤ data.length)
    (hfits : c + (F.flat rs).length ≤ n)
    (hcut : ∀ r rest, rs' = r :: rest → n < c + (F.flat rs).length + (F.bytes r).length) :
    F.Complete (data.take n) c rs := by
  refine ⟨(holds_take hn).2 ⟨h.1.of_append, hfits⟩, ?_⟩
  intro r hacc hat
  have hlen := hat.le
  rw [List.length_take] at hlen
  have hpre := (holds_snoc.2 ⟨h.1.of_append, hacc, hat.of_take⟩).isPrefix_complete h
  rw [List.prefix_append_right_inj] at hpre
  obtain ⟨rest, rfl⟩ := hpre
  have := hcut r rest rfl
  omega

/-! ### Logs of bounded length -/

/-- The format with at most `limit` records. -/
def capped (F : LogFormat ρ) (limit : ℕ) : LogFormat ρ where
  bytes := F.bytes
  Accepts rs r := F.Accepts rs r ∧ rs.length < limit
  bytes_ne h := F.bytes_ne h.1
  unique h h' := F.unique h.1 h'.1

@[simp] theorem capped_flat {limit : ℕ} : (F.capped limit).flat rs = F.flat rs := rfl

theorem capped_chain {limit : ℕ} {done : List ρ} (hdone : done.length ≤ limit) :
    (F.capped limit).Chain done rs ↔ F.Chain done rs ∧ done.length + rs.length ≤ limit := by
  induction rs generalizing done with
  | nil => simpa [Chain] using hdone
  | cons r rs ih =>
      rw [Chain, Chain, List.length_cons]
      constructor
      · intro h
        obtain ⟨⟨hacc, hlt⟩, hrest⟩ := h
        have hsnoc : (done ++ [r]).length = done.length + 1 := by simp
        obtain ⟨hchain, hle⟩ := (ih (by omega)).1 hrest
        exact ⟨⟨hacc, hchain⟩, by omega⟩
      · intro h
        obtain ⟨⟨hacc, hchain⟩, hle⟩ := h
        have hsnoc : (done ++ [r]).length = done.length + 1 := by simp
        exact ⟨⟨hacc, by omega⟩, (ih (by omega)).2 ⟨hchain, by omega⟩⟩

theorem capped_holds {limit : ℕ} :
    (F.capped limit).Holds data c rs ↔ F.Holds data c rs ∧ rs.length ≤ limit := by
  rw [Holds, Holds, capped_chain (Nat.zero_le _), List.length_nil, Nat.zero_add, capped_flat,
    and_right_comm]

/-- A complete log that is shorter than its bound is complete without the bound. -/
theorem Complete.of_capped {limit : ℕ} (h : (F.capped limit).Complete data c rs)
    (hlt : rs.length < limit) : F.Complete data c rs :=
  ⟨(capped_holds.1 h.1).1, fun r hacc => h.2 r ⟨hacc, hlt⟩⟩

/-- A complete log within the bound is complete under the bound. -/
theorem Complete.capped {limit : ℕ} (h : F.Complete data c rs) (hle : rs.length ≤ limit) :
    (F.capped limit).Complete data c rs :=
  ⟨capped_holds.2 ⟨h.1, hle⟩, fun r hacc => h.2 r hacc.1⟩

end LogFormat

end Wire
