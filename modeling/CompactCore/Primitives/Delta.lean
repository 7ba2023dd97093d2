/-
**Delta encoding of unsigned integers.**

The first value is stored unchanged, every later one as its difference from the value before it.
Decreasing input has no encoding, and differences that leave the 64-bit range have no decoding.

Main definitions:

* `CompactCore.Delta.encodeDeltaU64`, `CompactCore.Delta.decodeDeltaU64` — the two directions;
* `CompactCore.DeltaVarint.encodeU64`, `CompactCore.DeltaVarint.decodeU64` — the numeric pipeline
  that writes the deltas as varints.

Main results:

* `CompactCore.Delta.decodeDeltaU64_ok` — the decoder and the encoder are inverse relations;
* `CompactCore.Delta.decodeDeltaU64_error` — what has no decoding: deltas whose sum leaves the
  range;
* `CompactCore.DeltaVarint.decodeU64_ok` — the decoder and the encoder of the pipeline;
* `CompactCore.DeltaVarint.decodeU64_bijective` — **the pipeline is a bijection** between lists that
  never decrease and accepted byte strings.
-/

import CompactCore.Primitives.Varint

set_option relaxedAutoImplicit false
set_option autoImplicit false

namespace CompactCore

open Wire CompactError

namespace Delta

/-! ### The transform -/

/-- The encoder's loop, after `previous`.  Callers have their own text for decreasing input. -/
def encodeWindows (negative : String) : UInt64 → List UInt64 → Result (List UInt64)
  | _, [] => .ok []
  | previous, current :: values => do
      let delta ← okOr (invalidInput negative) (checkedSub current previous)
      let out ← encodeWindows negative current values
      return delta :: out

/-- Encode monotonically non-decreasing `u64` values. -/
def encodeDeltaU64 : List UInt64 → Result (List UInt64)
  | [] => .ok []
  | base :: values => do
      let out ← encodeWindows "u64 delta cannot be negative" base values
      return base :: out

/-- The decoder's loop, after `previous`.  Callers have their own text for overflow. -/
def decodeFrom (overflow : String) : UInt64 → List UInt64 → Result (List UInt64)
  | _, [] => .ok []
  | previous, delta :: deltas => do
      let current ← okOr (invalidInput overflow) (checkedAdd previous delta)
      let out ← decodeFrom overflow current deltas
      return current :: out

/-- Rebuild original `u64` values from `[base, delta_1, delta_2, ...]`. -/
def decodeDeltaU64 : List UInt64 → Result (List UInt64)
  | [] => .ok []
  | base :: deltas => do
      let out ← decodeFrom "u64 delta decode overflow" base deltas
      return base :: out

/-! ### Round trip -/

/-- The two loops are inverse relations. -/
theorem decodeFrom_ok {overflow negative : String} {previous : UInt64}
    {deltas values : List UInt64} : decodeFrom overflow previous deltas = .ok values ↔
      encodeWindows negative previous values = .ok deltas := by
  induction deltas generalizing previous values with
  | nil =>
      cases values with
      | nil => simp [decodeFrom, encodeWindows]
      | cons current values => simp [decodeFrom, encodeWindows]
  | cons delta deltas ih =>
      cases values with
      | nil => simp [decodeFrom, encodeWindows]
      | cons current values =>
          simp only [decodeFrom, encodeWindows, bind_ok, okOr_ok, checkedAdd_eq_some,
            checkedSub_eq_some, pure_ok, List.cons.injEq]
          constructor
          · intro h
            obtain ⟨current', hcur, out, hout, rfl, rfl⟩ := h
            exact ⟨delta, hcur, deltas, ih.1 hout, rfl, rfl⟩
          · intro h
            obtain ⟨delta', hcur, out, hout, rfl, rfl⟩ := h
            exact ⟨current, hcur, values, ih.2 hout, rfl, rfl⟩

/-- **Decoding and encoding are inverse relations.** -/
theorem decodeDeltaU64_ok {deltas values : List UInt64} :
    decodeDeltaU64 deltas = .ok values ↔ encodeDeltaU64 values = .ok deltas := by
  cases deltas with
  | nil =>
      cases values with
      | nil => simp [decodeDeltaU64, encodeDeltaU64]
      | cons base values => simp [decodeDeltaU64, encodeDeltaU64]
  | cons base deltas =>
      cases values with
      | nil => simp [decodeDeltaU64, encodeDeltaU64]
      | cons base' values =>
          simp only [decodeDeltaU64, encodeDeltaU64, bind_ok, pure_ok, List.cons.injEq]
          constructor
          · intro h
            obtain ⟨out, hout, rfl, rfl⟩ := h
            exact ⟨deltas, decodeFrom_ok.1 hout, rfl, rfl⟩
          · intro h
            obtain ⟨out, hout, rfl, rfl⟩ := h
            exact ⟨values, decodeFrom_ok.2 hout, rfl, rfl⟩

theorem length_encodeWindows {negative : String} {previous : UInt64} {values deltas : List UInt64}
    (h : encodeWindows negative previous values = .ok deltas) : deltas.length = values.length := by
  induction values generalizing previous deltas with
  | nil =>
      obtain rfl : [] = deltas := by simpa [encodeWindows] using h
      rfl
  | cons current values ih =>
      simp only [encodeWindows, bind_ok, okOr_ok, checkedSub_eq_some, pure_ok] at h
      obtain ⟨delta, -, out, hout, rfl⟩ := h
      rw [List.length_cons, List.length_cons, ih hout]

theorem length_encodeDeltaU64 {values deltas : List UInt64}
    (h : encodeDeltaU64 values = .ok deltas) : deltas.length = values.length := by
  cases values with
  | nil =>
      obtain rfl : [] = deltas := by simpa [encodeDeltaU64] using h
      rfl
  | cons base values =>
      simp only [encodeDeltaU64, bind_ok, pure_ok] at h
      obtain ⟨out, hout, rfl⟩ := h
      rw [List.length_cons, List.length_cons, length_encodeWindows hout]

/-! ### When the encoder succeeds -/

theorem exists_encodeWindows {negative : String} {previous : UInt64} {values : List UInt64} :
    (∃ deltas, encodeWindows negative previous values = .ok deltas) ↔
      (previous :: values).IsChain (· ≤ ·) := by
  induction values generalizing previous with
  | nil => simp [encodeWindows]
  | cons current values ih =>
      rw [List.isChain_cons_cons, ← ih]
      simp only [encodeWindows, bind_ok, okOr_ok, checkedSub_eq_some, pure_ok]
      constructor
      · intro h
        obtain ⟨_, delta, hdelta, out, hout, rfl⟩ := h
        exact ⟨UInt64.le_iff_toNat_le.2 (by omega), out, hout⟩
      · intro h
        obtain ⟨hle, out, hout⟩ := h
        have hle := UInt64.le_iff_toNat_le.1 hle
        have hlt := current.toNat_lt
        refine ⟨_, UInt64.ofNat (current.toNat - previous.toNat), ?_, out, hout, rfl⟩
        rw [UInt64.toNat_ofNat', Nat.mod_eq_of_lt (by omega)]
        omega

/-- **The encoder succeeds exactly on values that never decrease.** -/
theorem exists_encodeDeltaU64 {values : List UInt64} :
    (∃ deltas, encodeDeltaU64 values = .ok deltas) ↔ values.IsChain (· ≤ ·) := by
  cases values with
  | nil => simp [encodeDeltaU64]
  | cons base values =>
      rw [← @exists_encodeWindows "u64 delta cannot be negative"]
      simp only [encodeDeltaU64, bind_ok, pure_ok]
      constructor
      · intro h
        obtain ⟨_, out, hout, rfl⟩ := h
        exact ⟨out, hout⟩
      · intro h
        obtain ⟨out, hout⟩ := h
        exact ⟨_, out, hout, rfl⟩

/-! ### When the decoder succeeds -/

theorem decodeFrom_error {overflow : String} {previous : UInt64} {deltas : List UInt64}
    {e : CompactError} : decodeFrom overflow previous deltas = .error e ↔
      2 ^ 64 ≤ previous.toNat + (deltas.map UInt64.toNat).sum ∧ e = invalidInput overflow := by
  induction deltas generalizing previous with
  | nil =>
      have hlt := previous.toNat_lt
      simp only [decodeFrom, List.map_nil, List.sum_nil, reduceCtorEq, false_iff, not_and]
      omega
  | cons delta deltas ih =>
      rw [decodeFrom, List.map_cons, List.sum_cons, ← Nat.add_assoc]
      cases hadd : checkedAdd previous delta with
      | some current =>
          rw [← checkedAdd_eq_some.1 hadd, ← ih]
          simp only [okOr, bind, Except.bind]
          cases decodeFrom overflow current deltas with
          | error e' => rfl
          | ok out => simp only [pure, Except.pure, reduceCtorEq]
      | none =>
          have hword : ¬previous.toNat + delta.toNat < 2 ^ 64 := by
            intro hlt
            rw [checkedAdd, if_pos hlt] at hadd
            cases hadd
          rw [and_iff_right (by omega)]
          exact ⟨fun h => (Except.error.inj h).symm, fun h => congrArg Except.error h.symm⟩

/-- **The decoder fails exactly on deltas whose sum leaves the range.** -/
theorem decodeDeltaU64_error {deltas : List UInt64} {e : CompactError} :
    decodeDeltaU64 deltas = .error e ↔
      2 ^ 64 ≤ (deltas.map UInt64.toNat).sum ∧ e = invalidInput "u64 delta decode overflow" := by
  cases deltas with
  | nil => simp [decodeDeltaU64]
  | cons base deltas =>
      rw [List.map_cons, List.sum_cons, ← decodeFrom_error, decodeDeltaU64]
      cases decodeFrom "u64 delta decode overflow" base deltas with
      | error e' => rfl
      | ok out => simp [bind, Except.bind, pure, Except.pure]

end Delta

namespace DeltaVarint

/-! ### The numeric pipeline -/

/-- Encode monotonically non-decreasing `u64` values with delta + varint. -/
def encodeU64 (values : List UInt64) : Result (List UInt8) := do
  let deltas ← Delta.encodeDeltaU64 values
  return Varint.encodeU64 deltas

/-- Decode bytes produced by `encodeU64` back into the original `u64` values. -/
def decodeU64 (data : List UInt8) : Result (List UInt64) := do
  let deltas ← Varint.decodeU64 data
  Delta.decodeDeltaU64 deltas

/-- **The pipeline's decoder and encoder are inverse relations.** -/
theorem decodeU64_ok {data : List UInt8} {values : List UInt64} :
    decodeU64 data = .ok values ↔ encodeU64 values = .ok data := by
  simp only [decodeU64, encodeU64, bind_ok, Varint.decodeU64_ok, Delta.decodeDeltaU64_ok, pure_ok]
  constructor
  · intro h
    obtain ⟨deltas, rfl, henc⟩ := h
    exact ⟨deltas, henc, rfl⟩
  · intro h
    obtain ⟨deltas, henc, rfl⟩ := h
    exact ⟨deltas, rfl, henc⟩

theorem exists_encodeU64 {values : List UInt64} :
    (∃ data, encodeU64 values = .ok data) ↔ values.IsChain (· ≤ ·) := by
  rw [← Delta.exists_encodeDeltaU64]
  simp only [encodeU64, bind_ok, pure_ok]
  constructor
  · intro h
    obtain ⟨_, deltas, hdeltas, rfl⟩ := h
    exact ⟨deltas, hdeltas⟩
  · intro h
    obtain ⟨deltas, hdeltas⟩ := h
    exact ⟨_, deltas, hdeltas, rfl⟩

/-- **The pipeline is a bijection** between the lists that never decrease and the byte strings that
are accepted; what is not accepted has deltas whose sum leaves the range, or is not the canonical
encoding of any deltas. -/
theorem decodeU64_bijective :
    (∀ values, (∃ data, encodeU64 values = .ok data) ↔ values.IsChain (· ≤ ·)) ∧
      (∀ data values, decodeU64 data = .ok values ↔
        values.IsChain (· ≤ ·) ∧ encodeU64 values = .ok data) ∧
      (∀ deltas, 2 ^ 64 ≤ (deltas.map UInt64.toNat).sum →
        decodeU64 (Varint.encodeU64 deltas) = .error (invalidInput "u64 delta decode overflow")) ∧
      ∀ data, (∀ deltas, Varint.encodeU64 deltas ≠ data) → ∃ e, decodeU64 data = .error e := by
  refine ⟨fun values => exists_encodeU64, fun data values => ?_, fun deltas hsum => ?_,
    fun data hdata => ?_⟩
  · rw [decodeU64_ok]
    exact ⟨fun h => ⟨exists_encodeU64.1 ⟨data, h⟩, h⟩, fun h => h.2⟩
  · have hdec :=
      Varint.decodeU64_ok.2 (show Varint.encodeU64 deltas = Varint.encodeU64 deltas from rfl)
    rw [decodeU64, hdec]
    exact Delta.decodeDeltaU64_error.2 ⟨hsum, rfl⟩
  · rw [exists_error_iff]
    intro values hvalues
    simp only [decodeU64, bind_ok] at hvalues
    obtain ⟨deltas, hdeltas, -⟩ := hvalues
    exact hdata deltas (Varint.decodeU64_ok.1 hdeltas).symm

/-- The largest value, and a value above it. -/
theorem decodeU64_bijective_overflow : decodeU64 (Varint.encodeU64 [0xffffffffffffffff, 1]) =
    .error (invalidInput "u64 delta decode overflow") :=
  decodeU64_bijective.2.2.1 _ (by decide)

/-- A value takes at most ten bytes. -/
theorem length_encodeU64_le {values : List UInt64} {data : List UInt8}
    (h : encodeU64 values = .ok data) : data.length ≤ 10 * values.length := by
  simp only [encodeU64, bind_ok, pure_ok] at h
  obtain ⟨deltas, hdeltas, rfl⟩ := h
  rw [← Delta.length_encodeDeltaU64 hdeltas]
  exact Varint.length_encodeU64_le deltas

/-- A value takes at least a byte. -/
theorem length_encodeU64_ge {values : List UInt64} {data : List UInt8}
    (h : encodeU64 values = .ok data) : values.length ≤ data.length := by
  simp only [encodeU64, bind_ok, pure_ok] at h
  obtain ⟨deltas, hdeltas, rfl⟩ := h
  rw [← Delta.length_encodeDeltaU64 hdeltas]
  exact Varint.length_encodeU64_ge deltas

end DeltaVarint

end CompactCore
