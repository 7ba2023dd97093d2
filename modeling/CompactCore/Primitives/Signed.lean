/-
**Signed numbers.**

Varints are short for small numbers that are not negative.  A signed number is first interleaved:
zero, minus one, one, minus two, and so on.  A series of signed numbers is kept by its differences,
which must be signed numbers themselves.  Bytes have differences too, but these wrap around.

Main definitions:

* `CompactCore.ZigZag.encodeI64`, `CompactCore.ZigZag.decodeU64` — interleaving;
* `CompactCore.Delta.encodeDeltaI64`, `CompactCore.Delta.decodeDeltaI64` — differences of signed
  numbers;
* `CompactCore.Delta.encodeDelta`, `CompactCore.Delta.decodeDelta` — differences of bytes.

Main results:

* `CompactCore.ZigZag.toNat_encodeI64`, `CompactCore.ZigZag.toInt_decodeU64` — what the bit
  operations compute;
* `CompactCore.Delta.decodeDeltaI64_ok` — **differences are exact** wherever they exist;
* `CompactCore.Delta.signed_exact` — **a signed series is stored without loss**, and small steps
  take few bytes.
-/

import CompactCore.Primitives.Delta

set_option relaxedAutoImplicit false
set_option autoImplicit false

namespace CompactCore

open Wire CompactError

/-! ### Interleaving -/

namespace ZigZag

/-- Convert a signed integer into an unsigned integer that keeps small negative numbers small. -/
def encodeI64 (value : Int64) : UInt64 := (value.toUInt64 <<< 1) ^^^ (value >>> 63).toUInt64

/-- Convert a ZigZag-encoded unsigned integer back to the original signed value. -/
def decodeU64 (value : UInt64) : Int64 := (value >>> 1).toInt64 ^^^ -((value &&& 1).toInt64)

def encodeI64Slice (values : List Int64) : List UInt64 := values.map encodeI64

def decodeU64Slice (values : List UInt64) : List Int64 := values.map decodeU64

theorem toBitVec_encodeI64 (value : Int64) : (encodeI64 value).toBitVec =
    (value.toBitVec <<< 1) ^^^ value.toBitVec.sshiftRight 63 := by
  simp [encodeI64, Int64.toBitVec_shiftRight]

theorem toBitVec_decodeU64 (value : UInt64) : (decodeU64 value).toBitVec =
    (value.toBitVec >>> 1) ^^^ -(value.toBitVec &&& 1#64) := by
  simp [decodeU64]

/-- The sign, in every bit. -/
theorem sshiftRight_sign (b : BitVec 64) :
    b.sshiftRight 63 = if b.toInt < 0 then BitVec.allOnes 64 else 0#64 := by
  have hlow := BitVec.le_toInt b
  have hhigh := BitVec.toInt_lt (x := b)
  refine BitVec.eq_of_toInt_eq ?_
  rw [BitVec.toInt_sshiftRight, Int.shiftRight_eq_div_pow]
  split
  next hneg =>
    have hones : (BitVec.allOnes 64).toInt = -1 := by decide
    rw [hones]
    omega
  next hpos =>
    have hzero : (0#64).toInt = 0 := by decide
    rw [hzero]
    omega

/-- Numbers are interleaved with their signs. -/
theorem toNat_encodeI64 (value : Int64) : ((encodeI64 value).toNat : ℤ) =
    if value.toInt < 0 then -2 * value.toInt - 1 else 2 * value.toInt := by
  have hlow := Int64.le_toInt value
  have hhigh := Int64.toInt_lt value
  have hint : value.toBitVec.toInt = value.toInt := rfl
  have hnat := BitVec.toInt_eq_toNat_cond value.toBitVec
  rw [hint] at hnat
  show ((encodeI64 value).toBitVec.toNat : ℤ) = _
  rw [toBitVec_encodeI64, sshiftRight_sign, hint]
  split
  next hneg =>
    rw [BitVec.xor_allOnes, BitVec.toNat_not, BitVec.toNat_shiftLeft, Nat.shiftLeft_eq]
    split at hnat <;> omega
  next hpos =>
    rw [BitVec.xor_zero, BitVec.toNat_shiftLeft, Nat.shiftLeft_eq]
    split at hnat <;> omega

/-- The low bit, in every bit. -/
theorem neg_and_one (b : BitVec 64) :
    -(b &&& 1#64) = if b.toNat % 2 = 0 then 0#64 else BitVec.allOnes 64 := by
  have hand : (b &&& 1#64).toNat = b.toNat % 2 := by
    rw [BitVec.toNat_and]
    exact Nat.and_one_is_mod b.toNat
  split
  next heven =>
    have hzero : b &&& 1#64 = 0#64 := BitVec.eq_of_toNat_eq (hand.trans heven)
    rw [hzero]
    rfl
  next hodd =>
    have hone : b &&& 1#64 = 1#64 := BitVec.eq_of_toNat_eq (hand.trans (Nat.mod_two_ne_zero.1 hodd))
    rw [hone]
    rfl

/-- The low bit of an interleaved number is its sign. -/
theorem toInt_decodeU64 (value : UInt64) : (decodeU64 value).toInt =
    if value.toNat % 2 = 0 then (value.toNat / 2 : ℤ) else -(value.toNat / 2 : ℤ) - 1 := by
  have hlt := value.toNat_lt
  have hnat : value.toBitVec.toNat = value.toNat := rfl
  show (decodeU64 value).toBitVec.toInt = _
  rw [toBitVec_decodeU64, neg_and_one, hnat, BitVec.toInt_eq_toNat_cond]
  split
  next heven =>
    rw [BitVec.xor_zero, BitVec.toNat_ushiftRight, hnat, Nat.shiftRight_eq_div_pow]
    split <;> omega
  next hodd =>
    rw [BitVec.xor_allOnes, BitVec.toNat_not, BitVec.toNat_ushiftRight, hnat,
      Nat.shiftRight_eq_div_pow]
    split <;> omega

/-- Interleaving loses nothing. -/
theorem decodeU64_encodeI64 (value : Int64) : decodeU64 (encodeI64 value) = value := by
  have hencode := toNat_encodeI64 value
  rw [← Int64.toInt_inj, toInt_decodeU64]
  split at hencode <;> split <;> omega

/-- Every number is the interleaving of one. -/
theorem encodeI64_decodeU64 (value : UInt64) : encodeI64 (decodeU64 value) = value := by
  have hdecode := toInt_decodeU64 value
  have hencode := toNat_encodeI64 (decodeU64 value)
  rw [← UInt64.toNat_inj]
  split at hdecode <;> split at hencode <;> omega

theorem decodeU64Slice_ok {values : List Int64} {numbers : List UInt64} :
    decodeU64Slice numbers = values ↔ encodeI64Slice values = numbers := by
  constructor
  · rintro rfl
    rw [encodeI64Slice, decodeU64Slice, List.map_map]
    exact List.map_id'' encodeI64_decodeU64 numbers
  · rintro rfl
    rw [encodeI64Slice, decodeU64Slice, List.map_map]
    exact List.map_id'' decodeU64_encodeI64 values

end ZigZag

namespace Delta

/-! ### Differences of signed numbers -/

/-- `i64::checked_sub`. -/
def checkedSubI64 (a b : Int64) : Option Int64 :=
  if -2 ^ 63 ≤ a.toInt - b.toInt ∧ a.toInt - b.toInt < 2 ^ 63 then some (a - b) else none

/-- `i64::checked_add`. -/
def checkedAddI64 (a b : Int64) : Option Int64 :=
  if -2 ^ 63 ≤ a.toInt + b.toInt ∧ a.toInt + b.toInt < 2 ^ 63 then some (a + b) else none

theorem checkedSubI64_eq_some {a b d : Int64} :
    checkedSubI64 a b = some d ↔ a.toInt - b.toInt = d.toInt := by
  have hlow := Int64.le_toInt d
  have hhigh := Int64.toInt_lt d
  rw [checkedSubI64]
  split
  next hin =>
    rw [Option.some.injEq, ← Int64.toInt_inj, Int64.toInt_sub,
      Int.bmod_eq_of_le (by omega) (by omega)]
  next hout =>
    refine ⟨nofun, ?_⟩
    intro heq
    exact absurd (by omega) hout

theorem checkedAddI64_eq_some {a b c : Int64} :
    checkedAddI64 a b = some c ↔ a.toInt + b.toInt = c.toInt := by
  have hlow := Int64.le_toInt c
  have hhigh := Int64.toInt_lt c
  rw [checkedAddI64]
  split
  next hin =>
    rw [Option.some.injEq, ← Int64.toInt_inj, Int64.toInt_add,
      Int.bmod_eq_of_le (by omega) (by omega)]
  next hout =>
    refine ⟨nofun, ?_⟩
    intro heq
    exact absurd (by omega) hout

/-- The encoder's loop, after `previous`. -/
def encodeWindowsI64 : Int64 → List Int64 → Result (List Int64)
  | _, [] => .ok []
  | previous, current :: values => do
      let delta ← okOr (invalidInput "i64 delta encode overflow") (checkedSubI64 current previous)
      let out ← encodeWindowsI64 current values
      return delta :: out

/-- Encode signed `i64` values by their adjacent differences. -/
def encodeDeltaI64 : List Int64 → Result (List Int64)
  | [] => .ok []
  | base :: values => do
      let out ← encodeWindowsI64 base values
      return base :: out

/-- The decoder's loop, after `previous`. -/
def decodeFromI64 : Int64 → List Int64 → Result (List Int64)
  | _, [] => .ok []
  | previous, delta :: deltas => do
      let current ← okOr (invalidInput "i64 delta decode overflow") (checkedAddI64 previous delta)
      let out ← decodeFromI64 current deltas
      return current :: out

/-- Rebuild original `i64` values from `[base, delta_1, delta_2, ...]`. -/
def decodeDeltaI64 : List Int64 → Result (List Int64)
  | [] => .ok []
  | base :: deltas => do
      let out ← decodeFromI64 base deltas
      return base :: out

theorem decodeFromI64_ok {previous : Int64} {deltas values : List Int64} :
    decodeFromI64 previous deltas = .ok values ↔ encodeWindowsI64 previous values = .ok deltas := by
  induction deltas generalizing previous values with
  | nil =>
      cases values with
      | nil => exact ⟨fun _ => rfl, fun _ => rfl⟩
      | cons current values => simp [decodeFromI64, encodeWindowsI64]
  | cons delta deltas ih =>
      cases values with
      | nil => simp [decodeFromI64, encodeWindowsI64]
      | cons current values =>
          simp only [decodeFromI64, encodeWindowsI64, bind_ok, okOr_ok, pure_ok, List.cons.injEq,
            checkedSubI64_eq_some, checkedAddI64_eq_some]
          constructor
          · rintro ⟨next, hnext, rest, hrest, rfl, rfl⟩
            exact ⟨delta, by omega, deltas, ih.1 hrest, rfl, rfl⟩
          · rintro ⟨first, hfirst, rest, hrest, rfl, rfl⟩
            exact ⟨current, by omega, values, ih.2 hrest, rfl, rfl⟩

/-- **Differences are exact**: the decoder and the encoder are inverse relations. -/
theorem decodeDeltaI64_ok {deltas values : List Int64} :
    decodeDeltaI64 deltas = .ok values ↔ encodeDeltaI64 values = .ok deltas := by
  cases deltas with
  | nil =>
      cases values with
      | nil => exact ⟨fun _ => rfl, fun _ => rfl⟩
      | cons base values => simp [decodeDeltaI64, encodeDeltaI64]
  | cons base deltas =>
      cases values with
      | nil => simp [decodeDeltaI64, encodeDeltaI64]
      | cons first values =>
          simp only [decodeDeltaI64, encodeDeltaI64, bind_ok, pure_ok, List.cons.injEq]
          constructor
          · rintro ⟨rest, hrest, rfl, rfl⟩
            exact ⟨deltas, decodeFromI64_ok.1 hrest, rfl, rfl⟩
          · rintro ⟨rest, hrest, rfl, rfl⟩
            exact ⟨values, decodeFromI64_ok.2 hrest, rfl, rfl⟩

/-- A step from one value to the next that is a signed number itself. -/
def IsStep (previous current : Int64) : Prop :=
  -2 ^ 63 ≤ current.toInt - previous.toInt ∧ current.toInt - previous.toInt < 2 ^ 63

theorem exists_encodeWindowsI64 {previous : Int64} {values : List Int64} :
    (∃ deltas, encodeWindowsI64 previous values = .ok deltas) ↔
      (previous :: values).IsChain IsStep := by
  induction values generalizing previous with
  | nil => exact ⟨fun _ => .singleton _, fun _ => ⟨[], rfl⟩⟩
  | cons current values ih =>
      rw [List.isChain_cons_cons, ← ih]
      simp only [encodeWindowsI64, bind_ok, okOr_ok, pure_ok]
      constructor
      · rintro ⟨_, delta, hdelta, out, hout, -⟩
        have hlow := Int64.le_toInt delta
        have hhigh := Int64.toInt_lt delta
        rw [checkedSubI64_eq_some] at hdelta
        exact ⟨⟨by omega, by omega⟩, out, hout⟩
      · rintro ⟨hstep, out, hout⟩
        exact ⟨_, current - previous, if_pos hstep, out, hout, rfl⟩

theorem exists_encodeDeltaI64 {values : List Int64} :
    (∃ deltas, encodeDeltaI64 values = .ok deltas) ↔ values.IsChain IsStep := by
  cases values with
  | nil => exact ⟨fun _ => .nil, fun _ => ⟨[], rfl⟩⟩
  | cons base values =>
      rw [← exists_encodeWindowsI64]
      simp only [encodeDeltaI64, bind_ok, pure_ok]
      constructor
      · rintro ⟨_, deltas, hdeltas, -⟩
        exact ⟨deltas, hdeltas⟩
      · rintro ⟨deltas, hdeltas⟩
        exact ⟨_, deltas, hdeltas, rfl⟩

/-! ### Differences of bytes -/

/-- The encoder's loop, after `previous`: `wrapping_sub`. -/
def encodeBytesFrom : UInt8 → List UInt8 → List UInt8
  | _, [] => []
  | previous, current :: data => (current - previous) :: encodeBytesFrom current data

/-- Byte-level delta transform. -/
def encodeDelta : List UInt8 → List UInt8
  | [] => []
  | first :: data => first :: encodeBytesFrom first data

/-- The decoder's loop, after `previous`: `wrapping_add`. -/
def decodeBytesFrom : UInt8 → List UInt8 → List UInt8
  | _, [] => []
  | previous, delta :: data => (previous + delta) :: decodeBytesFrom (previous + delta) data

/-- Reverse `encode_delta` for byte slices. -/
def decodeDelta : List UInt8 → List UInt8
  | [] => []
  | first :: data => first :: decodeBytesFrom first data

theorem decodeBytesFrom_encode (previous : UInt8) (data : List UInt8) :
    decodeBytesFrom previous (encodeBytesFrom previous data) = data := by
  induction data generalizing previous with
  | nil => rfl
  | cons current data ih =>
      have hsum : previous + (current - previous) = current := by
        rw [UInt8.add_comm, UInt8.sub_add_cancel]
      rw [encodeBytesFrom, decodeBytesFrom, hsum, ih]

theorem encodeBytesFrom_decode (previous : UInt8) (data : List UInt8) :
    encodeBytesFrom previous (decodeBytesFrom previous data) = data := by
  induction data generalizing previous with
  | nil => rfl
  | cons delta data ih =>
      have hdifference : previous + delta - previous = delta := by
        rw [UInt8.add_comm, UInt8.add_sub_cancel]
      rw [decodeBytesFrom, encodeBytesFrom, hdifference, ih]

theorem decodeDelta_iff {data deltas : List UInt8} :
    decodeDelta deltas = data ↔ encodeDelta data = deltas := by
  constructor
  · rintro rfl
    cases deltas with
    | nil => rfl
    | cons first deltas => rw [decodeDelta, encodeDelta, encodeBytesFrom_decode]
  · rintro rfl
    cases data with
    | nil => rfl
    | cons first data => rw [encodeDelta, decodeDelta, decodeBytesFrom_encode]

/-! ### Series as bytes -/

/-- A small step, up or down, takes few bytes. -/
theorem length_encodeOne_step {delta : Int64} {k : ℕ} (hlow : -2 ^ (7 * k + 6) ≤ delta.toInt)
    (hhigh : delta.toInt < 2 ^ (7 * k + 6)) :
    (Varint.encodeOne (ZigZag.encodeI64 delta)).length ≤ k + 1 := by
  have hencode := ZigZag.toNat_encodeI64 delta
  have hpow : (128 : ℕ) ^ (k + 1) = 2 * 2 ^ (7 * k + 6) := by
    have hbase : (128 : ℕ) = 2 ^ 7 := rfl
    have hexponent : 7 * (k + 1) = 7 * k + 6 + 1 := by omega
    rw [hbase, ← pow_mul, hexponent, pow_succ']
  have hcast : ((2 ^ (7 * k + 6) : ℕ) : ℤ) = 2 ^ (7 * k + 6) := by push_cast; rfl
  rw [Varint.encodeOne_eq_groups]
  refine Varint.length_groups_le _ k ?_
  rw [hpow]
  split at hencode <;> omega

/-- **A signed series is stored without loss**, as the varints of its interleaved differences.
Whatever the bytes, they are read as a series precisely when they are what is written for it; a
series can be written precisely when all its steps are signed numbers; and a small step, up or down,
takes few bytes.  The differences of bytes are exact as well. -/
theorem signed_exact :
    (∀ data values, (do
        let numbers ← Varint.decodeU64 data
        decodeDeltaI64 (ZigZag.decodeU64Slice numbers)) = .ok values ↔
      ∃ deltas, encodeDeltaI64 values = .ok deltas ∧
        data = Varint.encodeU64 (ZigZag.encodeI64Slice deltas)) ∧
    (∀ values, (∃ deltas, encodeDeltaI64 values = .ok deltas) ↔ values.IsChain IsStep) ∧
    (∀ (delta : Int64) (k : ℕ), -2 ^ (7 * k + 6) ≤ delta.toInt → delta.toInt < 2 ^ (7 * k + 6) →
      (Varint.encodeOne (ZigZag.encodeI64 delta)).length ≤ k + 1) ∧
    ∀ data deltas, decodeDelta deltas = data ↔ encodeDelta data = deltas := by
  refine ⟨?_, fun values => exists_encodeDeltaI64, fun delta k => length_encodeOne_step,
    fun data deltas => decodeDelta_iff⟩
  intro data values
  simp only [bind_ok, Varint.decodeU64_ok, decodeDeltaI64_ok]
  constructor
  · rintro ⟨numbers, rfl, hencode⟩
    exact ⟨_, hencode, by rw [ZigZag.decodeU64Slice_ok.1 rfl]⟩
  · rintro ⟨deltas, hencode, rfl⟩
    exact ⟨_, rfl, by rw [ZigZag.decodeU64Slice_ok.2 rfl]; exact hencode⟩

end Delta

end CompactCore
