/-
**Fixed-width bit packing.**

The encoder writes every value in the same number of bits, least significant bit first, into a
byte that it flushes when it is full.  The decoder reads the bits back one by one and insists on
the exact length and on zero padding.

Main definitions:

* `CompactCore.Bitpack.Sink` — the encoder's output with its unfinished byte;
* `CompactCore.Bitpack.encodeU64`, `CompactCore.Bitpack.decodeU64` — the two directions.

Main results:

* `CompactCore.Bitpack.encodeU64_ok` — the encoder's loop packs the bits of the values;
* `CompactCore.Bitpack.decodeU64_ok` — **decoding is exact**;
* `CompactCore.Bitpack.encodeU64_exact` — what packs, in how many bytes, and that packing bits one
  by one makes a bitmap.
-/

import CompactCore.Primitives.Bitmap

set_option relaxedAutoImplicit false
set_option autoImplicit false

namespace CompactCore.Bitpack

open Wire CompactError

/-! ### The encoder -/

def validateBitWidth (bitWidth : UInt8) : Result Unit :=
  failIf (64 < bitWidth) (invalidInput "bit width must be <= 64")

def maxValueForWidth (bitWidth : UInt8) : UInt64 :=
  if bitWidth = 64 then 0xffffffffffffffff
  else if bitWidth = 0 then 0
  else (1 <<< bitWidth.toUInt64) - 1

/-- The output of the encoder: the finished bytes and the byte in progress. -/
structure Sink where
  out : List UInt8
  currentByte : UInt8
  bitsInCurrentByte : ℕ

def Sink.empty : Sink := ⟨[], 0, 0⟩

/-- Write one bit; a full byte is pushed. -/
def Sink.push (s : Sink) (bit : UInt8) : Sink :=
  let currentByte := s.currentByte ||| bit <<< UInt8.ofNat s.bitsInCurrentByte
  if s.bitsInCurrentByte + 1 = 8 then ⟨s.out ++ [currentByte], 0, 0⟩
  else ⟨s.out, currentByte, s.bitsInCurrentByte + 1⟩

/-- The bits of one value, least significant first. -/
def Sink.pushValue (bitWidth : UInt8) (s : Sink) (value : UInt64) : Sink :=
  (List.range bitWidth.toNat).foldl
    (fun s bitIndex => s.push ((value >>> UInt64.ofNat bitIndex) &&& 1).toUInt8) s

/-- Push the byte in progress, if it holds a bit. -/
def Sink.finish (s : Sink) : List UInt8 :=
  if 0 < s.bitsInCurrentByte then s.out ++ [s.currentByte] else s.out

/-- Pack `u64` values using a fixed number of bits per value. -/
def encodeU64 (values : List UInt64) (bitWidth : UInt8) : Result (List UInt8) := do
  validateBitWidth bitWidth
  if values = [] ∨ bitWidth = 0 then
    failIf (values.any (· != 0)) (invalidInput "non-zero value cannot fit in zero bits")
    return []
  else
    let maxValue := maxValueForWidth bitWidth
    failIf (values.any (maxValue < ·)) (invalidInput "value exceeds bit width")
    let _ ← okOr (invalidInput "bit-packed output length overflow")
      (usizeMul values.length bitWidth.toNat)
    return (values.foldl (Sink.pushValue bitWidth) Sink.empty).finish

/-! ### The decoder -/

def rejectNonZeroPadding (data : List UInt8) (usedBits : ℕ) : Result Unit :=
  let paddingBits := data.length * 8 - usedBits
  if paddingBits = 0 then .ok ()
  else
    let usedBitsInLastByte := usedBits % 8
    failIf (usedBitsInLastByte ≠ 0 ∧ Bitmap.hasPadding data usedBitsInLastByte = true)
      (invalidInput "bit-packed padding bits must be zero")

/-- Or bit `bitOffset` of the input into bit `bitIndex` of `value`. -/
def readBit (data : List UInt8) (bitOffset bitIndex : ℕ) (value : UInt64) : UInt64 :=
  let sourceByte := data.getD (bitOffset / 8) 0
  let sourceBit := (sourceByte >>> UInt8.ofNat (bitOffset % 8)) &&& 1
  value ||| sourceBit.toUInt64 <<< UInt64.ofNat bitIndex

/-- The value in the `bitWidth` bits from `bitOffset` on. -/
def readValue (data : List UInt8) (bitWidth : UInt8) (bitOffset : ℕ) : UInt64 :=
  (List.range bitWidth.toNat).foldl
    (fun value bitIndex => readBit data (bitOffset + bitIndex) bitIndex value) 0

/-- The values from `bitOffset` on. -/
def readValues (data : List UInt8) (bitWidth : UInt8) : ℕ → ℕ → List UInt64
  | 0, _ => []
  | valueCount + 1, bitOffset =>
      readValue data bitWidth bitOffset ::
        readValues data bitWidth valueCount (bitOffset + bitWidth.toNat)

/-- Unpack fixed-width `u64` values from bytes produced by `encodeU64`. -/
def decodeU64 (data : List UInt8) (bitWidth : UInt8) (valueCount : ℕ) : Result (List UInt64) := do
  validateBitWidth bitWidth
  failIf (maxDecodedValues < valueCount)
    (invalidInput "bit-packed value count exceeds configured limit")
  let totalBits ← okOr (invalidInput "bit-packed input length overflow")
    (usizeMul valueCount bitWidth.toNat)
  let expectedLen := (totalBits + 7) / 8
  failIf (data.length ≠ expectedLen)
    (invalidInput "bit-packed input length does not match value count")
  if bitWidth = 0 then
    return List.replicate valueCount 0
  else
    rejectNonZeroPadding data totalBits
    return readValues data bitWidth valueCount 0

/-! ### The bits of a value -/

/-- The `w` low bits of a value, least significant first. -/
def bitsOf (w : ℕ) (value : UInt64) : List Bool := (List.range w).map value.toNat.testBit

@[simp] theorem length_bitsOf (w : ℕ) (value : UInt64) : (bitsOf w value).length = w := by
  simp [bitsOf]

theorem ofBits_bitsOf {w : ℕ} {value : UInt64} (h : value.toNat < 2 ^ w) :
    ofBits (bitsOf w value) = value.toNat := by
  refine Nat.eq_of_testBit_eq fun i => ?_
  rw [testBit_ofBits]
  rcases Nat.lt_or_ge i w with hlt | hge
  · rw [List.getD_eq_getElem?_getD, bitsOf, List.getElem?_map, List.getElem?_range hlt]
    rfl
  · have hbig : value.toNat < 2 ^ i := lt_of_lt_of_le h (Nat.pow_le_pow_right (by omega) hge)
    rw [List.getD_eq_default _ _ (by simpa using hge), Nat.testBit_lt_two_pow hbig]

/-- The bits of a list of values. -/
def allBits (w : ℕ) (values : List UInt64) : List Bool := values.flatMap (bitsOf w)

@[simp] theorem allBits_nil (w : ℕ) : allBits w [] = [] := rfl

@[simp] theorem allBits_cons (w : ℕ) (value : UInt64) (values : List UInt64) :
    allBits w (value :: values) = bitsOf w value ++ allBits w values := rfl

theorem length_allBits (w : ℕ) (values : List UInt64) :
    (allBits w values).length = values.length * w := by
  induction values with
  | nil => simp
  | cons value values ih =>
      rw [allBits_cons, List.length_append, ih, length_bitsOf, List.length_cons]
      ring

/-! ### The encoder packs -/

/-- `Holds s bits`: the sink has been written `bits`. -/
structure Holds (s : Sink) (bits : List Bool) : Prop where
  length_eq : bits.length = 8 * s.out.length + s.bitsInCurrentByte
  partial_lt : s.bitsInCurrentByte < 8
  value_eq : leNat s.out + 256 ^ s.out.length * s.currentByte.toNat = ofBits bits

theorem Holds.empty : Holds Sink.empty [] := ⟨rfl, by decide, rfl⟩

/-- The byte in progress has only the bits that were written. -/
theorem Holds.currentByte_lt {s : Sink} {bits : List Bool} (h : Holds s bits) :
    s.currentByte.toNat < 2 ^ s.bitsInCurrentByte := by
  have hlt := ofBits_lt bits
  rw [← h.value_eq, h.length_eq, pow_add, pow_mul] at hlt
  have hmul : 256 ^ s.out.length * s.currentByte.toNat <
      256 ^ s.out.length * 2 ^ s.bitsInCurrentByte := lt_of_le_of_lt (Nat.le_add_left _ _) hlt
  exact Nat.lt_of_mul_lt_mul_left hmul

theorem bit_toNat_le (bit : Bool) : bit.toUInt8.toNat = bit.toNat := by cases bit <;> rfl

/-- Or-ing a bit above the bits of a byte adds it. -/
theorem toNat_or_bit {byte : UInt8} {k : ℕ} (hk : k < 8) (hbyte : byte.toNat < 2 ^ k)
    (bit : Bool) :
    (byte ||| bit.toUInt8 <<< UInt8.ofNat k).toNat = byte.toNat + 2 ^ k * bit.toNat := by
  have hall : ∀ k < 8, ∀ b : Bool,
      (b.toUInt8 <<< UInt8.ofNat k).toNat = 2 ^ k * b.toNat := by decide +kernel
  rw [UInt8.toNat_or, hall k hk bit, Nat.or_comm, Nat.mul_comm,
    Nat.mul_comm, ← Nat.two_pow_add_eq_or_of_lt hbyte, Nat.add_comm]

/-- **A push writes one bit.** -/
theorem Holds.push {s : Sink} {bits : List Bool} (h : Holds s bits) (bit : Bool) :
    Holds (s.push bit.toUInt8) (bits ++ [bit]) := by
  have hlt := h.partial_lt
  have hcur := toNat_or_bit hlt h.currentByte_lt bit
  have hvalue : leNat s.out +
      256 ^ s.out.length * (s.currentByte ||| bit.toUInt8 <<< UInt8.ofNat s.bitsInCurrentByte).toNat
        = ofBits (bits ++ [bit]) := by
    rw [hcur, ofBits_append, ← h.value_eq, h.length_eq, ofBits_cons, ofBits_nil, pow_add, pow_mul]
    ring
  unfold Sink.push
  split
  · rename_i hfull
    refine ⟨?_, show 0 < 8 by omega, ?_⟩
    · rw [List.length_append, h.length_eq, List.length_append]
      show 8 * s.out.length + s.bitsInCurrentByte + 1 = 8 * (s.out.length + 1) + 0
      omega
    · rw [← hvalue]
      show leNat (s.out ++ [_]) + _ * 0 = _
      rw [leNat_append, leNat_cons, leNat_nil]
      ring
  · rename_i hfull
    refine ⟨?_, ?_, hvalue⟩
    · rw [List.length_append, h.length_eq]
      rfl
    · show s.bitsInCurrentByte + 1 < 8
      omega

/-- The low bit of a shifted value. -/
theorem shift_and_one {value : UInt64} {i : ℕ} (hi : i < 64) :
    ((value >>> UInt64.ofNat i) &&& 1).toUInt8 = (value.toNat.testBit i).toUInt8 := by
  have hshift : (UInt64.ofNat i).toNat % 64 = i := by
    rw [UInt64.toNat_ofNat']
    omega
  have hnat : ((value >>> UInt64.ofNat i) &&& 1).toNat = (value.toNat.testBit i).toNat := by
    rw [UInt64.toNat_and, UInt64.toNat_shiftRight, hshift, Nat.shiftRight_eq_div_pow,
      Nat.testBit_eq_decide_div_mod_eq]
    show value.toNat / 2 ^ i &&& 1 = _
    rw [Nat.and_one_is_mod]
    have hmod := Nat.mod_lt (value.toNat / 2 ^ i) (show 2 > 0 by omega)
    rcases Nat.eq_zero_or_pos (value.toNat / 2 ^ i % 2) with hz | hz
    · simp [hz]
    · have hone : value.toNat / 2 ^ i % 2 = 1 := by omega
      simp [hone]
  rw [← UInt8.toNat_inj, bit_toNat_le, UInt64.toNat_toUInt8, hnat]
  have := (value.toNat.testBit i).toNat_le
  omega

theorem Holds.pushValue {s : Sink} {bits : List Bool} (h : Holds s bits) {bitWidth : UInt8}
    (hwidth : bitWidth.toNat ≤ 64) (value : UInt64) :
    Holds (s.pushValue bitWidth value) (bits ++ bitsOf bitWidth.toNat value) := by
  unfold Sink.pushValue bitsOf
  generalize bitWidth.toNat = w at hwidth
  induction w with
  | zero => simpa using h
  | succ w ih =>
      rw [List.range_succ, List.foldl_append, List.map_append, ← List.append_assoc]
      simp only [List.foldl_cons, List.foldl_nil, List.map_cons, List.map_nil]
      rw [shift_and_one (by omega)]
      exact (ih (by omega)).push _

theorem Holds.foldl {s : Sink} {bits : List Bool} (h : Holds s bits) {bitWidth : UInt8}
    (hwidth : bitWidth.toNat ≤ 64) (values : List UInt64) :
    Holds (values.foldl (Sink.pushValue bitWidth) s) (bits ++ allBits bitWidth.toNat values) := by
  induction values generalizing s bits with
  | nil => simpa using h
  | cons value values ih =>
      rw [List.foldl_cons, allBits_cons, ← List.append_assoc]
      exact ih (h.pushValue hwidth value)

/-- **What the encoder has written when it finishes.** -/
theorem Holds.finish {s : Sink} {bits : List Bool} (h : Holds s bits) :
    s.finish = packBits bits := by
  have hlt := h.partial_lt
  unfold Sink.finish
  split
  · rename_i hpos
    refine leNat_inj ?_ ?_
    · rw [length_packBits, bytesFor, h.length_eq, List.length_append, List.length_singleton]
      omega
    · rw [leNat_packBits, leNat_append, leNat_cons, leNat_nil, ← h.value_eq]
      ring
  · rename_i hpos
    have hz : s.bitsInCurrentByte = 0 := by omega
    refine leNat_inj ?_ ?_
    · rw [length_packBits, bytesFor, h.length_eq]
      omega
    · have hcur := h.currentByte_lt
      rw [hz, pow_zero, Nat.lt_one_iff] at hcur
      rw [leNat_packBits, ← h.value_eq, hcur, Nat.mul_zero, Nat.add_zero]

@[simp] theorem validateBitWidth_ok {bitWidth : UInt8} {u : Unit} :
    validateBitWidth bitWidth = .ok u ↔ bitWidth.toNat ≤ 64 := by
  rw [validateBitWidth, failIf_ok, UInt8.lt_iff_toNat_lt, Nat.not_lt]
  exact Iff.rfl

/-- The largest value of a width. -/
theorem lt_maxValueForWidth {bitWidth : UInt8} (hwidth : bitWidth.toNat ≤ 64) (value : UInt64) :
    ¬maxValueForWidth bitWidth < value ↔ value.toNat < 2 ^ bitWidth.toNat := by
  have hv := value.toNat_lt
  unfold maxValueForWidth
  rw [UInt64.lt_iff_toNat_lt, Nat.not_lt]
  split
  · rename_i h
    rw [h]
    show value.toNat ≤ 2 ^ 64 - 1 ↔ value.toNat < 2 ^ 64
    omega
  · rename_i h
    split
    · rename_i h0
      rw [h0]
      show value.toNat ≤ 0 ↔ value.toNat < 2 ^ 0
      omega
    · have hlt : bitWidth.toNat < 64 := by
        refine lt_of_le_of_ne hwidth fun heq => h ?_
        rw [← UInt8.toNat_inj, heq]
        rfl
      have hone : ((1 : UInt64) <<< bitWidth.toUInt64).toNat = 2 ^ bitWidth.toNat := by
        rw [UInt64.toNat_shiftLeft, UInt8.toNat_toUInt64, Nat.mod_eq_of_lt hlt]
        show 1 <<< bitWidth.toNat % 2 ^ 64 = _
        rw [Nat.one_shiftLeft, Nat.mod_eq_of_lt (Nat.pow_lt_pow_right (by omega) hlt)]
      have hpos : 0 < 2 ^ bitWidth.toNat := Nat.two_pow_pos _
      have hsub : ((1 : UInt64) <<< bitWidth.toUInt64 - 1).toNat = 2 ^ bitWidth.toNat - 1 := by
        rw [UInt64.toNat_sub_of_le _ _ (by
          rw [UInt64.le_iff_toNat_le, hone]
          exact hpos), hone]
        rfl
      rw [hsub]
      omega

theorem allBits_zero (values : List UInt64) : allBits 0 values = [] := by
  induction values with
  | nil => rfl
  | cons value values ih =>
      rw [allBits_cons, ih]
      rfl

/-- **The encoder packs the bits of the values**, and accepts exactly the values that fit. -/
theorem encodeU64_ok {values : List UInt64} {bitWidth : UInt8} {data : List UInt8} :
    encodeU64 values bitWidth = .ok data ↔
      bitWidth.toNat ≤ 64 ∧ values.length * bitWidth.toNat < wordSize ∧
        (∀ value ∈ values, value.toNat < 2 ^ bitWidth.toNat) ∧
        data = packBits (allBits bitWidth.toNat values) := by
  simp only [encodeU64, bind_ok, validateBitWidth_ok]
  by_cases hempty : values = [] ∨ bitWidth = 0
  · -- nothing to write: all values are zero
    rw [if_pos hempty]
    have hbits : allBits bitWidth.toNat values = [] := by
      rcases hempty with rfl | rfl
      · rfl
      · exact allBits_zero values
    have hword : values.length * bitWidth.toNat < wordSize := by
      rcases hempty with rfl | rfl
      · simp [wordSize]
      · simp [wordSize]
    have hzero : (¬values.any (· != 0) = true) ↔
        ∀ value ∈ values, value.toNat < 2 ^ bitWidth.toNat := by
      rcases hempty with rfl | rfl
      · simp
      · simp only [List.any_eq_true, not_exists, not_and, bne_iff_ne, not_not]
        refine forall₂_congr fun value _ => ?_
        rw [← UInt64.toNat_inj]
        exact (Nat.lt_one_iff).symm
    simp only [bind_ok, failIf_ok, hzero, pure_ok, hbits, hword, true_and]
    constructor
    · intro h
      obtain ⟨_, hwidth, _, hvals, rfl⟩ := h
      exact ⟨hwidth, hvals, rfl⟩
    · intro h
      obtain ⟨hwidth, hvals, rfl⟩ := h
      exact ⟨(), hwidth, (), hvals, rfl⟩
  · rw [if_neg hempty]
    have hmax : ∀ hwidth : bitWidth.toNat ≤ 64,
        (¬values.any (maxValueForWidth bitWidth < ·) = true) ↔
          ∀ value ∈ values, value.toNat < 2 ^ bitWidth.toNat := by
      intro hwidth
      simp only [List.any_eq_true, decide_eq_true_eq, not_exists, not_and]
      exact forall₂_congr fun value _ => lt_maxValueForWidth hwidth value
    simp only [bind_ok, failIf_ok, okOr_ok, usizeMul_eq_some, pure_ok]
    constructor
    · intro h
      obtain ⟨_, hwidth, _, hvals, _, ⟨hword, _⟩, rfl⟩ := h
      exact ⟨hwidth, hword, (hmax hwidth).1 hvals, (Holds.empty.foldl hwidth values).finish⟩
    · intro h
      obtain ⟨hwidth, hword, hvals, rfl⟩ := h
      exact ⟨(), hwidth, (), (hmax hwidth).2 hvals, _, ⟨hword, rfl⟩,
        (Holds.empty.foldl hwidth values).finish⟩

/-! ### The decoder reads fields -/

/-- Or-ing a bit above the bits of a word adds it. -/
theorem toNat_or_bit64 {value : UInt64} {k : ℕ} (hk : k < 64) (hvalue : value.toNat < 2 ^ k)
    (bit : Bool) :
    (value ||| bit.toUInt8.toUInt64 <<< UInt64.ofNat k).toNat =
      value.toNat + 2 ^ k * bit.toNat := by
  have hshift : (UInt64.ofNat k).toNat % 64 = k := by
    rw [UInt64.toNat_ofNat']
    omega
  have hbit : (bit.toUInt8.toUInt64 <<< UInt64.ofNat k).toNat = 2 ^ k * bit.toNat := by
    rw [UInt64.toNat_shiftLeft, hshift, UInt8.toNat_toUInt64, bit_toNat_le, Nat.shiftLeft_eq,
      Nat.mul_comm]
    refine Nat.mod_eq_of_lt ?_
    have hpow : 2 ^ k < 2 ^ 64 := Nat.pow_lt_pow_right (by omega) hk
    cases bit
    · simp
    · simpa using hpow
  rw [UInt64.toNat_or, hbit, Nat.or_comm, ← Nat.two_pow_add_eq_or_of_lt hvalue, Nat.add_comm]

/-- The low bit of a shifted byte. -/
theorem byte_shift_and_one (byte : UInt8) {i : ℕ} (hi : i < 8) :
    (byte >>> UInt8.ofNat i) &&& 1 = (byte.toNat.testBit i).toUInt8 := by
  have hall : ∀ i < 8, ∀ n < 256,
      (UInt8.ofNat n >>> UInt8.ofNat i) &&& 1 = (n.testBit i).toUInt8 := by decide +kernel
  have h := hall i hi byte.toNat byte.toNat_lt
  rwa [UInt8.ofNat_toNat] at h

theorem readBit_toNat (data : List UInt8) (bitOffset : ℕ) {bitIndex : ℕ} {value : UInt64}
    (hindex : bitIndex < 64) (hvalue : value.toNat < 2 ^ bitIndex) :
    (readBit data bitOffset bitIndex value).toNat =
      value.toNat + 2 ^ bitIndex * (bitAt data bitOffset).toNat := by
  rw [readBit, byte_shift_and_one _ (Nat.mod_lt _ (by omega)), toNat_or_bit64 hindex hvalue]
  rfl

/-- **A value is read off its field.** -/
theorem readValue_toNat (data : List UInt8) {bitWidth : UInt8} (hwidth : bitWidth.toNat ≤ 64)
    (bitOffset : ℕ) :
    (readValue data bitWidth bitOffset).toNat = field data bitOffset bitWidth.toNat := by
  unfold readValue
  generalize bitWidth.toNat = w at hwidth
  induction w with
  | zero =>
      rw [field_zero]
      rfl
  | succ w ih =>
      have ih' := ih (by omega)
      have hlt : field data bitOffset w < 2 ^ w := Nat.mod_lt _ (Nat.two_pow_pos w)
      rw [List.range_succ, List.foldl_append, List.foldl_cons, List.foldl_nil,
        readBit_toNat _ _ (by omega) (by rw [ih']; exact hlt), ih', field_succ]

/-- The values read from `bitOffset` on are those whose bits are there. -/
theorem readValues_eq_iff {data : List UInt8} {bitWidth : UInt8} (hwidth : bitWidth.toNat ≤ 64)
    {valueCount bitOffset : ℕ} {values : List UInt64} :
    readValues data bitWidth valueCount bitOffset = values ↔
      values.length = valueCount ∧ (∀ value ∈ values, value.toNat < 2 ^ bitWidth.toNat) ∧
        ofBits (allBits bitWidth.toNat values) =
          field data bitOffset (valueCount * bitWidth.toNat) := by
  induction valueCount generalizing bitOffset values with
  | zero =>
      rw [readValues, Nat.zero_mul, field_zero]
      constructor
      · intro h
        subst h
        exact ⟨rfl, by simp, rfl⟩
      · intro h
        exact (List.length_eq_zero_iff.1 h.1).symm
  | succ valueCount ih =>
      have hread := readValue_toNat data hwidth bitOffset
      -- the digits of the field: the first value, then the rest
      have hsplit : field data bitOffset ((valueCount + 1) * bitWidth.toNat) =
          field data bitOffset bitWidth.toNat + 2 ^ bitWidth.toNat *
            field data (bitOffset + bitWidth.toNat) (valueCount * bitWidth.toNat) := by
        rw [field, field, field, Nat.add_mul, Nat.one_mul, Nat.add_comm (valueCount * _), pow_add,
          Nat.mod_mul, Nat.div_div_eq_div_mul, ← pow_add]
      have hlt : field data bitOffset bitWidth.toNat < 2 ^ bitWidth.toNat :=
        Nat.mod_lt _ (Nat.two_pow_pos _)
      rw [readValues, hsplit]
      constructor
      · intro h
        subst h
        obtain ⟨hlen, hvals, hbits⟩ := ih.1 (Eq.refl
          (readValues data bitWidth valueCount (bitOffset + bitWidth.toNat)))
        refine ⟨by rw [List.length_cons, hlen], ?_, ?_⟩
        · intro value hmem
          rcases List.mem_cons.1 hmem with rfl | hmem
          · rw [hread]
            exact hlt
          · exact hvals value hmem
        · rw [allBits_cons, ofBits_append, length_bitsOf,
            ofBits_bitsOf (by rw [hread]; exact hlt), hread, hbits]
      · intro h
        obtain ⟨hlen, hvals, hbits⟩ := h
        cases values with
        | nil => cases hlen
        | cons value values =>
            have hvalue := hvals value (List.mem_cons_self ..)
            rw [allBits_cons, ofBits_append, length_bitsOf, ofBits_bitsOf hvalue] at hbits
            have hdigits : value.toNat = field data bitOffset bitWidth.toNat ∧
                ofBits (allBits bitWidth.toNat values) =
                  field data (bitOffset + bitWidth.toNat) (valueCount * bitWidth.toNat) := by
              have hmod := congrArg (· % 2 ^ bitWidth.toNat) hbits
              have hdiv := congrArg (· / 2 ^ bitWidth.toNat) hbits
              simp only [Nat.add_mul_mod_self_left, Nat.mod_eq_of_lt hvalue,
                Nat.mod_eq_of_lt hlt] at hmod
              simp only [Nat.add_mul_div_left _ _ (Nat.two_pow_pos _), Nat.div_eq_of_lt hvalue,
                Nat.div_eq_of_lt hlt, Nat.zero_add] at hdiv
              exact ⟨hmod, hdiv⟩
            rw [List.cons.injEq]
            refine ⟨?_, ?_⟩
            · rw [← UInt64.toNat_inj, hread, hdigits.1]
            · exact ih.2 ⟨by simpa using hlen,
                fun v hv => hvals v (List.mem_cons_of_mem _ hv), hdigits.2⟩

/-! ### Exactness -/

theorem rejectNonZeroPadding_ok {data : List UInt8} {usedBits : ℕ}
    (hlen : data.length = bytesFor usedBits) :
    rejectNonZeroPadding data usedBits = .ok () ↔ leNat data < 2 ^ usedBits := by
  have hbits : leNat data < 2 ^ usedBits ↔ ∀ i, usedBits ≤ i → bitAt data i = false := by
    simp only [bitAt_eq_testBit]
    exact ⟨fun h i hi => Nat.testBit_lt_two_pow
        (lt_of_lt_of_le h (Nat.pow_le_pow_right (by omega) hi)),
      fun h => Nat.lt_pow_two_of_testBit _ h⟩
  rw [hbits]
  unfold rejectNonZeroPadding
  simp only
  split
  · simp only [true_iff]
    intro i hi
    exact bitAt_eq_false (by omega)
  · rename_i hpad
    have hused : usedBits % 8 ≠ 0 := by
      rw [hlen, bytesFor] at hpad
      omega
    rw [failIf_ok, not_and, Bool.not_eq_true, ← Bitmap.hasPadding_eq_false hlen hused]
    exact ⟨fun h => h hused, fun h _ => h⟩

/-- **Decoding is exact**: values are decoded precisely from their packing. -/
theorem decodeU64_ok {data : List UInt8} {bitWidth : UInt8} {valueCount : ℕ}
    {values : List UInt64} :
    decodeU64 data bitWidth valueCount = .ok values ↔
      valueCount ≤ maxDecodedValues ∧ values.length = valueCount ∧
        encodeU64 values bitWidth = .ok data := by
  simp only [decodeU64, bind_ok, validateBitWidth_ok, failIf_ok, Nat.not_lt, okOr_ok,
    usizeMul_eq_some, not_not, encodeU64_ok]
  -- with no bits left over, a packing is determined by its number
  have hpack : ∀ values : List UInt64, data.length = bytesFor (values.length * bitWidth.toNat) →
      (data = packBits (allBits bitWidth.toNat values) ↔
        ofBits (allBits bitWidth.toNat values) = leNat data) := by
    intro values hlen
    rw [← leNat_packBits]
    constructor
    · intro h
      rw [← h]
    · intro h
      exact leNat_inj (by rw [length_packBits, length_allBits, hlen]) h.symm
  constructor
  · intro h
    obtain ⟨_, hwidth, _, hcount, _, ⟨hword, rfl⟩, _, hlen, hval⟩ := h
    have hlen' : data.length = bytesFor (valueCount * bitWidth.toNat) := hlen
    by_cases hz : bitWidth = 0
    · rw [if_pos hz, pure_ok] at hval
      subst hval hz
      have hdata : data = [] := by
        rw [← List.length_eq_zero_iff, hlen', show (0 : UInt8).toNat = 0 by rfl, Nat.mul_zero]
        rfl
      refine ⟨hcount, by simp, hwidth, by simpa using hword, by simp, ?_⟩
      rw [hdata, show (0 : UInt8).toNat = 0 by rfl, allBits_zero]
      rfl
    · simp only [if_neg hz, bind_ok, pure_ok] at hval
      obtain ⟨_, hpad, hval⟩ := hval
      rw [rejectNonZeroPadding_ok hlen'] at hpad
      obtain ⟨hn, hvals, hbits⟩ := (readValues_eq_iff hwidth).1 hval
      rw [field, pow_zero, Nat.div_one, Nat.mod_eq_of_lt hpad] at hbits
      subst hn
      exact ⟨hcount, rfl, hwidth, hword, hvals, (hpack values hlen').2 hbits⟩
  · intro h
    obtain ⟨hcount, rfl, hwidth, hword, hvals, hdata⟩ := h
    have hlen : data.length = bytesFor (values.length * bitWidth.toNat) := by
      rw [hdata, length_packBits, length_allBits]
    refine ⟨(), hwidth, (), hcount, _, ⟨hword, rfl⟩, (), hlen, ?_⟩
    by_cases hz : bitWidth = 0
    · rw [if_pos hz, pure_ok, eq_comm, List.eq_replicate_iff]
      refine ⟨rfl, fun value hmem => ?_⟩
      have hvalue := hvals value hmem
      rw [hz] at hvalue
      rw [← UInt64.toNat_inj]
      exact Nat.lt_one_iff.1 hvalue
    · have hnum := (hpack values hlen).1 hdata
      have hlt : leNat data < 2 ^ (values.length * bitWidth.toNat) := by
        rw [← hnum, ← length_allBits]
        exact ofBits_lt _
      simp only [if_neg hz, bind_ok, pure_ok]
      refine ⟨(), (rejectNonZeroPadding_ok hlen).2 hlt, (readValues_eq_iff hwidth).2 ?_⟩
      refine ⟨rfl, hvals, ?_⟩
      rw [hnum, field, pow_zero, Nat.div_one, Nat.mod_eq_of_lt hlt]

/-! ### Packing single bits -/

theorem bitsOf_one (bit : Bool) : bitsOf 1 bit.toUInt64 = [bit] := by cases bit <;> rfl

theorem allBits_one (bits : List Bool) : allBits 1 (bits.map Bool.toUInt64) = bits := by
  induction bits with
  | nil => rfl
  | cons bit bits ih => rw [List.map_cons, allBits_cons, bitsOf_one, ih, List.singleton_append]

theorem toUInt64_lt (bit : Bool) : bit.toUInt64.toNat < 2 ^ (1 : UInt8).toNat := by
  cases bit <;> decide

/-- Values of one bit are bits. -/
theorem exists_bits {values : List UInt64}
    (h : ∀ value ∈ values, value.toNat < 2 ^ (1 : UInt8).toNat) :
    ∃ bits : List Bool, values = bits.map Bool.toUInt64 := by
  refine ⟨values.map (· == 1), ?_⟩
  rw [List.map_map]
  refine (List.map_id' values).symm.trans (List.map_congr_left fun value hvalue => ?_)
  have hlt : value.toNat < 2 := h value hvalue
  by_cases hone : value = 1
  · subst hone
    rfl
  · have hzero : value = 0 := by
      rw [← UInt64.toNat_inj] at hone ⊢
      have h1 : (1 : UInt64).toNat = 1 := rfl
      have h0 : (0 : UInt64).toNat = 0 := rfl
      omega
    subst hzero
    rfl

/-- Bits are packed as a bitmap. -/
theorem encodeU64_bits {bits : List Bool} {data : List UInt8} :
    encodeU64 (bits.map Bool.toUInt64) 1 = .ok data ↔
      bits.length < wordSize ∧ data = Bitmap.encode bits := by
  have hlt : ∀ value ∈ bits.map Bool.toUInt64, value.toNat < 2 ^ (1 : UInt8).toNat := by
    intro value hvalue
    obtain ⟨bit, -, rfl⟩ := List.mem_map.1 hvalue
    exact toUInt64_lt bit
  rw [encodeU64_ok, List.length_map, show (1 : UInt8).toNat = 1 from rfl, Nat.mul_one, allBits_one,
    Bitmap.encode_eq_packBits]
  exact ⟨fun h => ⟨h.2.1, h.2.2.2⟩, fun h => ⟨by decide, h.1, hlt, h.2⟩⟩

/-- **Packing is exact in both directions**, at every width; and packing single bits makes a bitmap,
which is decoded where the packing is. -/
theorem encodeU64_exact :
    (∀ (bitWidth : UInt8) (values : List UInt64), bitWidth.toNat ≤ 64 →
      values.length ≤ maxDecodedValues →
        ((∃ data, encodeU64 values bitWidth = .ok data) ↔
          ∀ value ∈ values, value.toNat < 2 ^ bitWidth.toNat) ∧
        ∀ data, encodeU64 values bitWidth = .ok data →
          data.length = (values.length * bitWidth.toNat + 7) / 8 ∧
            decodeU64 data bitWidth values.length = .ok values) ∧
      (∀ data bitWidth valueCount values, decodeU64 data bitWidth valueCount = .ok values →
        values.length = valueCount ∧ encodeU64 values bitWidth = .ok data) ∧
      (∀ bits : List Bool, bits.length < wordSize →
        encodeU64 (bits.map Bool.toUInt64) 1 = .ok (Bitmap.encode bits)) ∧
      ∀ data valueCount values, decodeU64 data 1 valueCount = .ok values ↔
        valueCount ≤ maxDecodedValues ∧
          ∃ bits, values = bits.map Bool.toUInt64 ∧ Bitmap.decode data valueCount = .ok bits := by
  refine ⟨fun bitWidth values hwidth hmax => ⟨?_, ?_⟩, ?_, ?_, ?_⟩
  · have hword : values.length * bitWidth.toNat < wordSize :=
      lt_of_le_of_lt (Nat.mul_le_mul hmax hwidth) (by decide)
    simp only [encodeU64_ok]
    exact ⟨fun ⟨data, _, _, hvalues, _⟩ => hvalues, fun h => ⟨_, hwidth, hword, h, rfl⟩⟩
  · intro data hdata
    refine ⟨?_, decodeU64_ok.2 ⟨hmax, rfl, hdata⟩⟩
    obtain ⟨-, -, -, rfl⟩ := encodeU64_ok.1 hdata
    rw [length_packBits, length_allBits, bytesFor]
  · intro data bitWidth valueCount values hdec
    exact (decodeU64_ok.1 hdec).2
  · intro bits hlen
    exact encodeU64_bits.2 ⟨hlen, rfl⟩
  · intro data valueCount values
    rw [decodeU64_ok]
    constructor
    · rintro ⟨hmax, rfl, henc⟩
      obtain ⟨bits, rfl⟩ := exists_bits (encodeU64_ok.1 henc).2.2.1
      rw [List.length_map] at hmax ⊢
      exact ⟨hmax, bits, rfl, Bitmap.decode_ok.2 ⟨(encodeU64_bits.1 henc).2, rfl⟩⟩
    · rintro ⟨hmax, bits, rfl, hdec⟩
      obtain ⟨hdata, rfl⟩ := Bitmap.decode_ok.1 hdec
      exact ⟨hmax, List.length_map _, encodeU64_bits.2 ⟨lt_of_le_of_lt hmax (by decide), hdata⟩⟩

/-- Three values of three bits, which take two bytes. -/
theorem encodeU64_exact_three : ∃ data, encodeU64 [5, 7, 1] 3 = .ok data ∧ data.length = 2 ∧
    decodeU64 data 3 3 = .ok [5, 7, 1] := by
  obtain ⟨hexists, hdecode⟩ := encodeU64_exact.1 3 [5, 7, 1] (by decide) (by decide)
  have hvalues : ∀ value ∈ ([5, 7, 1] : List UInt64), value.toNat < 2 ^ (3 : UInt8).toNat := by
    intro value hvalue
    simp only [List.mem_cons, List.not_mem_nil, or_false] at hvalue
    rcases hvalue with rfl | rfl | rfl
    · decide
    · decide
    · decide
  obtain ⟨data, hdata⟩ := hexists.2 hvalues
  exact ⟨data, hdata, hdecode data hdata⟩

end CompactCore.Bitpack
