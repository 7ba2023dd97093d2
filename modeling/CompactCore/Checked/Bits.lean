/-
**The bit decoders as checked code.**

A bitmap and a packing of words are read bit by bit.  The byte of a bit is taken out by its index,
and the bit is shifted into place, so every step rests on the number of bits that the length check
lets through.

Main definitions:

* `CompactCore.Checked.Bitmap.decode`, `CompactCore.Checked.Bitpack.decodeU64` — the decoders.

Main results:

* `CompactCore.Checked.Bitmap.decode_total`, `CompactCore.Checked.Bitpack.decodeU64_total` — **these
  decoders do not panic**.
-/

import CompactCore.Checked.Primitives
import CompactCore.Primitives.Bitpack

set_option relaxedAutoImplicit false
set_option autoImplicit false

/-! ### Bitmaps -/

namespace CompactCore.Checked.Bitmap

open Wire Fault CompactError

/-- Whether some bit of the last byte is in the padding mask, which all ones are shifted into. -/
def hasPadding (data : List UInt8) (usedBitsInLastByte : ℕ) : Outcome Bool := do
  let paddingMask ← shiftLeftU8 0xff usedBitsInLastByte
  return match data.getLast? with
    | some last => last &&& paddingMask != 0
    | none => false

def rejectNonZeroPadding (data : List UInt8) (bitCount : ℕ) : Outcome Unit :=
  let usedBitsInLastByte := bitCount % 8
  if usedBitsInLastByte = 0 then .ok ()
  else do
    let padding ← hasPadding data usedBitsInLastByte
    failIf (padding = true) (error (invalidInput "bitmap padding bits must be zero"))

/-- `data[index / 8] & (1 << (index % 8)) != 0`. -/
def readBit (data : List UInt8) (i : ℕ) : Outcome Bool := do
  let byte ← index data (i / 8)
  let bit ← shiftLeftU8 1 (i % 8)
  return byte &&& bit != 0

/-- Decode exactly `bitCount` logical bits. -/
def decode (data : List UInt8) (bitCount : ℕ) : Outcome (List Bool) := do
  let expectedLen := (bitCount + 7) / 8
  failIf (data.length ≠ expectedLen) (error (invalidInput "bitmap length does not match bit count"))
  rejectNonZeroPadding data bitCount
  withCapacity 1 bitCount
  (List.range bitCount).mapM (readBit data)

theorem hasPadding_of (data : List UInt8) {usedBitsInLastByte : ℕ} (h : usedBitsInLastByte < 8) :
    hasPadding data usedBitsInLastByte =
      .ok (CompactCore.Bitmap.hasPadding data usedBitsInLastByte) := by
  rw [hasPadding, ok_bind_eq (shiftLeftU8_of h), CompactCore.Bitmap.hasPadding]
  cases data.getLast? <;> rfl

theorem rejectNonZeroPadding_total (data : List UInt8) (bitCount : ℕ) :
    rejectNonZeroPadding data bitCount =
      total (CompactCore.Bitmap.rejectNonZeroPadding data bitCount) := by
  unfold rejectNonZeroPadding CompactCore.Bitmap.rejectNonZeroPadding
  dsimp only
  split
  · rfl
  · rw [ok_bind_eq (hasPadding_of data (Nat.mod_lt _ (by omega))), total_failIf]

/-- A bit of a byte that is there. -/
theorem readBit_of {data : List UInt8} {i : ℕ} (h : i < 8 * data.length) :
    readBit data i = .ok (data.getD (i / 8) 0 &&& (1 <<< UInt8.ofNat (i % 8)) != 0) := by
  rw [readBit, ok_bind_eq (index_getD 0 (by omega)),
    ok_bind_eq (shiftLeftU8_of (Nat.mod_lt _ (by omega)))]
  rfl

/-- The length check covers the byte of every bit. -/
theorem decode_total (data : List UInt8) {bitCount : ℕ} (hmax : bitCount ≤ maxAllocation) :
    decode data bitCount = total (CompactCore.Bitmap.decode data bitCount) := by
  rw [decode, CompactCore.Bitmap.decode]
  refine total_bind_of (total_failIf _ _).symm fun _ hlen => ?_
  have hlen : data.length = (bitCount + 7) / 8 := not_not.1 (failIf_ok.1 hlen)
  refine total_bind_of (rejectNonZeroPadding_total data bitCount) fun _ _ => ?_
  rw [ok_bind_eq (withCapacity_of (by omega)), mapM_of_ok fun i hi => readBit_of ?_]
  · rfl
  · have hi := List.mem_range.1 hi
    omega

end CompactCore.Checked.Bitmap

/-! ### Packed words -/

namespace CompactCore.Checked.Bitpack

open Wire Fault CompactError
open CompactCore.Bitpack (validateBitWidth)

/-- The mask is zero where the last byte is full. -/
def hasPadding (data : List UInt8) (usedBitsInLastByte : ℕ) : Outcome Bool :=
  if usedBitsInLastByte = 0 then .ok false else Bitmap.hasPadding data usedBitsInLastByte

def rejectNonZeroPadding (data : List UInt8) (usedBits : ℕ) : Outcome Unit := do
  let bits ← mulUsize data.length 8
  let paddingBits ← subUsize bits usedBits
  if paddingBits = 0 then .ok ()
  else do
    let padding ← hasPadding data (usedBits % 8)
    failIf (padding = true) (error (invalidInput "bit-packed padding bits must be zero"))

/-- Or the bit at the offset into bit `bitIndex` of the value, and go on to the next one. -/
def readBit (data : List UInt8) (s : UInt64 × ℕ) (bitIndex : ℕ) : Outcome (UInt64 × ℕ) := do
  let (value, bitOffset) := s
  let sourceByte ← index data (bitOffset / 8)
  let shifted ← shiftRightU8 sourceByte (bitOffset % 8)
  let sourceBit := shifted &&& 1
  let bit ← shiftLeft sourceBit.toUInt64 bitIndex
  let bitOffset ← addUsize bitOffset 1
  return (value ||| bit, bitOffset)

/-- The value at the offset, and the offset behind it. -/
def readValue (data : List UInt8) (bitWidth : UInt8) (bitOffset : ℕ) : Outcome (UInt64 × ℕ) :=
  (List.range bitWidth.toNat).foldlM (readBit data) (0, bitOffset)

/-- The values from the offset on. -/
def readValues (data : List UInt8) (bitWidth : UInt8) : ℕ → ℕ → Outcome (List UInt64)
  | 0, _ => .ok []
  | valueCount + 1, bitOffset => do
      let (value, bitOffset) ← readValue data bitWidth bitOffset
      let values ← readValues data bitWidth valueCount bitOffset
      return value :: values

/-- Unpack fixed-width `u64` values. -/
def decodeU64 (data : List UInt8) (bitWidth : UInt8) (valueCount : ℕ) : Outcome (List UInt64) := do
  total (validateBitWidth bitWidth)
  failIf (maxDecodedValues < valueCount)
    (error (invalidInput "bit-packed value count exceeds configured limit"))
  let totalBits ← okOr (error (invalidInput "bit-packed input length overflow"))
    (usizeMul valueCount bitWidth.toNat)
  let expectedLen := (totalBits + 7) / 8
  failIf (data.length ≠ expectedLen)
    (error (invalidInput "bit-packed input length does not match value count"))
  if bitWidth = 0 then do
    withCapacity sizeOfU64 valueCount
    return List.replicate valueCount 0
  else do
    rejectNonZeroPadding data totalBits
    withCapacity sizeOfU64 valueCount
    readValues data bitWidth valueCount 0

theorem rejectNonZeroPadding_total {data : List UInt8} {usedBits : ℕ}
    (hused : usedBits ≤ data.length * 8) (hword : data.length * 8 < wordSize) :
    rejectNonZeroPadding data usedBits =
      total (CompactCore.Bitpack.rejectNonZeroPadding data usedBits) := by
  rw [rejectNonZeroPadding, ok_bind_eq (mulUsize_of hword), ok_bind_eq (subUsize_of hused),
    CompactCore.Bitpack.rejectNonZeroPadding]
  dsimp only
  split
  · rfl
  · rw [hasPadding]
    split
    · rename_i hzero
      rw [ok_bind_eq rfl, total_failIf, failIf_of_not (by simp),
        failIf_of_not fun h => h.1 hzero]
    · rename_i hne
      rw [ok_bind_eq (Bitmap.hasPadding_of data (Nat.mod_lt _ (by omega))), total_failIf]
      simp only [ne_eq, hne, not_false_eq_true, true_and]

theorem readBit_of {data : List UInt8} {bitOffset bitIndex : ℕ} (value : UInt64)
    (hoffset : bitOffset < data.length * 8) (hword : data.length * 8 < wordSize)
    (hindex : bitIndex < 64) : readBit data (value, bitOffset) bitIndex =
      .ok (CompactCore.Bitpack.readBit data bitOffset bitIndex value, bitOffset + 1) := by
  rw [readBit]
  dsimp only
  rw [ok_bind_eq (index_getD 0 (by omega)), ok_bind_eq (shiftRightU8_of (Nat.mod_lt _ (by omega))),
    ok_bind_eq (shiftLeft_of hindex), ok_bind_eq (addUsize_of (by omega))]
  rfl

/-- A value whose bits are there, by induction on its width. -/
theorem readValue_of {data : List UInt8} {bitWidth : UInt8} {bitOffset : ℕ}
    (hwidth : bitWidth.toNat ≤ 64) (hoffset : bitOffset + bitWidth.toNat ≤ data.length * 8)
    (hword : data.length * 8 < wordSize) : readValue data bitWidth bitOffset =
      .ok (CompactCore.Bitpack.readValue data bitWidth bitOffset,
        bitOffset + bitWidth.toNat) := by
  unfold readValue CompactCore.Bitpack.readValue
  generalize bitWidth.toNat = w at hwidth hoffset
  induction w with
  | zero => rfl
  | succ w ih =>
      rw [List.range_succ, List.foldlM_append, ok_bind_eq (ih (by omega) (by omega)),
        List.foldl_append, List.foldlM_cons, ok_bind_eq (readBit_of _ (by omega) hword (by omega))]
      rfl

theorem readValues_of {data : List UInt8} {bitWidth : UInt8} {valueCount bitOffset : ℕ}
    (hwidth : bitWidth.toNat ≤ 64)
    (hoffset : bitOffset + valueCount * bitWidth.toNat ≤ data.length * 8)
    (hword : data.length * 8 < wordSize) : readValues data bitWidth valueCount bitOffset =
      .ok (CompactCore.Bitpack.readValues data bitWidth valueCount bitOffset) := by
  induction valueCount generalizing bitOffset with
  | zero => rfl
  | succ valueCount ih =>
      rw [Nat.add_mul, Nat.one_mul] at hoffset
      rw [readValues, ok_bind_eq (readValue_of hwidth (by omega) hword)]
      dsimp only
      rw [ok_bind_eq (ih (by omega))]
      rfl

/-- The length check leaves as many bits as the values have, and less than a byte more. -/
theorem decodeU64_total (data : List UInt8) (bitWidth : UInt8) (valueCount : ℕ) :
    decodeU64 data bitWidth valueCount =
      total (CompactCore.Bitpack.decodeU64 data bitWidth valueCount) := by
  rw [decodeU64, CompactCore.Bitpack.decodeU64]
  refine total_bind_of rfl fun _ hwidth => ?_
  have hwidth := CompactCore.Bitpack.validateBitWidth_ok.1 hwidth
  refine total_bind_of (total_failIf _ _).symm fun _ hcount => ?_
  have hcount : valueCount ≤ 16 * 1024 * 1024 := not_lt.1 (failIf_ok.1 hcount)
  refine total_bind_of (total_okOr _ _).symm fun totalBits htotal => ?_
  have htotal : valueCount * bitWidth.toNat = totalBits :=
    (usizeMul_eq_some.1 (okOr_ok.1 htotal)).2
  refine total_bind_of (total_failIf _ _).symm fun _ hlen => ?_
  have hlen : data.length = (totalBits + 7) / 8 := not_not.1 (failIf_ok.1 hlen)
  have hroom : sizeOfU64 * valueCount ≤ maxAllocation := by
    rw [sizeOfU64, maxAllocation]
    omega
  split
  · rw [ok_bind_eq (withCapacity_of hroom)]
    rfl
  · have hbits : totalBits ≤ 16 * 1024 * 1024 * 64 := htotal ▸ Nat.mul_le_mul hcount hwidth
    have hword : data.length * 8 < wordSize := by
      rw [wordSize]
      omega
    refine total_bind_of (rejectNonZeroPadding_total (by omega) hword) fun _ _ => ?_
    rw [ok_bind_eq (withCapacity_of hroom), readValues_of hwidth (by omega) hword]
    rfl

end CompactCore.Checked.Bitpack
