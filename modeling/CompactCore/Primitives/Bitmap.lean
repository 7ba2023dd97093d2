/-
**Bitmaps.**

A bitmap stores one logical bit per physical bit, bit `i` in bit `i % 8` of byte `i / 8`.  The
decoder insists on the exact byte length and on zero padding, so that a bitmap of a known number of
bits has one spelling.

Main definitions:

* `CompactCore.Bitmap.encode`, `CompactCore.Bitmap.decode` — the two directions.

Main results:

* `CompactCore.Bitmap.encode_eq_packBits` — the encoder's loop packs the bits;
* `CompactCore.Bitmap.decode_ok` — **decoding is exact**.
-/

import CompactCore.Core
import CompactCore.Wire.Bits

set_option relaxedAutoImplicit false
set_option autoImplicit false

namespace CompactCore.Bitmap

open Wire CompactError

/-! ### The codec -/

/-- `out[index / 8] |= 1 << (index % 8)`. -/
def setBit (out : List UInt8) (index : ℕ) : List UInt8 :=
  out.modify (index / 8) (· ||| 1 <<< UInt8.ofNat (index % 8))

/-- Encode logical bits into a compact byte sequence. -/
def encode (bits : List Bool) : List UInt8 :=
  bits.zipIdx.foldl (fun out bit => if bit.1 then setBit out bit.2 else out)
    (List.replicate ((bits.length + 7) / 8) 0)

/-- Whether some bit above the first `usedBits` bits of the last byte is set. -/
def hasPadding (data : List UInt8) (usedBitsInLastByte : ℕ) : Bool :=
  match data.getLast? with
  | some last => last &&& (0xff <<< UInt8.ofNat usedBitsInLastByte) != 0
  | none => false

def rejectNonZeroPadding (data : List UInt8) (bitCount : ℕ) : Result Unit :=
  let usedBitsInLastByte := bitCount % 8
  if usedBitsInLastByte = 0 then .ok ()
  else failIf (hasPadding data usedBitsInLastByte)
    (invalidInput "bitmap padding bits must be zero")

/-- Decode exactly `bitCount` logical bits. -/
def decode (data : List UInt8) (bitCount : ℕ) : Result (List Bool) := do
  let expectedLen := (bitCount + 7) / 8
  failIf (data.length ≠ expectedLen) (invalidInput "bitmap length does not match bit count")
  rejectNonZeroPadding data bitCount
  return (List.range bitCount).map fun index =>
    data.getD (index / 8) 0 &&& (1 <<< UInt8.ofNat (index % 8)) != 0

/-! ### Bits of a byte -/

/-- What two bytes have in common, bit by bit. -/
theorem and_eq_zero (byte mask : UInt8) : byte &&& mask = 0 ↔
    ∀ i < 8, byte.toNat.testBit i = true → mask.toNat.testBit i = false := by
  rw [← UInt8.toNat_inj, UInt8.toNat_and, UInt8.toNat_zero]
  constructor
  · intro h i _ hbit
    have hi : (byte.toNat &&& mask.toNat).testBit i = false := by rw [h, Nat.zero_testBit]
    rwa [Nat.testBit_and, hbit, Bool.true_and] at hi
  · intro h
    refine Nat.eq_of_testBit_eq fun i => ?_
    rw [Nat.testBit_and, Nat.zero_testBit, Bool.and_eq_false_iff]
    by_cases hi : i < 8
    · cases hbit : byte.toNat.testBit i with
      | false => exact Or.inl rfl
      | true => exact Or.inr (h i hi hbit)
    · left
      exact Nat.testBit_lt_two_pow (lt_of_lt_of_le byte.toNat_lt
        (Nat.pow_le_pow_right (by decide) (not_lt.1 hi)))

theorem testBit_bit {i j : ℕ} (hi : i < 8) (hj : j < 8) :
    ((1 : UInt8) <<< UInt8.ofNat i).toNat.testBit j = decide (j = i) := by
  have hall : ∀ i < 8, ∀ j < 8,
      ((1 : UInt8) <<< UInt8.ofNat i).toNat.testBit j = decide (j = i) := by decide +kernel
  exact hall i hi j hj

theorem testBit_mask {k i : ℕ} (hk : k < 8) (hi : i < 8) :
    ((0xff : UInt8) <<< UInt8.ofNat k).toNat.testBit i = decide (k ≤ i) := by
  have hall : ∀ k < 8, ∀ i < 8,
      ((0xff : UInt8) <<< UInt8.ofNat k).toNat.testBit i = decide (k ≤ i) := by decide +kernel
  exact hall k hk i hi

/-- The mask of one bit selects that bit. -/
theorem and_bit_ne_zero (byte : UInt8) {i : ℕ} (hi : i < 8) :
    (byte &&& (1 <<< UInt8.ofNat i) != 0) = byte.toNat.testBit i := by
  rw [Bool.eq_iff_iff, bne_iff_ne, ne_eq, and_eq_zero]
  constructor
  · intro h
    by_contra hbit
    refine h fun j hj hset => ?_
    rw [testBit_bit hi hj, decide_eq_false_iff_not]
    rintro rfl
    exact hbit hset
  · intro hbit h
    have hclear := h i hi hbit
    rw [testBit_bit hi hi, decide_eq_false_iff_not] at hclear
    exact hclear rfl

theorem testBit_or_bit (byte : UInt8) {i j : ℕ} (hi : i < 8) (hj : j < 8) :
    (byte ||| 1 <<< UInt8.ofNat i).toNat.testBit j = (byte.toNat.testBit j || decide (j = i)) := by
  rw [UInt8.toNat_or, Nat.testBit_or, testBit_bit hi hj]

/-- The padding mask is zero on a byte exactly when the byte's high bits are. -/
theorem and_mask_eq_zero (byte : UInt8) {k : ℕ} (hk : k < 8) :
    byte &&& (0xff <<< UInt8.ofNat k) = 0 ↔ ∀ i, k ≤ i → i < 8 → byte.toNat.testBit i = false := by
  rw [and_eq_zero]
  constructor
  · intro h i hki hi
    rw [Bool.eq_false_iff]
    intro hbit
    have hclear := h i hi hbit
    rw [testBit_mask hk hi, decide_eq_false_iff_not] at hclear
    exact hclear hki
  · intro h i hi hbit
    rw [testBit_mask hk hi, decide_eq_false_iff_not]
    intro hki
    rw [h i hki hi] at hbit
    cases hbit

/-- **The padding check** accepts a byte string that ends in its last partial byte exactly when no
bit from `bitCount` on is set. -/
theorem hasPadding_eq_false {data : List UInt8} {bitCount : ℕ}
    (hlen : data.length = bytesFor bitCount) (hused : bitCount % 8 ≠ 0) :
    hasPadding data (bitCount % 8) = false ↔ ∀ i, bitCount ≤ i → bitAt data i = false := by
  have hpos : data ≠ [] := by
    intro hnil
    rw [hnil, List.length_nil, bytesFor] at hlen
    omega
  have hlast : data.getLast? = some (data.getD (bitCount / 8) 0) := by
    rw [List.getLast?_eq_getElem?, List.getD_eq_getElem?_getD]
    have hidx : data.length - 1 = bitCount / 8 := by
      rw [hlen, bytesFor]
      omega
    have hlt : bitCount / 8 < data.length := by
      rw [hlen, bytesFor]
      omega
    rw [hidx, List.getElem?_eq_getElem hlt]
    rfl
  rw [hasPadding, hlast]
  simp only [bne_eq_false_iff_eq, and_mask_eq_zero _ (Nat.mod_lt bitCount (by omega : 8 > 0))]
  constructor
  · intro h i hi
    rcases Nat.lt_or_ge i (8 * data.length) with hlt | hge
    · have hdiv : i / 8 = bitCount / 8 := by
        rw [hlen, bytesFor] at hlt
        omega
      rw [bitAt, hdiv]
      exact h (i % 8) (by omega) (by omega)
    · exact bitAt_eq_false hge
  · intro h i hki hi
    have hbit := h (8 * (bitCount / 8) + i) (by omega)
    rw [bitAt, Nat.mul_add_div (by omega), Nat.mul_add_mod, Nat.div_eq_of_lt hi,
      Nat.mod_eq_of_lt hi, Nat.add_zero] at hbit
    exact hbit

/-! ### The encoder packs -/

@[simp] theorem length_setBit (out : List UInt8) (index : ℕ) :
    (setBit out index).length = out.length := List.length_modify ..

/-- Setting one bit changes that bit only. -/
theorem bitAt_setBit {out : List UInt8} {index : ℕ} (hindex : index / 8 < out.length) (i : ℕ) :
    bitAt (setBit out index) i = (bitAt out i || decide (i = index)) := by
  have hmod : index % 8 < 8 := Nat.mod_lt _ (by omega)
  have hmod' : i % 8 < 8 := Nat.mod_lt _ (by omega)
  rw [bitAt, bitAt, setBit, List.getD_eq_getElem?_getD, List.getD_eq_getElem?_getD,
    List.getElem?_modify]
  by_cases hbyte : index / 8 = i / 8
  · simp only [if_pos hbyte]
    rw [← hbyte, List.getElem?_eq_getElem hindex]
    simp only [Option.map_eq_map, Option.map_some, Option.getD_some]
    rw [testBit_or_bit _ hmod hmod']
    congr 1
    rw [decide_eq_decide]
    omega
  · simp only [if_neg hbyte]
    have hne : decide (i = index) = false := by
      rw [decide_eq_false_iff_not]
      intro h
      exact hbyte (by rw [h])
    simp [hne]

/-- The loop sets the bits of the list, shifted to where the list starts. -/
theorem bitAt_foldl (bits : List Bool) (k : ℕ) (out : List UInt8)
    (hout : k + bits.length ≤ 8 * out.length) (i : ℕ) :
    bitAt ((bits.zipIdx k).foldl (fun out bit => if bit.1 then setBit out bit.2 else out) out) i =
      (bitAt out i || decide (k ≤ i) && bits.getD (i - k) false) := by
  induction bits generalizing k out with
  | nil => simp
  | cons bit bits ih =>
      rw [List.length_cons] at hout
      have hstep : bitAt (if bit then setBit out k else out) i =
          (bitAt out i || decide (i = k) && bit) := by
        cases bit with
        | false => simp
        | true =>
            rw [if_pos rfl, bitAt_setBit (by omega), Bool.and_true]
      have hlen : (if bit then setBit out k else out).length = out.length := by
        cases bit <;> simp
      rw [List.zipIdx_cons, List.foldl_cons, ih (k + 1) _ (by rw [hlen]; omega), hstep]
      rcases Nat.lt_trichotomy i k with hlt | heq | hgt
      · simp [show ¬k ≤ i by omega, show ¬k + 1 ≤ i by omega, show i ≠ k by omega]
      · simp [heq]
      · obtain ⟨j, rfl⟩ : ∃ j, i = k + 1 + j := ⟨i - (k + 1), by omega⟩
        have hsub : k + 1 + j - k = j + 1 := by omega
        simp [hsub, show k ≤ k + 1 + j by omega, show k + 1 + j ≠ k by omega]

theorem length_foldl (bits : List (Bool × ℕ)) (out : List UInt8) :
    (bits.foldl (fun out bit => if bit.1 then setBit out bit.2 else out) out).length =
      out.length := by
  induction bits generalizing out with
  | nil => rfl
  | cons bit bits ih =>
      rw [List.foldl_cons, ih]
      split <;> simp

/-- **The encoder's loop packs the bits.** -/
theorem encode_eq_packBits (bits : List Bool) : encode bits = packBits bits := by
  have hlen : (encode bits).length = bytesFor bits.length := by
    rw [encode, length_foldl, List.length_replicate]
    rfl
  refine eq_packBits hlen fun i => ?_
  have hzero : bitAt (List.replicate ((bits.length + 7) / 8) 0) i = false := by
    rw [bitAt, List.getD_eq_getElem?_getD, List.getElem?_replicate]
    split <;> exact Nat.zero_testBit _
  rw [encode, bitAt_foldl bits 0 _ (by rw [List.length_replicate]; omega), hzero]
  simp

@[simp] theorem length_encode (bits : List Bool) : (encode bits).length = bytesFor bits.length := by
  rw [encode_eq_packBits, length_packBits]

/-! ### Exactness -/

theorem rejectNonZeroPadding_ok {data : List UInt8} {bitCount : ℕ}
    (hlen : data.length = bytesFor bitCount) :
    rejectNonZeroPadding data bitCount = .ok () ↔ ∀ i, bitCount ≤ i → bitAt data i = false := by
  unfold rejectNonZeroPadding
  simp only
  split
  · rename_i hused
    simp only [true_iff]
    intro i hi
    refine bitAt_eq_false ?_
    rw [hlen, bytesFor]
    omega
  · rename_i hused
    rw [failIf_ok, Bool.not_eq_true, hasPadding_eq_false hlen hused]

/-- **Decoding is exact**: the bits that a byte string decodes to are those it is the encoding
of. -/
theorem decode_ok {data : List UInt8} {bitCount : ℕ} {bits : List Bool} :
    decode data bitCount = .ok bits ↔ data = encode bits ∧ bits.length = bitCount := by
  simp only [decode, bind_ok, failIf_ok, not_not, pure_ok]
  have hbit : ∀ index, (data.getD (index / 8) 0 &&& (1 <<< UInt8.ofNat (index % 8)) != 0) =
      bitAt data index := fun index => and_bit_ne_zero _ (Nat.mod_lt _ (by omega))
  simp only [hbit, encode_eq_packBits]
  constructor
  · intro h
    obtain ⟨_, hlen, _, hpad, rfl⟩ := h
    rw [rejectNonZeroPadding_ok hlen] at hpad
    refine ⟨eq_packBits (by simpa [bytesFor] using hlen) fun i => ?_, by simp⟩
    rcases Nat.lt_or_ge i bitCount with hlt | hge
    · rw [List.getD_eq_getElem?_getD, List.getElem?_map, List.getElem?_range hlt]
      rfl
    · rw [hpad i hge, List.getD_eq_default _ _ (by simpa using hge)]
  · intro h
    obtain ⟨rfl, rfl⟩ := h
    have hlen := length_packBits bits
    refine ⟨(), hlen, (), (rejectNonZeroPadding_ok hlen).2 fun i hi => ?_, ?_⟩
    · rw [bitAt_packBits, List.getD_eq_default _ _ hi]
    · refine List.ext_getElem (by simp) fun i hi hi' => ?_
      rw [List.getElem_map, List.getElem_range, bitAt_packBits, List.getD_eq_getElem _ _ hi']

theorem decode_encode (bits : List Bool) : decode (encode bits) bits.length = .ok bits :=
  decode_ok.2 ⟨rfl, rfl⟩

end CompactCore.Bitmap
