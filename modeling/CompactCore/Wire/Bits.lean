/-
**Bits of a byte string, least significant first.**

Formats that store values narrower than a byte number the bits of a byte string: bit `i` is bit
`i % 8` of byte `i / 8`.  Read as a little-endian number, the string has exactly these binary
digits, and that is how this module reasons about them: a list of bits is a number, packing it is
writing the number's little-endian bytes, and a field is a quotient and a remainder.

Main definitions:

* `Wire.ofBits` — the number with the given binary digits;
* `Wire.bitAt` — bit `i` of a byte string;
* `Wire.packBits` — the bytes of a list of bits, padded with zero bits;
* `Wire.field` — the number in the `w` bits from bit `o` on.

Main results:

* `Wire.bitAt_packBits` — packed bits are read back;
* `Wire.eq_packBits` — a byte string of the right length with the right bits is the packing;
* `Wire.field_succ` — a field one bit wider has one more binary digit.
-/

import CompactCore.Wire.Bytes

set_option relaxedAutoImplicit false
set_option autoImplicit false

namespace Wire

/-! ### Bits as a number -/

/-- The number whose binary digits, least significant first, are given. -/
def ofBits : List Bool → ℕ
  | [] => 0
  | b :: bs => b.toNat + 2 * ofBits bs

@[simp] theorem ofBits_nil : ofBits [] = 0 := rfl

@[simp] theorem ofBits_cons (b : Bool) (bs : List Bool) :
    ofBits (b :: bs) = b.toNat + 2 * ofBits bs := rfl

theorem ofBits_lt (bits : List Bool) : ofBits bits < 2 ^ bits.length := by
  induction bits with
  | nil => simp
  | cons b bits ih =>
      have hb := b.toNat_le
      rw [ofBits_cons, List.length_cons, pow_succ]
      omega

theorem ofBits_append (as bs : List Bool) :
    ofBits (as ++ bs) = ofBits as + 2 ^ as.length * ofBits bs := by
  induction as with
  | nil => simp
  | cons a as ih =>
      rw [List.cons_append, ofBits_cons, ih, ofBits_cons, List.length_cons, pow_succ]
      ring

/-- The digits of `ofBits` are the bits. -/
theorem testBit_ofBits (bits : List Bool) (i : ℕ) :
    (ofBits bits).testBit i = bits.getD i false := by
  induction bits generalizing i with
  | nil => simp
  | cons b bits ih =>
      have hb : b.toNat < 2 ^ 1 := by
        have := b.toNat_le
        omega
      have hsum : b.toNat + 2 * ofBits bits = 2 ^ 1 * ofBits bits + b.toNat := by ring
      rw [ofBits_cons, hsum, Nat.testBit_two_pow_mul_add _ hb]
      cases i with
      | zero => cases b <;> rfl
      | succ i => simpa using ih i

/-! ### Bits of a byte string -/

/-- Bit `i` of a byte string. -/
def bitAt (data : List UInt8) (i : ℕ) : Bool := (data.getD (i / 8) 0).toNat.testBit (i % 8)

theorem bitAt_eq_testBit (data : List UInt8) (i : ℕ) : bitAt data i = (leNat data).testBit i :=
  (testBit_leNat data i).symm

theorem bitAt_eq_false {data : List UInt8} {i : ℕ} (h : 8 * data.length ≤ i) :
    bitAt data i = false := by
  have hnone : data.getD (i / 8) 0 = 0 := by
    rw [List.getD_eq_getElem?_getD, List.getElem?_eq_none (by omega)]
    rfl
  rw [bitAt, hnone]
  exact Nat.zero_testBit _

/-- A byte string is determined by its length and its bits. -/
theorem ext_bitAt {as bs : List UInt8} (hlen : as.length = bs.length)
    (h : ∀ i, bitAt as i = bitAt bs i) : as = bs := by
  refine leNat_inj hlen (Nat.eq_of_testBit_eq fun i => ?_)
  rw [← bitAt_eq_testBit, ← bitAt_eq_testBit, h i]

/-- The number of bytes that hold `n` bits. -/
def bytesFor (n : ℕ) : ℕ := (n + 7) / 8

theorem le_bytesFor (n : ℕ) : n ≤ 8 * bytesFor n := by
  unfold bytesFor
  omega

/-- The bytes of a list of bits, padded with zero bits. -/
def packBits (bits : List Bool) : List UInt8 := leBytes (bytesFor bits.length) (ofBits bits)

@[simp] theorem length_packBits (bits : List Bool) :
    (packBits bits).length = bytesFor bits.length := length_leBytes ..

theorem leNat_packBits (bits : List Bool) : leNat (packBits bits) = ofBits bits := by
  refine leNat_leBytes (lt_of_lt_of_le (ofBits_lt bits) ?_)
  have h256 : (256 : ℕ) = 2 ^ 8 := rfl
  rw [h256, ← pow_mul]
  exact Nat.pow_le_pow_right (by omega) (le_bytesFor _)

/-- Packed bits are read back, and the padding is zero. -/
theorem bitAt_packBits (bits : List Bool) (i : ℕ) :
    bitAt (packBits bits) i = bits.getD i false := by
  rw [bitAt_eq_testBit, leNat_packBits, testBit_ofBits]

/-- A byte string of the right length with the right bits is the packing of those bits. -/
theorem eq_packBits {data : List UInt8} {bits : List Bool}
    (hlen : data.length = bytesFor bits.length)
    (h : ∀ i, bitAt data i = bits.getD i false) : data = packBits bits :=
  ext_bitAt (by rw [hlen, length_packBits]) fun i => by rw [h i, bitAt_packBits]

/-! ### Fields -/

/-- The number held by the `w` bits from bit `o` on. -/
def field (data : List UInt8) (o w : ℕ) : ℕ := leNat data / 2 ^ o % 2 ^ w

theorem field_zero (data : List UInt8) (o : ℕ) : field data o 0 = 0 := by
  rw [field, pow_zero, Nat.mod_one]

/-- A field one bit wider has one more binary digit, at its high end. -/
theorem field_succ (data : List UInt8) (o w : ℕ) :
    field data o (w + 1) = field data o w + 2 ^ w * (bitAt data (o + w)).toNat := by
  have hbit : leNat data / 2 ^ o / 2 ^ w % 2 = (bitAt data (o + w)).toNat := by
    rw [bitAt_eq_testBit, Nat.testBit_eq_decide_div_mod_eq, Nat.div_div_eq_div_mul, ← pow_add]
    have hlt := Nat.mod_lt (leNat data / 2 ^ (o + w)) (show 2 > 0 by omega)
    rcases Nat.lt_or_ge (leNat data / 2 ^ (o + w) % 2) 1 with h | h
    · have hz : leNat data / 2 ^ (o + w) % 2 = 0 := by omega
      simp [hz]
    · have hz : leNat data / 2 ^ (o + w) % 2 = 1 := by omega
      simp [hz]
  rw [field, field, pow_succ, Nat.mod_mul, hbit]

end Wire
