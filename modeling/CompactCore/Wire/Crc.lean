/-
**Cyclic redundancy checks and bursts of damage.**

The register of a reflected 32-bit check takes in a message byte by byte, low bits first.  Taking in
a byte is linear over exclusive or, and taking in a zero byte loses nothing when the polynomial has
its top bit.  So two messages that differ, but only within four bytes, leave different registers;
that is what a stored check is good for.

Main definitions:

* `Wire.Crc.shift`, `Wire.Crc.feed` — the register, bit by bit and byte by byte;
* `Wire.Crc.ieee` — the CRC-32 of the IEEE polynomial;
* `Wire.Burst` — two byte strings that are the same outside a window.

Main results:

* `Wire.Crc.feed_word` — up to four bytes are taken in as one word;
* `Wire.Crc.feed_inj_of_burst` — **a burst is noticed**: byte strings that differ within four bytes
  leave different registers;
* `Wire.Crc.feed_concat` — a message with its own check behind it leaves a fixed register;
* `Wire.Crc.ieee_inj_of_burst`, `Wire.Crc.concat_inj_of_burst` — the same, of CRC-32.
-/

import CompactCore.Wire.Bytes
import Mathlib.Logic.Function.Basic

set_option relaxedAutoImplicit false
set_option autoImplicit false

namespace Wire

/-! ### Bursts -/

/-- Byte strings of one length that are the same outside the `n` bytes from `p` on. -/
structure Burst (p n : ℕ) (xs ys : List UInt8) : Prop where
  length_eq : xs.length = ys.length
  before : xs.take p = ys.take p
  behind : xs.drop (p + n) = ys.drop (p + n)

namespace Burst

variable {p n : ℕ} {xs ys : List UInt8}

theorem of_set (xs : List UInt8) (p : ℕ) (b : UInt8) : Burst p 1 xs (xs.set p b) :=
  ⟨by rw [List.length_set], by rw [List.take_set_of_le (le_refl p)],
    by rw [List.drop_set_of_lt (Nat.lt_succ_self p)]⟩

theorem take (h : Burst p n xs ys) (k : ℕ) : Burst p n (xs.take k) (ys.take k) := by
  refine ⟨by rw [List.length_take, List.length_take, h.length_eq], ?_, ?_⟩
  · rw [List.take_take, List.take_take, Nat.min_comm, ← List.take_take, h.before, List.take_take]
  · rw [List.drop_take, List.drop_take, h.behind]

theorem drop (h : Burst p n xs ys) (k : ℕ) : Burst (p - k) n (xs.drop k) (ys.drop k) := by
  refine ⟨by rw [List.length_drop, List.length_drop, h.length_eq], ?_, ?_⟩
  · rw [List.take_drop, List.take_drop]
    rcases Nat.le_total k p with hk | hk
    · rw [Nat.add_sub_cancel' hk, h.before]
    · have hzero : k + (p - k) = k := by omega
      have hlen := h.length_eq
      rw [hzero, List.drop_of_length_le (by simp), List.drop_of_length_le (by simp)]
  · have hdrop : k + (p - k + n) = p + n + (k - p) := by omega
    rw [List.drop_drop, List.drop_drop, hdrop, ← List.drop_drop (i := k - p), h.behind,
      List.drop_drop]

/-- What sits in front of the window sits in both. -/
theorem at_before (h : Burst p n xs ys) {c : ℕ} {bs : List UInt8} (hat : At xs c bs)
    (hc : c + bs.length ≤ p) : At ys c bs := by
  have hcut := hat.take hc
  rw [h.before] at hcut
  exact hcut.of_take

/-- What sits behind the window sits in both. -/
theorem at_behind (h : Burst p n xs ys) {c : ℕ} {bs : List UInt8} (hat : At xs c bs)
    (hc : p + n ≤ c) : At ys c bs := by
  obtain ⟨d, rfl⟩ := Nat.exists_eq_add_of_le hc
  have hle := hat.le
  rw [at_iff_drop, ← List.drop_drop, h.behind, List.drop_drop] at hat
  exact at_iff_drop.2 ⟨by rw [← h.length_eq]; exact hat.1, hat.2⟩

/-- A window that is wholly behind a byte string, or wholly in front of it, has nothing in it. -/
theorem eq_of_outside (h : Burst p n xs ys) (hout : xs.length ≤ p ∨ n = 0) : xs = ys := by
  rcases hout with hle | rfl
  · have hbefore := h.before
    rwa [List.take_of_length_le hle, List.take_of_length_le (h.length_eq ▸ hle)] at hbefore
  · rw [← List.take_append_drop p xs, ← List.take_append_drop p ys, h.before]
    exact congrArg _ h.behind

end Burst

/-! ### The register -/

namespace Crc

/-- Shift a bit out of the register, and reduce by the reflected polynomial. -/
def shift (poly c : BitVec 32) : BitVec 32 := if c.getLsbD 0 then (c >>> 1) ^^^ poly else c >>> 1

def shifts (poly : BitVec 32) : ℕ → BitVec 32 → BitVec 32
  | 0, c => c
  | k + 1, c => shifts poly k (shift poly c)

def feedByte (poly c : BitVec 32) (b : UInt8) : BitVec 32 :=
  shifts poly 8 (c ^^^ BitVec.ofNat 32 b.toNat)

/-- The register after a message. -/
def feed (poly c : BitVec 32) (data : List UInt8) : BitVec 32 := data.foldl (feedByte poly) c

variable {poly : BitVec 32}

@[simp] theorem feed_nil (c : BitVec 32) : feed poly c [] = c := rfl

theorem feed_cons (c : BitVec 32) (b : UInt8) (data : List UInt8) :
    feed poly c (b :: data) = feed poly (feedByte poly c b) data := rfl

theorem feed_append (c : BitVec 32) (data more : List UInt8) :
    feed poly c (data ++ more) = feed poly (feed poly c data) more := List.foldl_append

/-! ### Shifting is linear -/

theorem shift_xor (a b : BitVec 32) : shift poly (a ^^^ b) = shift poly a ^^^ shift poly b := by
  unfold shift
  rw [BitVec.getLsbD_xor, BitVec.ushiftRight_xor_distrib]
  cases a.getLsbD 0 <;> cases b.getLsbD 0 <;> simp only [Bool.xor_false, Bool.xor_true,
    Bool.not_false, Bool.not_true, Bool.false_eq_true, if_true, if_false]
  · rw [BitVec.xor_assoc]
  · rw [BitVec.xor_assoc, BitVec.xor_assoc, BitVec.xor_comm poly]
  · -- the polynomial is added twice
    rw [BitVec.xor_assoc, ← BitVec.xor_assoc poly, BitVec.xor_comm poly, BitVec.xor_assoc,
      BitVec.xor_self, BitVec.xor_zero]

theorem shifts_xor (k : ℕ) (a b : BitVec 32) :
    shifts poly k (a ^^^ b) = shifts poly k a ^^^ shifts poly k b := by
  induction k generalizing a b with
  | zero => rfl
  | succ k ih => rw [shifts, shift_xor, ih, shifts, shifts]

theorem shifts_add (j k : ℕ) (c : BitVec 32) :
    shifts poly (j + k) c = shifts poly k (shifts poly j c) := by
  induction j generalizing c with
  | zero => rw [Nat.zero_add, shifts]
  | succ j ih => rw [Nat.succ_add, shifts, ih, shifts]

/-! ### Shifting loses nothing -/

/-- The top bit of the polynomial tells whether a bit was shifted out. -/
theorem shift_eq_zero (hpoly : poly.getLsbD 31 = true) {c : BitVec 32} (h : shift poly c = 0#32) :
    c = 0#32 := by
  unfold shift at h
  split at h
  · have htop := congrArg (fun x : BitVec 32 => x.getLsbD 31) h
    have hshifted : (c >>> 1).getLsbD 31 = false := by
      rw [BitVec.getLsbD_ushiftRight, BitVec.getLsbD_of_ge _ _ (le_refl 32)]
    rw [BitVec.getLsbD_xor, hpoly, hshifted, BitVec.getLsbD_zero] at htop
    cases htop
  · rename_i hlow
    rw [Bool.not_eq_true] at hlow
    refine BitVec.eq_of_getLsbD_eq fun i hi => ?_
    rw [BitVec.getLsbD_zero]
    cases i with
    | zero => exact hlow
    | succ i =>
        have hbit := congrArg (fun x : BitVec 32 => x.getLsbD i) h
        rw [BitVec.getLsbD_ushiftRight, BitVec.getLsbD_zero, Nat.add_comm] at hbit
        exact hbit

theorem eq_of_xor_eq_zero {a b : BitVec 32} (h : a ^^^ b = 0#32) : a = b := by
  have hxor : a ^^^ b ^^^ b = b := by rw [h, BitVec.zero_xor]
  rwa [BitVec.xor_assoc, BitVec.xor_self, BitVec.xor_zero] at hxor

theorem shift_injective (hpoly : poly.getLsbD 31 = true) : Function.Injective (shift poly) := by
  intro a b h
  refine eq_of_xor_eq_zero (shift_eq_zero hpoly ?_)
  rw [shift_xor, h, BitVec.xor_self]

theorem shifts_injective (hpoly : poly.getLsbD 31 = true) (k : ℕ) :
    Function.Injective (shifts poly k) := by
  induction k with
  | zero => exact fun _ _ h => h
  | succ k ih => exact fun _ _ h => shift_injective hpoly (ih h)

theorem feedByte_injective (hpoly : poly.getLsbD 31 = true) (b : UInt8) :
    Function.Injective fun c => feedByte poly c b := by
  intro c c' h
  have hxor := shifts_injective hpoly 8 h
  exact (BitVec.xor_left_inj _).1 hxor

/-- Whatever follows, different registers stay different. -/
theorem feed_injective (hpoly : poly.getLsbD 31 = true) (data : List UInt8) :
    Function.Injective fun c => feed poly c data := by
  induction data with
  | nil => exact fun _ _ h => h
  | cons b data ih => exact fun _ _ h => feedByte_injective hpoly b (ih h)

/-! ### Words -/

/-- A number that is shifted up, and then shifted out again without a bit set. -/
theorem shifts_mul (poly : BitVec 32) (k n : ℕ) (h : n * 2 ^ k < 2 ^ 32) :
    shifts poly k (BitVec.ofNat 32 (n * 2 ^ k)) = BitVec.ofNat 32 n := by
  induction k generalizing n with
  | zero => rw [pow_zero, Nat.mul_one, shifts]
  | succ k ih =>
      have hdouble : n * 2 ^ (k + 1) = 2 * (n * 2 ^ k) := by ring
      have hlow : (BitVec.ofNat 32 (2 * (n * 2 ^ k))).getLsbD 0 = false := by
        rw [BitVec.getLsbD_ofNat, Nat.testBit_zero, Nat.mul_mod_right]
        rfl
      have hhalf : BitVec.ofNat 32 (2 * (n * 2 ^ k)) >>> 1 = BitVec.ofNat 32 (n * 2 ^ k) := by
        apply BitVec.eq_of_toNat_eq
        rw [BitVec.toNat_ushiftRight, BitVec.toNat_ofNat, BitVec.toNat_ofNat,
          Nat.shiftRight_eq_div_pow]
        rw [hdouble] at h
        rw [Nat.mod_eq_of_lt h, Nat.mod_eq_of_lt (by omega)]
        omega
      rw [hdouble] at h
      rw [shifts, hdouble, shift, hlow, if_neg Bool.false_ne_true, hhalf, ih n (by omega)]

/-- The bytes of a word take up different bits. -/
theorem ofNat_xor_ofNat (b : UInt8) (n : ℕ) :
    BitVec.ofNat 32 b.toNat ^^^ BitVec.ofNat 32 (n * 2 ^ 8) =
      BitVec.ofNat 32 (b.toNat + 256 * n) := by
  have hb : b.toNat < 2 ^ 8 := b.toNat_lt
  have hsum : b.toNat + 256 * n = 2 ^ 8 * n + b.toNat := by omega
  refine BitVec.eq_of_getLsbD_eq fun i hi => ?_
  rw [BitVec.getLsbD_xor, BitVec.getLsbD_ofNat, BitVec.getLsbD_ofNat, BitVec.getLsbD_ofNat, hsum,
    Nat.testBit_two_pow_mul_add _ hb, Nat.mul_comm n, Nat.testBit_two_pow_mul]
  by_cases h8 : i < 8
  · simp [h8, hi, Nat.not_le.2 h8]
  · have hhigh : b.toNat.testBit i = false :=
      Nat.testBit_lt_two_pow (lt_of_lt_of_le hb (Nat.pow_le_pow_right (by omega) (by omega)))
    simp [h8, hi, hhigh, Nat.not_lt.1 h8]

/-- **Up to four bytes are taken in as one word.** -/
theorem feed_word (c : BitVec 32) {data : List UInt8} (h : data.length ≤ 4) :
    feed poly c data = shifts poly (8 * data.length) (c ^^^ BitVec.ofNat 32 (leNat data)) := by
  induction data generalizing c with
  | nil => rw [feed_nil, leNat_nil, List.length_nil, shifts, BitVec.xor_zero]
  | cons b data ih =>
      rw [List.length_cons] at h
      have hlt : leNat data < 256 ^ 3 :=
        lt_of_lt_of_le (leNat_lt data) (Nat.pow_le_pow_right (by omega) (by omega))
      have hup := shifts_mul poly 8 (leNat data) (by omega)
      rw [feed_cons, ih _ (by omega), feedByte, ← hup, ← shifts_xor, BitVec.xor_assoc,
        ofNat_xor_ofNat, ← shifts_add, List.length_cons, leNat_cons]
      congr 1
      omega

theorem feed_inj_of_word (hpoly : poly.getLsbD 31 = true) {c : BitVec 32} {xs ys : List UInt8}
    (hlen : xs.length = ys.length) (h4 : xs.length ≤ 4) (h : feed poly c xs = feed poly c ys) :
    xs = ys := by
  rw [feed_word c h4, feed_word c (hlen ▸ h4), hlen] at h
  have hword := (BitVec.xor_right_inj _).1 (shifts_injective hpoly _ h)
  have hbound : ∀ zs : List UInt8, zs.length ≤ 4 → leNat zs < 2 ^ 32 := fun zs hzs =>
    lt_of_lt_of_le (leNat_lt zs) (Nat.pow_le_pow_right (show 0 < 256 by omega) hzs)
  refine leNat_inj hlen ?_
  have hnat := congrArg BitVec.toNat hword
  rwa [BitVec.toNat_ofNat, BitVec.toNat_ofNat, Nat.mod_eq_of_lt (hbound xs h4),
    Nat.mod_eq_of_lt (hbound ys (hlen ▸ h4))] at hnat

/-- **A burst is noticed**: byte strings that differ, within four bytes, leave different
registers. -/
theorem feed_inj_of_burst (hpoly : poly.getLsbD 31 = true) {p n : ℕ} (hn : n ≤ 4) {c : BitVec 32}
    {xs ys : List UInt8} (hburst : Burst p n xs ys) (h : feed poly c xs = feed poly c ys) :
    xs = ys := by
  have hsplit : ∀ zs : List UInt8, zs = zs.take p ++ ((zs.drop p).take n ++ zs.drop (p + n)) := by
    intro zs
    rw [← List.drop_drop, List.take_append_drop, List.take_append_drop]
  rw [hsplit xs, hsplit ys, hburst.before, hburst.behind, feed_append, feed_append, feed_append,
    feed_append] at h
  -- the registers are the same before the window, and behind it they were the same at its end
  have hwindow := feed_inj_of_word hpoly (by simp [hburst.length_eq]) (by simp; omega)
    (feed_injective hpoly _ h)
  rw [hsplit xs, hsplit ys, hburst.before, hburst.behind, hwindow]

/-- **A message with its own check behind it** leaves a register that does not depend on it. -/
theorem feed_concat (c out : BitVec 32) (data : List UInt8) :
    feed poly c (data ++ leBytes 4 (feed poly c data ^^^ out).toNat) = shifts poly 32 out := by
  have hlt : (feed poly c data ^^^ out).toNat < 256 ^ 4 := (feed poly c data ^^^ out).isLt
  rw [feed_append, feed_word _ (by rw [length_leBytes]), length_leBytes, leNat_leBytes hlt,
    BitVec.ofNat_toNat, BitVec.setWidth_eq, ← BitVec.xor_assoc, BitVec.xor_self, BitVec.zero_xor]

/-! ### The check of the IEEE polynomial -/

/-- The reflected IEEE polynomial. -/
def ieeePoly : BitVec 32 := 0xEDB88320#32

/-- CRC-32: the register starts with all bits set, and all bits are flipped in the end. -/
def ieee (data : List UInt8) : UInt32 :=
  UInt32.ofBitVec (feed ieeePoly (BitVec.allOnes 32) data ^^^ BitVec.allOnes 32)

theorem ieeePoly_top : ieeePoly.getLsbD 31 = true := by decide

/-- CRC-32 tells byte strings apart that differ within four bytes. -/
theorem ieee_inj_of_burst {p n : ℕ} (hn : n ≤ 4) {xs ys : List UInt8} (hburst : Burst p n xs ys)
    (h : ieee xs = ieee ys) : xs = ys := by
  have hxor := congrArg UInt32.toBitVec h
  exact feed_inj_of_burst ieeePoly_top hn hburst ((BitVec.xor_left_inj _).1 hxor)

/-- So does a record that ends in its CRC-32, wherever the burst is. -/
theorem concat_inj_of_burst {p n : ℕ} (hn : n ≤ 4) {xs ys : List UInt8}
    (hburst : Burst p n (xs ++ le32 (ieee xs)) (ys ++ le32 (ieee ys))) :
    xs ++ le32 (ieee xs) = ys ++ le32 (ieee ys) := by
  refine feed_inj_of_burst ieeePoly_top hn (c := BitVec.allOnes 32) hburst ?_
  have hres : ∀ zs, feed ieeePoly (BitVec.allOnes 32) (zs ++ le32 (ieee zs)) =
      shifts ieeePoly 32 (BitVec.allOnes 32) := fun zs => feed_concat _ _ zs
  rw [hres, hres]

end Crc

end Wire
