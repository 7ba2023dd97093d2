/-
**Little-endian integers and byte strings.**

A binary format is a way of laying integers and byte strings end to end.  This module has the two
facts every such layout rests on: a natural number and its little-endian bytes determine each
other, and a byte string *sits at* an offset of a larger one.

Main definitions:

* `Wire.leBytes`, `Wire.leNat` — a number as a fixed number of little-endian bytes, and back;
* `Wire.At` — `At data c bs` says that `bs` occupies the bytes of `data` from offset `c` on.

Main results:

* `Wire.leNat_leBytes`, `Wire.leBytes_leNat` — the two directions of the round trip;
* `Wire.testBit_leNat` — bit `i` of the number is bit `i % 8` of byte `i / 8`;
* `Wire.at_append` — a concatenation sits at `c` exactly when its parts sit one after the other;
* `Wire.At.eq_of_length` — what sits at an offset is determined by its length.
-/

import Mathlib.Data.List.Infix
import Mathlib.Data.Nat.Bitwise
import Mathlib.Tactic.Ring

set_option relaxedAutoImplicit false
set_option autoImplicit false

namespace Wire

/-! ### Little-endian numbers -/

/-- The `k` low bytes of `n`, least significant first. -/
def leBytes : ℕ → ℕ → List UInt8
  | 0, _ => []
  | k + 1, n => UInt8.ofNat n :: leBytes k (n / 256)

/-- The number whose little-endian bytes are given. -/
def leNat : List UInt8 → ℕ
  | [] => 0
  | b :: bs => b.toNat + 256 * leNat bs

@[simp] theorem leBytes_zero (n : ℕ) : leBytes 0 n = [] := rfl

theorem leBytes_succ (k n : ℕ) : leBytes (k + 1) n = UInt8.ofNat n :: leBytes k (n / 256) := rfl

@[simp] theorem leNat_nil : leNat [] = 0 := rfl

@[simp] theorem leNat_cons (b : UInt8) (bs : List UInt8) :
    leNat (b :: bs) = b.toNat + 256 * leNat bs := rfl

@[simp] theorem length_leBytes (k n : ℕ) : (leBytes k n).length = k := by
  induction k generalizing n with
  | zero => rfl
  | succ k ih => simp [leBytes_succ, ih]

theorem leNat_lt (bs : List UInt8) : leNat bs < 256 ^ bs.length := by
  induction bs with
  | nil => simp
  | cons b bs ih =>
      have hb : b.toNat < 256 := b.toNat_lt
      rw [leNat_cons, List.length_cons, pow_succ]
      omega

theorem leNat_leBytes_mod (k n : ℕ) : leNat (leBytes k n) = n % 256 ^ k := by
  induction k generalizing n with
  | zero => simp [Nat.mod_one]
  | succ k ih =>
      have hpow : 256 ^ (k + 1) = 256 * 256 ^ k := by rw [pow_succ, mul_comm]
      rw [leBytes_succ, leNat_cons, ih, UInt8.toNat_ofNat', hpow, Nat.mod_mul]

/-- Reading back a number that fits. -/
theorem leNat_leBytes {k n : ℕ} (h : n < 256 ^ k) : leNat (leBytes k n) = n := by
  rw [leNat_leBytes_mod, Nat.mod_eq_of_lt h]

/-- Writing back the number that was read. -/
theorem leBytes_leNat (bs : List UInt8) : leBytes bs.length (leNat bs) = bs := by
  induction bs with
  | nil => rfl
  | cons b bs ih =>
      have hb : b.toNat < 256 := b.toNat_lt
      have hdiv : (b.toNat + 256 * leNat bs) / 256 = leNat bs := by omega
      have hmod : UInt8.ofNat (b.toNat + 256 * leNat bs) = b := by
        rw [← UInt8.toNat_inj, UInt8.toNat_ofNat']
        omega
      rw [List.length_cons, leBytes_succ, leNat_cons, hdiv, hmod, ih]

theorem leNat_inj {as bs : List UInt8} (hlen : as.length = bs.length)
    (h : leNat as = leNat bs) : as = bs := by
  rw [← leBytes_leNat as, ← leBytes_leNat bs, hlen, h]

theorem leNat_append (as bs : List UInt8) :
    leNat (as ++ bs) = leNat as + 256 ^ as.length * leNat bs := by
  induction as with
  | nil => simp
  | cons a as ih =>
      rw [List.cons_append, leNat_cons, ih, leNat_cons, List.length_cons, pow_succ]
      ring

/-- Bit `i` of a little-endian number is bit `i % 8` of its byte `i / 8`. -/
theorem testBit_leNat (bs : List UInt8) (i : ℕ) :
    (leNat bs).testBit i = (bs.getD (i / 8) 0).toNat.testBit (i % 8) := by
  induction bs generalizing i with
  | nil => simp
  | cons b bs ih =>
      have hb : b.toNat < 2 ^ 8 := b.toNat_lt
      have hsum : b.toNat + 256 * leNat bs = 2 ^ 8 * leNat bs + b.toNat := by ring
      rw [leNat_cons, hsum, Nat.testBit_two_pow_mul_add _ hb]
      by_cases hi : i < 8
      · rw [if_pos hi, Nat.div_eq_of_lt hi, Nat.mod_eq_of_lt hi]
        rfl
      · have hdiv : i / 8 = (i - 8) / 8 + 1 := by omega
        have hmod : i % 8 = (i - 8) % 8 := by omega
        rw [if_neg hi, ih, hdiv, hmod]
        rfl

/-! ### Machine words -/

/-- `u16::to_le_bytes`. -/
def le16 (v : UInt16) : List UInt8 := leBytes 2 v.toNat

/-- `u32::to_le_bytes`. -/
def le32 (v : UInt32) : List UInt8 := leBytes 4 v.toNat

/-- `u64::to_le_bytes`. -/
def le64 (v : UInt64) : List UInt8 := leBytes 8 v.toNat

/-- `u16::from_le_bytes`. -/
def u16OfLe (bs : List UInt8) : UInt16 := UInt16.ofNat (leNat bs)

/-- `u32::from_le_bytes`. -/
def u32OfLe (bs : List UInt8) : UInt32 := UInt32.ofNat (leNat bs)

/-- `u64::from_le_bytes`. -/
def u64OfLe (bs : List UInt8) : UInt64 := UInt64.ofNat (leNat bs)

@[simp] theorem length_le16 (v : UInt16) : (le16 v).length = 2 := length_leBytes ..

@[simp] theorem length_le32 (v : UInt32) : (le32 v).length = 4 := length_leBytes ..

@[simp] theorem length_le64 (v : UInt64) : (le64 v).length = 8 := length_leBytes ..

theorem leNat_le16 (v : UInt16) : leNat (le16 v) = v.toNat := leNat_leBytes v.toNat_lt

theorem leNat_le32 (v : UInt32) : leNat (le32 v) = v.toNat := leNat_leBytes v.toNat_lt

theorem leNat_le64 (v : UInt64) : leNat (le64 v) = v.toNat := leNat_leBytes v.toNat_lt

@[simp] theorem u16OfLe_le16 (v : UInt16) : u16OfLe (le16 v) = v := by
  rw [u16OfLe, leNat_le16, UInt16.ofNat_toNat]

@[simp] theorem u32OfLe_le32 (v : UInt32) : u32OfLe (le32 v) = v := by
  rw [u32OfLe, leNat_le32, UInt32.ofNat_toNat]

@[simp] theorem u64OfLe_le64 (v : UInt64) : u64OfLe (le64 v) = v := by
  rw [u64OfLe, leNat_le64, UInt64.ofNat_toNat]

theorem le16_u16OfLe {bs : List UInt8} (h : bs.length = 2) : le16 (u16OfLe bs) = bs := by
  have hlt : leNat bs < 2 ^ 16 := by simpa [h] using leNat_lt bs
  rw [le16, u16OfLe, UInt16.toNat_ofNat', Nat.mod_eq_of_lt hlt, ← h, leBytes_leNat]

theorem le32_u32OfLe {bs : List UInt8} (h : bs.length = 4) : le32 (u32OfLe bs) = bs := by
  have hlt : leNat bs < 2 ^ 32 := by simpa [h] using leNat_lt bs
  rw [le32, u32OfLe, UInt32.toNat_ofNat', Nat.mod_eq_of_lt hlt, ← h, leBytes_leNat]

theorem le64_u64OfLe {bs : List UInt8} (h : bs.length = 8) : le64 (u64OfLe bs) = bs := by
  have hlt : leNat bs < 2 ^ 64 := by simpa [h] using leNat_lt bs
  rw [le64, u64OfLe, UInt64.toNat_ofNat', Nat.mod_eq_of_lt hlt, ← h, leBytes_leNat]

/-- Reading a 16-bit word off two bytes. -/
theorem u16OfLe_eq_iff {bs : List UInt8} (h : bs.length = 2) (v : UInt16) :
    u16OfLe bs = v ↔ bs = le16 v := by
  constructor
  · rintro rfl
    exact (le16_u16OfLe h).symm
  · rintro rfl
    exact u16OfLe_le16 v

/-- Reading a 32-bit word off four bytes. -/
theorem u32OfLe_eq_iff {bs : List UInt8} (h : bs.length = 4) (v : UInt32) :
    u32OfLe bs = v ↔ bs = le32 v := by
  constructor
  · rintro rfl
    exact (le32_u32OfLe h).symm
  · rintro rfl
    exact u32OfLe_le32 v

/-- Reading a 64-bit word off eight bytes. -/
theorem u64OfLe_eq_iff {bs : List UInt8} (h : bs.length = 8) (v : UInt64) :
    u64OfLe bs = v ↔ bs = le64 v := by
  constructor
  · rintro rfl
    exact (le64_u64OfLe h).symm
  · rintro rfl
    exact u64OfLe_le64 v

/-- A word is the conversion of its value. -/
theorem eq_ofNat {v : UInt64} {n : ℕ} (h : v.toNat = n) : v = UInt64.ofNat n := by
  rw [← h, UInt64.ofNat_toNat]

theorem toNat_ofNat {n : ℕ} (h : n < 2 ^ 64) : (UInt64.ofNat n).toNat = n := by
  rw [UInt64.toNat_ofNat', Nat.mod_eq_of_lt h]

/-! ### Byte strings at an offset -/

/-- `At data c bs`: the bytes of `data` from offset `c` on begin with `bs`, and `c` is not past
the end of `data`. -/
def At (data : List UInt8) (c : ℕ) (bs : List UInt8) : Prop :=
  c + bs.length ≤ data.length ∧ (data.drop c).take bs.length = bs

instance (data : List UInt8) (c : ℕ) (bs : List UInt8) : Decidable (At data c bs) :=
  inferInstanceAs (Decidable (_ ∧ _))

theorem At.le {data : List UInt8} {c : ℕ} {bs : List UInt8} (h : At data c bs) :
    c + bs.length ≤ data.length := h.1

theorem at_iff_drop {data : List UInt8} {c : ℕ} {bs : List UInt8} :
    At data c bs ↔ c ≤ data.length ∧ bs <+: data.drop c := by
  constructor
  · rintro ⟨hle, heq⟩
    exact ⟨by omega, List.prefix_iff_eq_take.2 heq.symm⟩
  · rintro ⟨hle, hpre⟩
    have hlen := hpre.length_le
    rw [List.length_drop] at hlen
    exact ⟨by omega, (List.prefix_iff_eq_take.1 hpre).symm⟩

/-- A byte string in the middle of a concatenation. -/
theorem at_mid (pre bs post : List UInt8) : At (pre ++ bs ++ post) pre.length bs := by
  refine ⟨by simp, ?_⟩
  rw [List.append_assoc, List.drop_left, List.take_left]

theorem at_iff_exists {data : List UInt8} {c : ℕ} {bs : List UInt8} :
    At data c bs ↔ ∃ pre post, data = pre ++ bs ++ post ∧ pre.length = c := by
  constructor
  · rintro ⟨hle, heq⟩
    refine ⟨data.take c, data.drop (c + bs.length), ?_, by simp; omega⟩
    rw [← List.drop_drop]
    conv_rhs => rw [← heq]
    rw [List.length_take, Nat.min_eq_left (by rw [List.length_drop]; omega), List.append_assoc,
      List.take_append_drop, List.take_append_drop]
  · rintro ⟨pre, post, rfl, rfl⟩
    exact at_mid pre bs post

@[simp] theorem at_nil {data : List UInt8} {c : ℕ} : At data c [] ↔ c ≤ data.length := by
  simp [At]

theorem at_self (data : List UInt8) : At data 0 data := ⟨by simp, by simp⟩

theorem at_append {data : List UInt8} {c : ℕ} {as bs : List UInt8} :
    At data c (as ++ bs) ↔ At data c as ∧ At data (c + as.length) bs := by
  constructor
  · intro h
    obtain ⟨pre, post, rfl, rfl⟩ := at_iff_exists.1 h
    refine ⟨?_, ?_⟩
    · exact at_iff_exists.2 ⟨pre, bs ++ post, by simp, rfl⟩
    · exact at_iff_exists.2 ⟨pre ++ as, post, by simp, by simp⟩
  · rintro ⟨ha, hb⟩
    obtain ⟨pre, post, rfl, rfl⟩ := at_iff_exists.1 ha
    rw [at_iff_drop, ← List.length_append, List.drop_left] at hb
    obtain ⟨-, post', rfl⟩ := hb
    exact at_iff_exists.2 ⟨pre, post', by simp, rfl⟩

theorem at_cons {data : List UInt8} {c : ℕ} {a : UInt8} {bs : List UInt8} :
    At data c (a :: bs) ↔ At data c [a] ∧ At data (c + 1) bs := by
  rw [← List.singleton_append, at_append, List.length_singleton]

/-- Bytes stay where they are when more bytes are appended. -/
theorem At.append_right {data : List UInt8} {c : ℕ} {bs : List UInt8} (h : At data c bs)
    (t : List UInt8) : At (data ++ t) c bs := by
  obtain ⟨pre, post, rfl, rfl⟩ := at_iff_exists.1 h
  exact at_iff_exists.2 ⟨pre, post ++ t, by simp, rfl⟩

/-- Bytes that end before the cut are still there after a truncation. -/
theorem At.take {data : List UInt8} {c n : ℕ} {bs : List UInt8} (h : At data c bs)
    (hn : c + bs.length ≤ n) : At (data.take n) c bs := by
  obtain ⟨pre, post, rfl, rfl⟩ := at_iff_exists.1 h
  refine at_iff_exists.2 ⟨pre, post.take (n - (pre.length + bs.length)), ?_, rfl⟩
  rw [List.take_append, List.take_of_length_le (by simpa using hn), List.length_append]

/-- What sits at an offset of a truncation sits there in the whole. -/
theorem At.of_take {data : List UInt8} {c n : ℕ} {bs : List UInt8} (h : At (data.take n) c bs) :
    At data c bs := by
  have := h.append_right (data.drop n)
  rwa [List.take_append_drop] at this

/-- Two byte strings of one length at one offset are the same. -/
theorem At.eq_of_length {data : List UInt8} {c : ℕ} {as bs : List UInt8} (ha : At data c as)
    (hb : At data c bs) (h : as.length = bs.length) : as = bs := by
  rw [← ha.2, ← hb.2, h]

/-- The bytes between two offsets sit at the first. -/
theorem at_take_drop {data : List UInt8} {c len : ℕ} (h : c + len ≤ data.length) :
    At data c ((data.drop c).take len) := by
  have hlen : ((data.drop c).take len).length = len := by simp; omega
  exact ⟨by rw [hlen]; exact h, by rw [hlen]⟩

/-- What a slice expression returns sits at its offset. -/
theorem at_of_slice {data bs : List UInt8} {c len : ℕ} (hle : c + bs.length ≤ data.length)
    (h : (data.drop c).take len = bs) : At data c bs :=
  at_iff_drop.2 ⟨by omega, by rw [← h]; exact List.take_prefix ..⟩

theorem At.slice {data : List UInt8} {c : ℕ} {bs : List UInt8} (h : At data c bs) :
    (data.drop c).take bs.length = bs := h.2

/-- The byte that an index expression returns sits at the index. -/
theorem at_of_getD {data : List UInt8} {c : ℕ} {b : UInt8} (hc : c < data.length)
    (h : data.getD c 0 = b) : At data c [b] := by
  rw [List.getD_eq_getElem _ _ hc] at h
  refine at_iff_drop.2 ⟨by omega, ?_⟩
  rw [List.drop_eq_getElem_cons hc, h]
  exact List.prefix_append [b] _

theorem At.getD {data : List UInt8} {c : ℕ} {b : UInt8} (h : At data c [b]) :
    data.getD c 0 = b := by
  obtain ⟨pre, post, rfl, rfl⟩ := at_iff_exists.1 h
  rw [List.append_assoc, List.getD_append_right _ _ _ _ (le_refl _), Nat.sub_self]
  rfl

/-- A byte string as long as the whole, at offset 0, is the whole. -/
theorem At.eq_self {data bs : List UInt8} (h : At data 0 bs) (hlen : data.length = bs.length) :
    data = bs := (at_self data).eq_of_length h hlen

theorem At.eq_drop {data : List UInt8} {c : ℕ} {bs : List UInt8} (h : At data c bs) :
    data.drop c = bs ++ data.drop (c + bs.length) := by
  obtain ⟨pre, post, rfl, rfl⟩ := at_iff_exists.1 h
  rw [List.append_assoc, List.drop_left, ← List.append_assoc, ← List.length_append,
    List.drop_left]

theorem At.take_succ {data : List UInt8} {c : ℕ} {bs : List UInt8} (h : At data c bs) :
    data.take (c + bs.length) = data.take c ++ bs := by
  obtain ⟨pre, post, rfl, rfl⟩ := at_iff_exists.1 h
  rw [← List.length_append, List.take_left, List.append_assoc, List.take_left]

theorem le64_unique {data : List UInt8} {c : ℕ} {v w : UInt64} (hv : At data c (le64 v))
    (hw : At data c (le64 w)) : v = w := by
  have h := hv.eq_of_length hw (by rw [length_le64, length_le64])
  rw [← u64OfLe_le64 v, h, u64OfLe_le64]

theorem le32_unique {data : List UInt8} {c : ℕ} {v w : UInt32} (hv : At data c (le32 v))
    (hw : At data c (le32 w)) : v = w := by
  have h := hv.eq_of_length hw (by rw [length_le32, length_le32])
  rw [← u32OfLe_le32 v, h, u32OfLe_le32]

end Wire
