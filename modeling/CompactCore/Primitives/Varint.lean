/-
**Base-128 varints.**

A varint stores seven payload bits per byte, low group first, and sets the high bit of every byte
but the last.  The crate has one encoder and two decoders: one that reads a whole slice, and one
that reads a single integer at a cursor.  Both decoders refuse truncated, overflowing and overlong
input, and this module proves that this is enough to make decoding exact: a byte string is decoded
to a value only if it is the encoding of that value.

Main definitions:

* `CompactCore.Varint.encodeOne`, `CompactCore.Varint.encodeU64` — the encoder;
* `CompactCore.Varint.readU64` — one integer at the cursor;
* `CompactCore.Varint.decodeU64` — a whole slice;
* `CompactCore.Varint.readAll` — a whole slice, one integer at a time;
* `CompactCore.Varint.groups` — the encoding of a natural number, which has no word size.

Main results:

* `CompactCore.Varint.readU64_ok` — **a cursor read is exact**;
* `CompactCore.Varint.decodeU64_ok` — **a slice decodes to a list exactly when it is the encoding
  of that list**;
* `CompactCore.Varint.readAll_eq` — **the two decoders agree**.
-/

import CompactCore.Core

set_option relaxedAutoImplicit false
set_option autoImplicit false

namespace CompactCore.Varint

open Wire CompactError

/-! ### The encoder -/

/-- The encoder's loop for one value. -/
def encodeOne (value : UInt64) : List UInt8 :=
  if 0x80 ≤ value then ((value.toUInt8 &&& 0x7f) ||| 0x80) :: encodeOne (value >>> 7)
  else [value.toUInt8]
termination_by value.toNat
decreasing_by
  rename_i h
  have h' : 128 ≤ value.toNat := UInt64.le_iff_toNat_le.1 h
  rw [UInt64.toNat_shiftRight, Nat.shiftRight_eq_div_pow]
  show value.toNat / 128 < value.toNat
  omega

/-- Encode unsigned 64-bit integers with base-128 varint encoding. -/
def encodeU64 (values : List UInt64) : List UInt8 := values.flatMap encodeOne

/-- The number of bytes the encoder spends on a value. -/
def encodedLen (value : UInt64) : ℕ :=
  if 0x80 ≤ value then encodedLen (value >>> 7) + 1 else 1
termination_by value.toNat
decreasing_by
  rename_i h
  have h' : 128 ≤ value.toNat := UInt64.le_iff_toNat_le.1 h
  rw [UInt64.toNat_shiftRight, Nat.shiftRight_eq_div_pow]
  show value.toNat / 128 < value.toNat
  omega

/-! ### The decoders -/

/-- The loop of `readU64` on the bytes from the cursor on. -/
def readLoop : List UInt8 → ℕ → UInt64 → ℕ → ℕ → Result (UInt64 × ℕ)
  | [], _, _, _, _ => .error (invalidInput "truncated varint")
  | byte :: data, cursor, value, shift, bytesRead =>
      let part := (byte &&& 0x7f).toUInt64
      if shift = 63 ∧ (1 < part ∨ byte &&& 0x80 ≠ 0) then .error (invalidInput "varint overflow")
      else if 63 < shift then .error (invalidInput "varint overflow")
      else
        let value := value ||| part <<< UInt64.ofNat shift
        if byte &&& 0x80 = 0 then
          if bytesRead + 1 ≠ encodedLen value then .error (invalidInput "overlong varint")
          else .ok (value, cursor + 1)
        else readLoop data (cursor + 1) value (shift + 7) (bytesRead + 1)

/-- Decode one canonical base-128 varint at the cursor. -/
def readU64 : Reader CompactError UInt64 := fun data cursor =>
  readLoop (data.drop cursor) cursor 0 0 0

/-- The loop of `decodeU64`. -/
def decodeLoop : List UInt8 → List UInt64 → UInt64 → ℕ → ℕ → Result (List UInt64)
  | [], out, _, shift, _ =>
      if shift ≠ 0 then .error (invalidInput "truncated varint") else .ok out
  | byte :: data, out, value, shift, bytesRead =>
      let part := (byte &&& 0x7f).toUInt64
      if shift = 63 ∧ (1 < part ∨ byte &&& 0x80 ≠ 0) then .error (invalidInput "varint overflow")
      else if 63 < shift then .error (invalidInput "varint overflow")
      else
        let value := value ||| part <<< UInt64.ofNat shift
        if byte &&& 0x80 = 0 then
          if bytesRead + 1 ≠ encodedLen value then .error (invalidInput "overlong varint")
          else decodeLoop data (out ++ [value]) 0 0 0
        else decodeLoop data out value (shift + 7) (bytesRead + 1)

/-- Decode canonical base-128 varints into unsigned 64-bit integers. -/
def decodeU64 (data : List UInt8) : Result (List UInt64) := decodeLoop data [] 0 0 0

/-! ### Seven-bit groups of a natural number -/

/-- The varint encoding of a natural number. -/
def groups (n : ℕ) : List UInt8 :=
  if n < 128 then [UInt8.ofNat n] else UInt8.ofNat (n % 128 + 128) :: groups (n / 128)
termination_by n
decreasing_by omega

theorem groups_of_lt {n : ℕ} (h : n < 128) : groups n = [UInt8.ofNat n] := by
  rw [groups, if_pos h]

theorem groups_of_le {n : ℕ} (h : 128 ≤ n) :
    groups n = UInt8.ofNat (n % 128 + 128) :: groups (n / 128) := by
  rw [groups, if_neg (by omega)]

theorem groups_ne_nil (n : ℕ) : groups n ≠ [] := by
  unfold groups
  split <;> simp

theorem length_groups_pos (n : ℕ) : 0 < (groups n).length :=
  List.length_pos_iff.2 (groups_ne_nil n)

/-- The first byte of an encoding: the last group keeps its value, the others carry a flag. -/
theorem groups_eq_cons {n : ℕ} {byte : UInt8} {rest : List UInt8} :
    groups n = byte :: rest ↔
      n < 128 ∧ byte.toNat = n ∧ rest = [] ∨
      128 ≤ n ∧ byte.toNat = n % 128 + 128 ∧ rest = groups (n / 128) := by
  rcases Nat.lt_or_ge n 128 with hn | hn
  · have hbyte : (UInt8.ofNat n).toNat = n := by
      rw [UInt8.toNat_ofNat', Nat.mod_eq_of_lt (by omega)]
    rw [groups_of_lt hn, List.cons.injEq, ← UInt8.toNat_inj, hbyte]
    constructor
    · intro h
      exact Or.inl ⟨hn, h.1.symm, h.2.symm⟩
    · intro h
      rcases h with ⟨_, h₁, h₂⟩ | ⟨h₁, _, _⟩
      · exact ⟨h₁.symm, h₂.symm⟩
      · omega
  · have hbyte : (UInt8.ofNat (n % 128 + 128)).toNat = n % 128 + 128 := by
      rw [UInt8.toNat_ofNat', Nat.mod_eq_of_lt (by omega)]
    rw [groups_of_le hn, List.cons.injEq, ← UInt8.toNat_inj, hbyte]
    constructor
    · intro h
      exact Or.inr ⟨hn, h.1.symm, h.2.symm⟩
    · intro h
      rcases h with ⟨h₁, _, _⟩ | ⟨_, h₁, h₂⟩
      · omega
      · exact ⟨h₁.symm, h₂.symm⟩

theorem length_groups_le (n k : ℕ) (h : n < 128 ^ (k + 1)) : (groups n).length ≤ k + 1 := by
  induction k generalizing n with
  | zero =>
      rw [groups_of_lt (by simpa using h)]
      exact le_refl _
  | succ k ih =>
      rcases Nat.lt_or_ge n 128 with hn | hn
      · rw [groups_of_lt hn]
        simp
      · have hdiv : n / 128 < 128 ^ (k + 1) := by
          rw [Nat.div_lt_iff_lt_mul (by omega)]
          simpa [pow_succ] using h
        rw [groups_of_le hn, List.length_cons]
        have hlen := ih (n / 128) hdiv
        omega

/-! ### Bytes and words -/

theorem and_flag_eq_zero (byte : UInt8) : byte &&& 0x80 = 0 ↔ byte.toNat < 128 := by
  have hall : ∀ n < 256, UInt8.ofNat n &&& 0x80 = 0 ↔ n < 128 := by decide +kernel
  have hbyte := hall byte.toNat byte.toNat_lt
  rwa [UInt8.ofNat_toNat] at hbyte

theorem toNat_part (byte : UInt8) : (byte &&& 0x7f).toUInt64.toNat = byte.toNat % 128 := by
  rw [UInt8.toNat_toUInt64, UInt8.toNat_and]
  exact Nat.and_two_pow_sub_one_eq_mod byte.toNat 7

theorem toNat_flagged (byte : UInt8) :
    ((byte &&& 0x7f) ||| 0x80).toNat = byte.toNat % 128 + 128 := by
  have hall : ∀ n < 256, ((UInt8.ofNat n &&& 0x7f) ||| 0x80).toNat = n % 128 + 128 := by
    decide +kernel
  have hbyte := hall byte.toNat byte.toNat_lt
  rwa [UInt8.ofNat_toNat] at hbyte

theorem toNat_shiftRight_seven (value : UInt64) : (value >>> 7).toNat = value.toNat / 128 := by
  rw [UInt64.toNat_shiftRight, Nat.shiftRight_eq_div_pow]
  rfl

/-- Putting a group above the bits that are already there adds it. -/
theorem toNat_or_shift {value part : UInt64} {shift : ℕ} (hshift : shift ≤ 63)
    (hvalue : value.toNat < 2 ^ shift) (hpart : part.toNat * 2 ^ shift < 2 ^ 64) :
    (value ||| part <<< UInt64.ofNat shift).toNat = value.toNat + part.toNat * 2 ^ shift := by
  have hmod : (UInt64.ofNat shift).toNat % 64 = shift := by
    rw [UInt64.toNat_ofNat', Nat.mod_eq_of_lt (by omega), Nat.mod_eq_of_lt (by omega)]
  rw [UInt64.toNat_or, UInt64.toNat_shiftLeft, hmod, Nat.shiftLeft_eq, Nat.mod_eq_of_lt hpart,
    Nat.or_comm, ← Nat.shiftLeft_eq, ← Nat.shiftLeft_add_eq_or_of_lt hvalue, Nat.add_comm]

/-- The encoder writes the groups of the value. -/
theorem encodeOne_eq_groups (value : UInt64) : encodeOne value = groups value.toNat := by
  induction value using encodeOne.induct with
  | case1 value h ih =>
      have h' : 128 ≤ value.toNat := UInt64.le_iff_toNat_le.1 h
      rw [encodeOne, if_pos h, ih, toNat_shiftRight_seven, groups_of_le h']
      congr 1
      rw [← UInt8.toNat_inj, toNat_flagged, UInt64.toNat_toUInt8, UInt8.toNat_ofNat']
      omega
  | case2 value h =>
      have h' : value.toNat < 128 := by
        rw [UInt64.le_iff_toNat_le] at h
        exact not_le.1 h
      rw [encodeOne, if_neg h, groups_of_lt h']
      congr 1

theorem encodedLen_eq (value : UInt64) : encodedLen value = (groups value.toNat).length := by
  induction value using encodedLen.induct with
  | case1 value h ih =>
      have h' : 128 ≤ value.toNat := UInt64.le_iff_toNat_le.1 h
      rw [encodedLen, if_pos h, ih, toNat_shiftRight_seven, groups_of_le h', List.length_cons]
  | case2 value h =>
      have h' : value.toNat < 128 := by
        rw [UInt64.le_iff_toNat_le] at h
        exact not_le.1 h
      rw [encodedLen, if_neg h, groups_of_lt h', List.length_singleton]

theorem length_encodeOne_pos (value : UInt64) : 0 < (encodeOne value).length := by
  rw [encodeOne_eq_groups]
  exact length_groups_pos _

/-- A 64-bit value needs at most ten bytes. -/
theorem length_encodeOne_le (value : UInt64) : (encodeOne value).length ≤ 10 := by
  rw [encodeOne_eq_groups]
  exact length_groups_le _ 9 (lt_of_lt_of_le value.toNat_lt (by norm_num))

@[simp] theorem encodeU64_nil : encodeU64 [] = [] := rfl

@[simp] theorem encodeU64_cons (value : UInt64) (values : List UInt64) :
    encodeU64 (value :: values) = encodeOne value ++ encodeU64 values := rfl

theorem encodeU64_singleton (value : UInt64) : encodeU64 [value] = encodeOne value := by
  rw [encodeU64_cons, encodeU64_nil, List.append_nil]

/-! ### The cursor decoder -/

/-- The length of a number whose low `k` groups are followed by `w`. -/
theorem length_groups_add {k low w : ℕ} (hlow : low < 2 ^ (7 * k)) (hw : 0 < w) :
    (groups (low + w * 2 ^ (7 * k))).length = k + (groups w).length := by
  induction k generalizing low with
  | zero =>
      have hz : low = 0 := by simpa using hlow
      simp [hz]
  | succ k ih =>
      have hpow : 2 ^ (7 * (k + 1)) = 128 * 2 ^ (7 * k) := by
        rw [Nat.mul_add, pow_add]
        ring
      have hge : 2 ^ (7 * (k + 1)) ≤ w * 2 ^ (7 * (k + 1)) := Nat.le_mul_of_pos_left _ hw
      have hpos : 0 < 2 ^ (7 * k) := by positivity
      have hdiv : (low + w * 2 ^ (7 * (k + 1))) / 128 = low / 128 + w * 2 ^ (7 * k) := by
        rw [hpow, Nat.mul_left_comm, Nat.add_mul_div_left _ _ (by omega)]
      have hlow' : low / 128 < 2 ^ (7 * k) := by
        rw [Nat.div_lt_iff_lt_mul (by omega)]
        omega
      rw [groups_of_le (by omega), List.length_cons, hdiv, ih hlow']
      omega

/-- With the low `k` groups of a number read into `value`, the bytes ahead begin with the groups of
`v` above them, and the cursor behind those is `c'`.  The part above is positive unless nothing has
been read yet. -/
def Completes (bytes : List UInt8) (cursor value k : ℕ) (v : UInt64) (c' : ℕ) : Prop :=
  ∃ w, (k = 0 ∨ 0 < w) ∧ v.toNat = value + w * 2 ^ (7 * k) ∧ groups w <+: bytes ∧
    c' = cursor + (groups w).length

theorem not_completes_nil {cursor value k : ℕ} {v : UInt64} {c' : ℕ} :
    ¬Completes [] cursor value k v c' := by
  simp only [Completes, List.prefix_nil, groups_ne_nil, false_and, and_false, exists_false,
    not_false_eq_true]

/-- The overflowing byte: the tenth one may only hold the top bit of a word. -/
theorem not_completes_overflow {byte : UInt8} {bytes : List UInt8} {cursor value : ℕ} {v : UInt64}
    {c' : ℕ} (hover : 1 < byte.toNat % 128 ∨ ¬byte.toNat < 128) :
    ¬Completes (byte :: bytes) cursor value 9 v c' := by
  rintro ⟨w, hw, hval, ⟨rest, hrest⟩, -⟩
  have hv := v.toNat_lt
  have hw1 : w = 1 := by
    rcases hw with hw | hw
    · omega
    · rw [hval] at hv
      norm_num at hv
      omega
  rw [hw1, groups_of_lt (by omega), List.singleton_append, List.cons.injEq] at hrest
  have hb1 : byte.toNat = 1 := by
    rw [← hrest.1]
    rfl
  omega

/-- The last byte holds the part above. -/
theorem completes_last {byte : UInt8} {bytes : List UInt8} {cursor value k : ℕ} {v : UInt64}
    {c' : ℕ} (hlast : byte.toNat < 128) :
    Completes (byte :: bytes) cursor value k v c' ↔
      (k = 0 ∨ 0 < byte.toNat) ∧ v.toNat = value + byte.toNat * 2 ^ (7 * k) ∧ c' = cursor + 1 := by
  constructor
  · rintro ⟨w, hw, hval, ⟨rest, hrest⟩, hc⟩
    obtain ⟨g, gs, hg⟩ := List.exists_cons_of_ne_nil (groups_ne_nil w)
    rw [hg, List.cons_append, List.cons.injEq] at hrest
    obtain ⟨rfl, -⟩ := hrest
    rcases groups_eq_cons.1 hg with ⟨-, hgw, rfl⟩ | ⟨-, hgw, -⟩
    · subst hgw
      rw [hg] at hc
      exact ⟨hw, hval, hc⟩
    · omega
  · rintro ⟨hw, hval, hc⟩
    refine ⟨byte.toNat, hw, hval, ?_, ?_⟩
    · rw [groups_of_lt hlast, UInt8.ofNat_toNat]
      exact List.prefix_append [byte] bytes
    · rw [groups_of_lt hlast]
      exact hc

/-- A continuing byte: the bytes behind it hold the groups above its own. -/
theorem completes_continuing {byte : UInt8} {bytes : List UInt8} {cursor value k : ℕ} {v : UInt64}
    {c' : ℕ} (hlast : ¬byte.toNat < 128) :
    Completes (byte :: bytes) cursor value k v c' ↔
      Completes bytes (cursor + 1) (value + byte.toNat % 128 * 2 ^ (7 * k)) (k + 1) v c' := by
  have hbyte : byte.toNat < 256 := byte.toNat_lt
  have hpow : 2 ^ (7 * (k + 1)) = 128 * 2 ^ (7 * k) := by
    rw [Nat.mul_add, pow_add]
    ring
  constructor
  · rintro ⟨w, -, hval, hpre, hc⟩
    obtain ⟨g, gs, hg⟩ := List.exists_cons_of_ne_nil (groups_ne_nil w)
    rw [hg] at hpre
    obtain ⟨rfl, htail⟩ := List.cons_prefix_cons.1 hpre
    rcases groups_eq_cons.1 hg with ⟨_, hgw, -⟩ | ⟨hw128, hgw, rfl⟩
    · omega
    · refine ⟨w / 128, Or.inr (by omega), ?_, htail, ?_⟩
      · have hw : w = g.toNat % 128 + w / 128 * 128 := by omega
        rw [hval, hpow]
        conv_lhs => rw [hw]
        ring
      · rw [hc, hg, List.length_cons]
        omega
  · rintro ⟨w, hw, hval, hpre, hc⟩
    have hwpos : 0 < w := by omega
    have hsplit : groups (byte.toNat % 128 + 128 * w) = byte :: groups w := by
      rw [groups_eq_cons]
      right
      refine ⟨by omega, by omega, ?_⟩
      congr 1
      omega
    refine ⟨byte.toNat % 128 + 128 * w, Or.inr (by omega), ?_, ?_, ?_⟩
    · rw [hval, hpow]
      ring
    · rw [hsplit]
      exact List.cons_prefix_cons.2 ⟨rfl, hpre⟩
    · rw [hsplit, List.length_cons, hc]
      omega

/-- A number is not overlong when its last group is positive. -/
theorem length_groups_last {value b k : ℕ} (hvalue : value < 2 ^ (7 * k)) (hb : b < 128) :
    k + 1 = (groups (value + b * 2 ^ (7 * k))).length ↔ k = 0 ∨ 0 < b := by
  rcases Nat.eq_zero_or_pos k with rfl | hk
  · have hz : value = 0 := by simpa using hvalue
    simp [hz, groups_of_lt hb]
  rcases Nat.eq_zero_or_pos b with rfl | hb0
  · have hshort : (groups value).length ≤ (k - 1) + 1 := by
      refine length_groups_le _ _ ?_
      have hexp : 7 * k = 7 * (k - 1 + 1) := by omega
      rw [hexp, pow_mul] at hvalue
      exact hvalue
    simp only [Nat.zero_mul, Nat.add_zero, lt_irrefl, or_false]
    omega
  · rw [length_groups_add hvalue hb0, groups_of_lt hb, List.length_singleton]
    simp [hb0]

/-- A group that does not overflow stays in a word when it is shifted into place. -/
theorem part_shift_lt {part k : ℕ} (hk : k ≤ 9) (hpart : part < 128) (hnine : k = 9 → part ≤ 1) :
    part * 2 ^ (7 * k) < 2 ^ 64 := by
  rcases Nat.lt_or_ge k 9 with hlt | hge
  · have hle : 2 ^ (7 * k) ≤ 2 ^ 56 := Nat.pow_le_pow_right (by omega) (by omega)
    calc part * 2 ^ (7 * k) ≤ 127 * 2 ^ 56 := Nat.mul_le_mul (by omega) hle
      _ < 2 ^ 64 := by norm_num
  · obtain rfl : k = 9 := by omega
    calc part * 2 ^ 63 ≤ 1 * 2 ^ 63 := Nat.mul_le_mul_right _ (hnine rfl)
      _ < 2 ^ 64 := by norm_num

/-- **The loop reads one encoding.**  With the low `k` groups already in `value`, it returns `v`
exactly when the bytes ahead hold the rest of it. -/
theorem readLoop_ok (bytes : List UInt8) (cursor : ℕ) (value : UInt64) (k : ℕ) (v : UInt64)
    (c' : ℕ) (hk : k ≤ 9) (hvalue : value.toNat < 2 ^ (7 * k)) :
    readLoop bytes cursor value (7 * k) k = .ok (v, c') ↔
      Completes bytes cursor value.toNat k v c' := by
  induction bytes generalizing cursor value k with
  | nil => simp only [readLoop, reduceCtorEq, not_completes_nil]
  | cons byte bytes ih =>
      have hpart := toNat_part byte
      have hone : (1 < (byte &&& 0x7f).toUInt64) ↔ 1 < byte.toNat % 128 := by
        rw [UInt64.lt_iff_toNat_lt, hpart]
        rfl
      simp only [readLoop, and_flag_eq_zero, hone, ne_eq]
      by_cases hover : 7 * k = 63 ∧ (1 < byte.toNat % 128 ∨ ¬byte.toNat < 128)
      · -- the tenth byte may only hold the top bit of a word
        obtain rfl : k = 9 := by omega
        rw [if_pos hover]
        simp only [reduceCtorEq, not_completes_overflow hover.2]
      rw [if_neg hover, if_neg (by omega)]
      have hfit := part_shift_lt hk (Nat.mod_lt byte.toNat (by omega)) (by omega)
      have hnew := toNat_or_shift (by omega) hvalue (by rw [hpart]; exact hfit)
      rw [hpart] at hnew
      by_cases hlast : byte.toNat < 128
      · -- the last byte: accepted when the number is not overlong
        rw [Nat.mod_eq_of_lt hlast] at hnew
        rw [if_pos hlast, encodedLen_eq, hnew, completes_last hlast]
        split_ifs with hlong
        · rw [length_groups_last hvalue hlast] at hlong
          rw [← hnew, Except.ok.injEq, Prod.mk.injEq, UInt64.toNat_inj, eq_comm (a := v),
            eq_comm (a := c')]
          simp only [hlong, true_and]
        · rw [length_groups_last hvalue hlast] at hlong
          simp only [hlong, false_and]
      · -- a continuation byte: the recursion reads the groups above it
        have hbound := Nat.mul_le_mul_right (2 ^ (7 * k)) (show byte.toNat % 128 ≤ 127 by omega)
        have hpow : 2 ^ (7 * (k + 1)) = 128 * 2 ^ (7 * k) := by
          rw [Nat.mul_add, pow_add]
          ring
        rw [if_neg hlast, show 7 * k + 7 = 7 * (k + 1) by ring,
          ih (cursor + 1) _ (k + 1) (by omega) (by omega), hnew, completes_continuing hlast]

/-- **A cursor read is exact**: it returns `v` precisely when the encoding of `v` sits at the
cursor. -/
theorem readU64_ok {data : List UInt8} {c c' : ℕ} {v : UInt64} :
    readU64 data c = .ok (v, c') ↔
      At data c (encodeOne v) ∧ c' = c + (encodeOne v).length := by
  have hloop := readLoop_ok (data.drop c) c 0 0 v c' (by omega) (by simp)
  rw [Nat.mul_zero] at hloop
  rw [readU64, hloop, encodeOne_eq_groups, at_iff_drop]
  constructor
  · intro h
    obtain ⟨w, -, hval, hpre, hc'⟩ := h
    have hw : v.toNat = w := by simpa using hval
    have hc : c ≤ data.length := by
      have hpos := length_groups_pos w
      have hle := hpre.length_le
      rw [List.length_drop] at hle
      omega
    rw [hw]
    exact ⟨⟨hc, hpre⟩, hc'⟩
  · intro h
    obtain ⟨⟨-, hpre⟩, hc'⟩ := h
    exact ⟨v.toNat, Or.inl rfl, by simp, hpre, hc'⟩

/-! ### The slice decoder -/

/-- A successful read moves the cursor forward. -/
theorem readLoop_cursor_lt {bytes : List UInt8} {cursor : ℕ} {value : UInt64}
    {shift bytesRead : ℕ} {v : UInt64} {c' : ℕ}
    (h : readLoop bytes cursor value shift bytesRead = .ok (v, c')) : cursor < c' := by
  induction bytes generalizing cursor value shift bytesRead with
  | nil => simp [readLoop] at h
  | cons byte bytes ih =>
      simp only [readLoop] at h
      split_ifs at h
      · simp only [Except.ok.injEq, Prod.mk.injEq] at h
        omega
      · have hlt := ih h
        omega

/-- The slice decoder reads one integer after the other. -/
theorem decodeLoop_cons (byte : UInt8) (data : List UInt8) (out : List UInt64) (value : UInt64)
    (shift bytesRead cursor : ℕ) :
    decodeLoop (byte :: data) out value shift bytesRead =
      match readLoop (byte :: data) cursor value shift bytesRead with
      | .ok (v, c') => decodeLoop ((byte :: data).drop (c' - cursor)) (out ++ [v]) 0 0 0
      | .error e => .error e := by
  induction data generalizing byte value shift bytesRead cursor with
  | nil =>
      simp only [decodeLoop, readLoop]
      split_ifs <;> simp_all [decodeLoop]
  | cons b data ih =>
      rw [decodeLoop, readLoop]
      simp only
      split_ifs
      · rfl
      · rfl
      · rfl
      · simp
      · rw [ih b _ _ _ (cursor + 1)]
        cases hread : readLoop (b :: data) (cursor + 1)
            (value ||| (byte &&& 0x7f).toUInt64 <<< UInt64.ofNat shift) (shift + 7)
            (bytesRead + 1) with
        | error e => rfl
        | ok r =>
            obtain ⟨v, c'⟩ := r
            have hlt := readLoop_cursor_lt hread
            obtain ⟨n, rfl⟩ : ∃ n, c' = cursor + 1 + n := ⟨c' - (cursor + 1), by omega⟩
            have hdrop : (byte :: b :: data).drop (cursor + 1 + n - cursor) =
                (b :: data).drop (cursor + 1 + n - (cursor + 1)) := by
              rw [show cursor + 1 + n - cursor = n + 1 by omega, List.drop_succ_cons,
                Nat.add_sub_cancel_left]
            simp only [hdrop]

/-- The slice decoder appends exactly the values whose encoding it was given. -/
theorem decodeLoop_ok (data : List UInt8) (out outs : List UInt64) :
    decodeLoop data out 0 0 0 = .ok outs ↔
      ∃ values, outs = out ++ values ∧ data = encodeU64 values := by
  -- induction on the number of bytes that are left
  induction hlen : data.length using Nat.strong_induction_on generalizing data out with
  | _ n ih =>
      cases data with
      | nil =>
          simp only [decodeLoop, ne_eq, not_true_eq_false, if_false, Except.ok.injEq]
          constructor
          · intro h
            exact ⟨[], by simp [h], rfl⟩
          · intro h
            obtain ⟨values, rfl, hnil⟩ := h
            cases values with
            | nil => simp
            | cons v vs =>
                have hpos := length_encodeOne_pos v
                have hz := congrArg List.length hnil
                rw [encodeU64_cons, List.length_append, List.length_nil] at hz
                omega
      | cons byte data =>
          rw [decodeLoop_cons byte data out 0 0 0 0]
          have hread : ∀ v c', readLoop (byte :: data) 0 0 0 0 = .ok (v, c') ↔
              encodeOne v <+: byte :: data ∧ c' = (encodeOne v).length := by
            intro v c'
            have h : readU64 (byte :: data) 0 = .ok (v, c') ↔ _ := readU64_ok
            rw [readU64, at_iff_drop] at h
            simpa using h
          constructor
          · intro h
            split at h
            · rename_i v c' hr
              obtain ⟨⟨rest, hrest⟩, rfl⟩ := (hread v c').1 hr
              have hpos := length_encodeOne_pos v
              have hdrop : (byte :: data).drop ((encodeOne v).length - 0) = rest := by
                rw [← hrest, Nat.sub_zero, List.drop_left]
              rw [hdrop] at h
              have hshort : rest.length < n := by
                rw [← hlen, ← hrest, List.length_append]
                omega
              obtain ⟨values, hout, hdata⟩ := (ih rest.length hshort rest (out ++ [v]) rfl).1 h
              refine ⟨v :: values, by rw [hout]; simp, ?_⟩
              rw [encodeU64_cons, ← hdata, hrest]
            · cases h
          · intro h
            obtain ⟨values, rfl, hdata⟩ := h
            cases values with
            | nil => simp at hdata
            | cons v values =>
                rw [encodeU64_cons] at hdata
                have hr := (hread v _).2 ⟨⟨encodeU64 values, hdata.symm⟩, rfl⟩
                have hpos := length_encodeOne_pos v
                have hshort : (encodeU64 values).length < n := by
                  rw [← hlen, hdata, List.length_append]
                  omega
                rw [hr]
                simp only
                rw [hdata, Nat.sub_zero, List.drop_left]
                exact (ih _ hshort (encodeU64 values) (out ++ [v]) rfl).2 ⟨values, by simp, rfl⟩

/-- **Slice decoding is exact**: it returns `values` precisely on their encoding. -/
theorem decodeU64_ok {data : List UInt8} {values : List UInt64} :
    decodeU64 data = .ok values ↔ data = encodeU64 values := by
  rw [decodeU64, decodeLoop_ok]
  constructor
  · intro h
    obtain ⟨vs, hvs, hdata⟩ := h
    rw [hdata, hvs, List.nil_append]
  · intro h
    exact ⟨values, rfl, h⟩

/-! ### The decoders agree -/

theorem readU64_lt {data : List UInt8} {cursor next : ℕ} {v : UInt64}
    (h : readU64 data cursor = .ok (v, next)) : cursor < next := readLoop_cursor_lt h

/-- `read_u64` again and again, until the cursor is at the end of the data. -/
def readAll (data : List UInt8) (cursor : ℕ) : Result (List UInt64) :=
  if cursor < data.length then
    match _h : readU64 data cursor with
    | .error e => .error e
    | .ok (v, next) => (v :: ·) <$> readAll data next
  else .ok []
termination_by data.length - cursor
decreasing_by
  have hlt := readU64_lt _h
  omega

/-- The slice decoder appends to what it has decoded. -/
theorem decodeLoop_out (data : List UInt8) (out : List UInt64) (value : UInt64)
    (shift bytesRead : ℕ) :
    decodeLoop data out value shift bytesRead =
      (out ++ ·) <$> decodeLoop data [] value shift bytesRead := by
  induction data generalizing out value shift bytesRead with
  | nil =>
      simp only [decodeLoop]
      split
      · rfl
      · exact congrArg Except.ok (List.append_nil out).symm
  | cons byte data ih =>
      simp only [decodeLoop]
      split_ifs
      · rfl
      · rfl
      · rfl
      · rw [ih (out ++ _), ih ([] ++ _)]
        cases decodeLoop data [] 0 0 0 with
        | error e => rfl
        | ok values => exact congrArg Except.ok (List.append_assoc _ _ _)
      · rw [ih out]

/-- The slice decoder reads the integer at a cursor, and goes on behind it. -/
theorem decodeU64_drop {data : List UInt8} {cursor : ℕ} (h : cursor < data.length) :
    decodeU64 (data.drop cursor) =
      match readU64 data cursor with
      | .ok (v, next) => (v :: ·) <$> decodeU64 (data.drop next)
      | .error e => .error e := by
  obtain ⟨byte, rest, hcons⟩ := List.exists_cons_of_ne_nil (List.drop_eq_nil_iff.not.2 (not_le.2 h))
  have hread : readU64 data cursor = readLoop (byte :: rest) cursor 0 0 0 := by
    rw [readU64, hcons]
  rw [decodeU64, hcons, decodeLoop_cons byte rest [] 0 0 0 cursor, ← hread, ← hcons]
  cases hnext : readU64 data cursor with
  | error e => rfl
  | ok p =>
      obtain ⟨v, next⟩ := p
      have hlt := readU64_lt hnext
      dsimp only
      rw [decodeLoop_out, List.drop_drop, Nat.add_sub_cancel' hlt.le]
      rfl

/-- **The two decoders agree**, in their values and in their errors. -/
theorem readAll_eq (data : List UInt8) (cursor : ℕ) :
    readAll data cursor = decodeU64 (data.drop cursor) := by
  induction cursor using readAll.induct data with
  | case1 cursor hlt e hread =>
      rw [readAll, if_pos hlt, decodeU64_drop hlt, hread]
  | case2 cursor hlt v next hread ih =>
      rw [readAll, if_pos hlt, decodeU64_drop hlt, hread]
      split <;> simp_all
  | case3 cursor hge =>
      rw [readAll, if_neg hge, List.drop_eq_nil_of_le (not_lt.1 hge)]
      rfl

/-- **Varints are decoded from their canonical encodings only**, by both decoders, and one at a time
from the front of other bytes. -/
theorem decodeU64_canonical (data : List UInt8) :
    (∀ values, decodeU64 data = .ok values ↔ encodeU64 values = data) ∧
      (∀ values, decodeU64 data = .ok values → readAll data 0 = .ok values) ∧
      (∀ e, decodeU64 data = .error e → readAll data 0 = .error e) ∧
      ∀ value rest, readU64 (encodeU64 [value] ++ rest) 0 =
        .ok (value, (encodeU64 [value]).length) := by
  have hall := readAll_eq data 0
  rw [List.drop_zero] at hall
  refine ⟨fun values => decodeU64_ok.trans eq_comm, fun values h => hall.trans h,
    fun e h => hall.trans h, fun value rest => ?_⟩
  rw [encodeU64_singleton, readU64_ok]
  exact ⟨at_mid [] (encodeOne value) rest, (Nat.zero_add _).symm⟩

/-- Two values, of two bytes and of one. -/
theorem decodeU64_canonical_two : readAll [0x80, 0x01, 0x05] 0 = .ok [128, 5] := by
  obtain ⟨hdecode, hread, -⟩ := decodeU64_canonical [0x80, 0x01, 0x05]
  exact hread _ ((hdecode _).2 (by decide +kernel))

theorem length_encodeU64_ge (values : List UInt64) : values.length ≤ (encodeU64 values).length := by
  induction values with
  | nil => simp
  | cons v values ih =>
      have hpos := length_encodeOne_pos v
      rw [encodeU64_cons, List.length_append, List.length_cons]
      omega

theorem length_encodeU64_le (values : List UInt64) :
    (encodeU64 values).length ≤ 10 * values.length := by
  induction values with
  | nil => simp
  | cons value values ih =>
      have hle := length_encodeOne_le value
      rw [encodeU64_cons, List.length_append, List.length_cons]
      omega

end CompactCore.Varint
