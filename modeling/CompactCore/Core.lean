/-
**The crate root: errors, limits and machine integers.**

Every decoder of the crate returns a `Result`, converts between the word sizes of a 64-bit machine
with checked conversions, and refuses counts above fixed limits.  This module fixes that
vocabulary.  A `usize` is a natural number here: it measures slices, whose length a machine can
address.  A `u64` or `u32` that is stored in a record is a machine word.

The crate calls three libraries whose code is not part of it: `crc32fast`, `blake3` and
`serde_json`.  They enter as the classes `Crc32Fast`, `Blake3` and `SerdeJson`; nothing is assumed
about them except where a theorem says so.

Main definitions:

* `CompactCore.CompactError`, `CompactCore.Result` — the error type and its results;
* `CompactCore.tryU64`, `CompactCore.tryUsize`, `CompactCore.checkedAdd` — checked conversions and
  arithmetic, each with the lemma that says when it succeeds;
* `CompactCore.Value`, `CompactCore.SerdeJson` — JSON values and the library that reads and prints
  them.
-/

import CompactCore.Wire.Reader

set_option relaxedAutoImplicit false
set_option autoImplicit false

namespace CompactCore

open Wire

/-! ### Errors -/

/-- The errors of the crate.  The third kind of the source, an operating-system error, cannot
arise on in-memory input and output. -/
inductive CompactError
  | invalidInput (message : String)
  | unsupported (message : String)
  deriving DecidableEq, Repr

/-- The result type of the crate. -/
abbrev Result (α : Type) : Type := Except CompactError α

open CompactError

/-! ### Format constants -/

/-- `b"CMP1"`. -/
def magicV1 : List UInt8 := [0x43, 0x4d, 0x50, 0x31]

def versionV1 : UInt8 := 1

/-- `b"CMP2"`. -/
def magicV2 : List UInt8 := [0x43, 0x4d, 0x50, 0x32]

def versionV2 : UInt8 := 2

/-- `b"CMP3"`. -/
def magicV3 : List UInt8 := [0x43, 0x4d, 0x50, 0x33]

def versionV3 : UInt8 := 3

/-- `b"CMP4"`. -/
def magicV4 : List UInt8 := [0x43, 0x4d, 0x50, 0x34]

def versionV4 : UInt8 := 4

/-! ### Resource limits -/

/-- Maximum number of bytes a primitive decoder may materialize. -/
def maxDecodedBytes : ℕ := 256 * 1024 * 1024

/-- Maximum number of logical values accepted from file metadata. -/
def maxDecodedValues : ℕ := 16 * 1024 * 1024

/-- Maximum number of entries accepted for format indexes and dictionaries. -/
def maxCollectionEntries : ℕ := 1000000

/-- Maximum compressed payload size accepted for one streaming frame. -/
def maxEncodedBlockBytes : ℕ := 256 * 1024 * 1024

/-- Maximum number of blocks retained in a streaming footer. -/
def maxStreamBlocks : ℕ := 1000000

/-- Maximum worker threads accepted by parallel APIs. -/
def maxParallelWorkers : ℕ := 256

/-! ### Checked conversions -/

/-- `u64::try_from` of a size. -/
def tryU64 (n : ℕ) (message : String) : Result UInt64 :=
  if n < 2 ^ 64 then .ok (UInt64.ofNat n) else .error (invalidInput message)

/-- `u32::try_from` of a size. -/
def tryU32 (n : ℕ) (message : String) : Result UInt32 :=
  if n < 2 ^ 32 then .ok (UInt32.ofNat n) else .error (invalidInput message)

/-- `u16::try_from` of a size. -/
def tryU16 (n : ℕ) (message : String) : Result UInt16 :=
  if n < 2 ^ 16 then .ok (UInt16.ofNat n) else .error (invalidInput message)

/-- `usize::try_from` of a stored 64-bit word. -/
def tryUsize (v : UInt64) (message : String) : Result ℕ :=
  if v.toNat < wordSize then .ok v.toNat else .error (invalidInput message)

@[simp] theorem tryU64_ok {n : ℕ} {message : String} {v : UInt64} :
    tryU64 n message = .ok v ↔ v.toNat = n := by
  unfold tryU64
  split
  · rename_i h
    rw [Except.ok.injEq, ← UInt64.toNat_inj, UInt64.toNat_ofNat', Nat.mod_eq_of_lt h, eq_comm]
  · rename_i h
    have hv := v.toNat_lt
    simp only [reduceCtorEq, false_iff]
    omega

@[simp] theorem tryU32_ok {n : ℕ} {message : String} {v : UInt32} :
    tryU32 n message = .ok v ↔ v.toNat = n := by
  unfold tryU32
  split
  · rename_i h
    rw [Except.ok.injEq, ← UInt32.toNat_inj, UInt32.toNat_ofNat', Nat.mod_eq_of_lt h, eq_comm]
  · rename_i h
    have hv := v.toNat_lt
    simp only [reduceCtorEq, false_iff]
    omega

@[simp] theorem tryU16_ok {n : ℕ} {message : String} {v : UInt16} :
    tryU16 n message = .ok v ↔ v.toNat = n := by
  unfold tryU16
  split
  · rename_i h
    rw [Except.ok.injEq, ← UInt16.toNat_inj, UInt16.toNat_ofNat', Nat.mod_eq_of_lt h, eq_comm]
  · rename_i h
    have hv := v.toNat_lt
    simp only [reduceCtorEq, false_iff]
    omega

/-- On a 64-bit machine the conversion to a size never fails. -/
@[simp] theorem tryUsize_eq (v : UInt64) (message : String) : tryUsize v message = .ok v.toNat :=
  if_pos v.toNat_lt

/-! ### Checked arithmetic -/

/-- `u64::checked_add`. -/
def checkedAdd (a b : UInt64) : Option UInt64 :=
  if a.toNat + b.toNat < 2 ^ 64 then some (UInt64.ofNat (a.toNat + b.toNat)) else none

/-- `u64::checked_mul`. -/
def checkedMul (a b : UInt64) : Option UInt64 :=
  if a.toNat * b.toNat < 2 ^ 64 then some (UInt64.ofNat (a.toNat * b.toNat)) else none

/-- `u64::checked_sub`. -/
def checkedSub (a b : UInt64) : Option UInt64 :=
  if b.toNat ≤ a.toNat then some (UInt64.ofNat (a.toNat - b.toNat)) else none

/-- `usize::checked_add`. -/
def usizeAdd (a b : ℕ) : Option ℕ := if a + b < wordSize then some (a + b) else none

/-- `usize::checked_mul`. -/
def usizeMul (a b : ℕ) : Option ℕ := if a * b < wordSize then some (a * b) else none

/-- `usize::checked_sub`. -/
def usizeSub (a b : ℕ) : Option ℕ := if b ≤ a then some (a - b) else none

@[simp] theorem checkedAdd_eq_some {a b c : UInt64} :
    checkedAdd a b = some c ↔ c.toNat = a.toNat + b.toNat := by
  unfold checkedAdd
  split
  · rename_i h
    rw [Option.some.injEq, ← UInt64.toNat_inj, UInt64.toNat_ofNat', Nat.mod_eq_of_lt h, eq_comm]
  · rename_i h
    have hc := c.toNat_lt
    simp only [reduceCtorEq, false_iff]
    omega

@[simp] theorem checkedSub_eq_some {a b c : UInt64} :
    checkedSub a b = some c ↔ a.toNat = b.toNat + c.toNat := by
  have ha := a.toNat_lt
  have hc := c.toNat_lt
  unfold checkedSub
  split
  · rename_i h
    rw [Option.some.injEq, ← UInt64.toNat_inj, UInt64.toNat_ofNat', Nat.mod_eq_of_lt (by omega)]
    omega
  · simp only [reduceCtorEq, false_iff]
    omega

@[simp] theorem usizeAdd_eq_some {a b c : ℕ} :
    usizeAdd a b = some c ↔ a + b < wordSize ∧ a + b = c := by
  unfold usizeAdd
  split <;> simp_all

@[simp] theorem usizeMul_eq_some {a b c : ℕ} :
    usizeMul a b = some c ↔ a * b < wordSize ∧ a * b = c := by
  unfold usizeMul
  split <;> simp_all

@[simp] theorem usizeSub_eq_some {a b c : ℕ} : usizeSub a b = some c ↔ a = b + c := by
  unfold usizeSub
  split
  · rw [Option.some.injEq]
    omega
  · simp only [reduceCtorEq, false_iff]
    omega

/-! ### Libraries outside the crate -/

/-- The `crc32fast` crate. -/
class Crc32Fast where
  hash : List UInt8 → UInt32

/-- The `blake3` crate. -/
class Blake3 where
  hash : List UInt8 → List UInt8

/-- A JSON number: a `u64`, a negative `i64`, or the bits of a float. -/
inductive Number
  | posInt (value : UInt64)
  | negInt (value : Int64)
  | float (bits : UInt64)
  deriving DecidableEq, Repr

/-- `serde_json::Value`.  An object is its list of members. -/
inductive Value
  | null
  | bool (value : Bool)
  | number (value : Number)
  | string (value : String)
  | array (items : List Value)
  | object (members : List (String × Value))

/-- `serde_json::Map`. -/
abbrev Map : Type := List (String × Value)

namespace Value

/-- `Value::as_u64`. -/
def asU64 : Value → Option UInt64
  | number (.posInt value) => some value
  | _ => none

/-- `Value::as_str`. -/
def asStr : Value → Option String
  | string value => some value
  | _ => none

/-- `Value::as_object`. -/
def asObject : Value → Option Map
  | object members => some members
  | _ => none

/-- `Value::is_null`. -/
def isNull : Value → Bool
  | null => true
  | _ => false

theorem asU64_eq_some {value : Value} {v : UInt64} :
    value.asU64 = some v ↔ value = .number (.posInt v) := by
  unfold Value.asU64
  split <;> simp_all

theorem asStr_eq_some {value : Value} {s : String} :
    value.asStr = some s ↔ value = .string s := by
  unfold Value.asStr
  split <;> simp_all

end Value

/-- `Map::get`. -/
def Map.get (row : Map) (key : String) : Option Value := row.lookup key

/-- The `serde_json` crate: reading a value from text, printing a string as a JSON string, and
printing a value. -/
class SerdeJson where
  fromStr : String → Option Value
  toString : String → String
  display : Value → String

/-! ### Checksums -/

section

variable [Crc32Fast]

/-- Compute the IEEE CRC32 checksum used by common storage formats. -/
def checksum (data : List UInt8) : UInt32 := Crc32Fast.hash data

/-- Compute a stable 32-bit checksum for compact frames. -/
def checksum32 (input : List UInt8) : UInt32 := checksum input

/-- Verify that `data` matches an expected CRC32 checksum. -/
def verify (data : List UInt8) (expected : UInt32) : Bool := checksum data == expected

@[simp] theorem verify_eq_true {data : List UInt8} {expected : UInt32} :
    verify data expected = true ↔ expected = checksum data := by
  rw [verify, beq_iff_eq, eq_comm]

end

end CompactCore
