/-
**The primitive decoders as checked code.**

The decoders of varints, run lengths, deltas and strings with every operation that may panic as a
step of its own: the shift of a group of bits, which must stay inside the word, the counters, the
indices of a pair, and the vectors that are asked for in advance.

Main definitions:

* `CompactCore.Checked.Outcome`, `CompactCore.Checked.CheckedReader` — results and readers;
* `CompactCore.Checked.Varint.readU64`, `CompactCore.Checked.Rle.decodeRle`,
  `CompactCore.Checked.DeltaVarint.decodeU64`, `CompactCore.Checked.Strings.readOne` — the
  decoders, under the names of the source.

Main results:

* `CompactCore.Checked.Varint.readU64_total`, `CompactCore.Checked.Rle.decodeRle_total`,
  `CompactCore.Checked.Strings.readCount_total` — **these decoders do not panic**;
* `CompactCore.Checked.DeltaVarint.decodeU64_totalIff` — decoding deltas asks for as many words as
  the input has.
-/

import CompactCore.Wire.Checked
import CompactCore.Codecs.Strings
import CompactCore.Primitives.Delta
import CompactCore.Primitives.Rle

set_option relaxedAutoImplicit false
set_option autoImplicit false

namespace CompactCore.Checked

/-- The results of checked code. -/
abbrev Outcome (α : Type) : Type := Wire.Checked CompactError α

/-- Readers that are checked code. -/
abbrev CheckedReader (α : Type) : Type := Wire.Reader (Wire.Fault CompactError) α

/-- The bytes of a `u64`. -/
def sizeOfU64 : ℕ := 8

/-- The bytes of a `String`: a capacity, a pointer and a length. -/
def sizeOfString : ℕ := 3 * 8

end CompactCore.Checked

namespace CompactCore.Checked.Varint

open Wire Fault CompactError
open CompactCore.Varint (encodedLen)

/-- The loop of `readU64` on the bytes from the cursor on. -/
def readLoop : List UInt8 → ℕ → UInt64 → ℕ → ℕ → Outcome (UInt64 × ℕ)
  | [], _, _, _, _ => .error (error (invalidInput "truncated varint"))
  | byte :: data, cursor, value, shift, bytesRead => do
      let cursor ← addUsize cursor 1
      let bytesRead ← addUsize bytesRead 1
      let part := (byte &&& 0x7f).toUInt64
      if shift = 63 ∧ (1 < part ∨ byte &&& 0x80 ≠ 0) then
        .error (error (invalidInput "varint overflow"))
      else if 63 < shift then .error (error (invalidInput "varint overflow"))
      else do
        let group ← shiftLeft part shift
        let value := value ||| group
        if byte &&& 0x80 = 0 then
          if bytesRead ≠ encodedLen value then .error (error (invalidInput "overlong varint"))
          else return (value, cursor)
        else do
          let shift ← addU32 shift 7
          readLoop data cursor value shift bytesRead

/-- Decode one canonical base-128 varint at the cursor. -/
def readU64 : CheckedReader UInt64 := fun data cursor => readLoop (data.drop cursor) cursor 0 0 0

/-- The loop of `decodeU64`. -/
def decodeLoop : List UInt8 → List UInt64 → UInt64 → ℕ → ℕ → Outcome (List UInt64)
  | [], out, _, shift, _ =>
      if shift ≠ 0 then .error (error (invalidInput "truncated varint")) else return out
  | byte :: data, out, value, shift, bytesRead => do
      let part := (byte &&& 0x7f).toUInt64
      if shift = 63 ∧ (1 < part ∨ byte &&& 0x80 ≠ 0) then
        .error (error (invalidInput "varint overflow"))
      else if 63 < shift then .error (error (invalidInput "varint overflow"))
      else do
        let group ← shiftLeft part shift
        let value := value ||| group
        let bytesRead ← addUsize bytesRead 1
        if byte &&& 0x80 = 0 then
          if bytesRead ≠ encodedLen value then .error (error (invalidInput "overlong varint"))
          else decodeLoop data (out ++ [value]) 0 0 0
        else do
          let shift ← addU32 shift 7
          decodeLoop data out value shift bytesRead

/-- Decode canonical base-128 varints into unsigned 64-bit integers. -/
def decodeU64 (data : List UInt8) : Outcome (List UInt64) := decodeLoop data [] 0 0 0

/-! ### No decoder panics -/

/-- The test on the shift keeps it inside the word, and the counters count bytes of the slice. -/
theorem readLoop_total {rest : List UInt8} {cursor bytesRead shift : ℕ} {value : UInt64}
    (hcursor : cursor + rest.length < wordSize) (hread : bytesRead + rest.length < wordSize) :
    readLoop rest cursor value shift bytesRead =
      total (CompactCore.Varint.readLoop rest cursor value shift bytesRead) := by
  induction rest generalizing cursor bytesRead shift value with
  | nil => rfl
  | cons byte rest ih =>
      rw [List.length_cons] at hcursor hread
      rw [readLoop, CompactCore.Varint.readLoop, ok_bind_eq (addUsize_of (by omega)),
        ok_bind_eq (addUsize_of (by omega))]
      dsimp only
      split
      · rfl
      · split
        · rfl
        · rename_i hshift
          rw [ok_bind_eq (shiftLeft_of (by omega))]
          split
          · split <;> rfl
          · rw [ok_bind_eq (addU32_of (by omega))]
            exact ih (by omega) (by omega)

theorem readU64_total {data : List UInt8} {c : ℕ} (hfit : Fits data) :
    readU64 data c = total (CompactCore.Varint.readU64 data c) := by
  have hlen : data.length < wordSize := hfit
  rw [readU64, CompactCore.Varint.readU64]
  rcases Nat.lt_or_ge data.length c with hc | hc
  · rw [List.drop_of_length_le hc.le]
    rfl
  · exact readLoop_total (by rw [List.length_drop]; omega) (by rw [List.length_drop]; omega)

theorem decodeLoop_total {rest : List UInt8} {out : List UInt64} {bytesRead shift : ℕ}
    {value : UInt64} (hread : bytesRead + rest.length < wordSize) :
    decodeLoop rest out value shift bytesRead =
      total (CompactCore.Varint.decodeLoop rest out value shift bytesRead) := by
  induction rest generalizing out bytesRead shift value with
  | nil =>
      rw [decodeLoop, CompactCore.Varint.decodeLoop]
      split <;> rfl
  | cons byte rest ih =>
      rw [List.length_cons] at hread
      rw [decodeLoop, CompactCore.Varint.decodeLoop]
      dsimp only
      split
      · rfl
      · split
        · rfl
        · rename_i hshift
          rw [ok_bind_eq (shiftLeft_of (by omega)), ok_bind_eq (addUsize_of (by omega))]
          split
          · split
            · rfl
            · exact ih (by omega)
          · rw [ok_bind_eq (addU32_of (by omega))]
            exact ih (by omega)

theorem decodeU64_total {data : List UInt8} (hfit : Fits data) :
    decodeU64 data = total (CompactCore.Varint.decodeU64 data) :=
  decodeLoop_total (by rw [Nat.zero_add]; exact hfit)

end CompactCore.Checked.Varint

/-! ### Run lengths -/

namespace CompactCore.Checked.Rle

open Wire Fault CompactError
open CompactCore.Rle (expand)

/-- The first pass over the pairs, whose count is taken out by its index. -/
def estimateSize (maxOutputLen : ℕ) : List UInt8 → ℕ → Outcome ℕ
  | count :: value :: pairs, estimatedSize => do
      let chunk := [count, value]
      let count ← index chunk 0
      failIf (count.toNat = 0) (error (invalidInput "RLE run count of 0 is invalid"))
      let estimatedSize ← okOr (error (invalidInput "RLE decoded length overflow"))
        (usizeAdd estimatedSize count.toNat)
      failIf (maxOutputLen < estimatedSize)
        (error (invalidInput "RLE decoded length exceeds configured limit"))
      estimateSize maxOutputLen pairs estimatedSize
  | _, estimatedSize => .ok estimatedSize

/-- The second pass, over the pairs again. -/
def expandPairs : List UInt8 → Outcome (List UInt8)
  | count :: value :: pairs => do
      let chunk := [count, value]
      let count ← index chunk 0
      let value ← index chunk 1
      let rest ← expandPairs pairs
      return List.replicate count.toNat value ++ rest
  | _ => .ok []

/-- Decode RLE pairs while rejecting output larger than `maxOutputLen`. -/
def decodeRleBounded (data : List UInt8) (maxOutputLen : ℕ) : Outcome (List UInt8) := do
  failIf (data.length % 2 ≠ 0)
    (error (invalidInput "RLE data must have even length (count, value) pairs"))
  let estimatedSize ← estimateSize maxOutputLen data 0
  withCapacity 1 estimatedSize
  expandPairs data

/-- Decode `[count][byte]` RLE pairs back into the original byte stream. -/
def decodeRle (data : List UInt8) : Outcome (List UInt8) := decodeRleBounded data maxDecodedBytes

theorem estimateSize_total (maxOutputLen : ℕ) (data : List UInt8) (estimatedSize : ℕ) :
    estimateSize maxOutputLen data estimatedSize =
      total (CompactCore.Rle.estimateSize maxOutputLen data estimatedSize) := by
  induction data, estimatedSize using CompactCore.Rle.estimateSize.induct with
  | case1 count value pairs estimatedSize ih =>
      rw [estimateSize, CompactCore.Rle.estimateSize, ok_bind_eq (index_of (a := count) rfl)]
      refine total_bind_of (total_failIf _ _).symm fun _ _ => ?_
      refine total_bind_of (total_okOr _ _).symm fun next _ => ?_
      exact total_bind_of (total_failIf _ _).symm fun _ _ => ih next
  | case2 data estimatedSize hdata =>
      rw [estimateSize, CompactCore.Rle.estimateSize]
      · rfl
      · exact hdata
      · exact hdata

theorem expandPairs_total (data : List UInt8) : expandPairs data = .ok (expand data) := by
  induction data using CompactCore.Rle.expand.induct with
  | case1 count value pairs ih =>
      rw [expandPairs, expand, ok_bind_eq (index_of (a := count) rfl),
        ok_bind_eq (index_of (a := value) rfl), ok_bind_eq ih]
      rfl
  | case2 data hdata =>
      rw [expandPairs, expand]
      · exact hdata
      · exact hdata

/-- What the first pass returns is zero or inside the limit. -/
theorem estimateSize_le {maxOutputLen : ℕ} {data : List UInt8} {estimatedSize size : ℕ}
    (h : CompactCore.Rle.estimateSize maxOutputLen data estimatedSize = .ok size)
    (hle : estimatedSize ≤ maxOutputLen) : size ≤ maxOutputLen := by
  induction data, estimatedSize using CompactCore.Rle.estimateSize.induct with
  | case1 count value pairs estimatedSize ih =>
      simp only [CompactCore.Rle.estimateSize, bind_ok, failIf_ok] at h
      obtain ⟨_, _, next, -, _, hnext, hrest⟩ := h
      exact ih next hrest (not_lt.1 hnext)
  | case2 data estimatedSize hdata =>
      rw [CompactCore.Rle.estimateSize] at h
      · cases h
        exact hle
      · exact hdata

theorem decodeRleBounded_total {maxOutputLen : ℕ} (hmax : maxOutputLen ≤ maxAllocation)
    (data : List UInt8) : decodeRleBounded data maxOutputLen =
      total (CompactCore.Rle.decodeRleBounded data maxOutputLen) := by
  rw [decodeRleBounded, CompactCore.Rle.decodeRleBounded]
  refine total_bind_of (total_failIf _ _).symm fun _ _ => ?_
  refine total_bind_of (estimateSize_total _ _ _) fun size hsize => ?_
  have hle := estimateSize_le hsize (Nat.zero_le _)
  rw [ok_bind_eq (withCapacity_of (by omega))]
  exact expandPairs_total data

theorem decodeRle_total (data : List UInt8) :
    decodeRle data = total (CompactCore.Rle.decodeRle data) :=
  decodeRleBounded_total (by rw [maxDecodedBytes, maxAllocation]; omega) data

end CompactCore.Checked.Rle

/-! ### Deltas -/

namespace CompactCore.Checked.Delta

open Wire Fault CompactError
open CompactCore.Delta (decodeFrom)

/-- Rebuild original `u64` values from `[base, delta_1, delta_2, ...]`. -/
def decodeDeltaU64 (values : List UInt64) : Outcome (List UInt64) :=
  if values = [] then .ok []
  else do
    withCapacity sizeOfU64 values.length
    let base ← index values 0
    let deltas ← sliceFrom values 1
    let out ← total (decodeFrom "u64 delta decode overflow" base deltas)
    return base :: out

theorem decodeDeltaU64_totalIff (values : List UInt64) :
    TotalIff (sizeOfU64 * values.length ≤ maxAllocation) (decodeDeltaU64 values)
      (CompactCore.Delta.decodeDeltaU64 values) := by
  cases values with
  | nil => exact .of_total (Nat.zero_le _) rfl
  | cons base deltas =>
      rw [decodeDeltaU64, if_neg (List.cons_ne_nil _ _)]
      refine TotalIff.withCapacity ?_
      rw [ok_bind_eq (index_of (a := base) rfl), ok_bind_eq (sliceFrom_of (by simp))]
      exact total_bind_of rfl fun _ _ => rfl

end CompactCore.Checked.Delta

namespace CompactCore.Checked.DeltaVarint

open Wire

/-- Decode varints of deltas back into the original `u64` values. -/
def decodeU64 (data : List UInt8) : Outcome (List UInt64) := do
  let deltas ← Varint.decodeU64 data
  Delta.decodeDeltaU64 deltas

/-- **The deltas ask for a vector of as many words as they are.** -/
theorem decodeU64_totalIff {data : List UInt8} (hfit : Fits data) :
    TotalIff (∀ deltas, CompactCore.Varint.decodeU64 data = .ok deltas →
        sizeOfU64 * deltas.length ≤ maxAllocation)
      (decodeU64 data) (CompactCore.DeltaVarint.decodeU64 data) :=
  TotalIff.bind_total (Varint.decodeU64_total hfit) fun deltas _ =>
    Delta.decodeDeltaU64_totalIff deltas

end CompactCore.Checked.DeltaVarint

/-! ### Strings -/

namespace CompactCore.Checked.Strings

open Wire Fault CompactError
open CompactCore.Strings (Texts)

/-- Read one string at the cursor.  The readers of the crate differ in how they take its bytes. -/
def readOne (rd : ℕ → CheckedReader (List UInt8)) (texts : Texts) : CheckedReader String := do
  let len ← Varint.readU64
  let len ← liftM (total (tryUsize len texts.tooLarge))
  let bytes ← rd len
  liftM (okOr (error (invalidInput texts.notUtf8)) (fromUtf8 bytes))

/-- Read `count` strings at the cursor, in at most `rounds` rounds. -/
def readCount (rd : ℕ → CheckedReader (List UInt8)) (texts : Texts) :
    ℕ → ℕ → CheckedReader (List String)
  | _, 0 => pure []
  | 0, _ + 1 => liftM (exhausted : Outcome (List String))
  | rounds + 1, count + 1 => do
      let value ← readOne rd texts
      let values ← readCount rd texts rounds count
      return value :: values

variable {rd : ℕ → CheckedReader (List UInt8)} {texts : Texts} {data : List UInt8}

theorem readOne_total (hrd : Checked.Reads rd (invalidInput texts.overflow)
    (invalidInput texts.truncated)) (hfit : Fits data) (c : ℕ) :
    readOne rd texts data c = total (CompactCore.Strings.readOne texts data c) := by
  rw [readOne, CompactCore.Strings.readOne]
  refine Reader.total_bind_of (Varint.readU64_total hfit) fun _ _ _ => ?_
  refine Reader.total_bind_of (Reader.total_lift_of rfl) fun _ _ _ => ?_
  refine Reader.total_bind_of (hrd _ _ _) fun _ _ _ => ?_
  exact Reader.total_lift_of (total_okOr _ _).symm

/-- Every string takes a byte, so the bytes that are left limit the rounds. -/
theorem readCount_total (hrd : Checked.Reads rd (invalidInput texts.overflow)
    (invalidInput texts.truncated)) (hfit : Fits data) {rounds count c : ℕ} (hpos : 0 < rounds)
    (hrounds : data.length < c + rounds) :
    readCount rd texts rounds count data c =
      total (CompactCore.Strings.readCount texts count data c) := by
  induction count generalizing rounds c with
  | zero =>
      cases rounds <;> rfl
  | succ count ih =>
      obtain ⟨rounds, rfl⟩ := Nat.exists_eq_succ_of_ne_zero hpos.ne'
      rw [readCount, CompactCore.Strings.readCount]
      refine Reader.total_bind_of (readOne_total hrd hfit c) fun value c₁ hread => ?_
      obtain ⟨hat, rfl⟩ := (CompactCore.Strings.readOne_ok hfit).1 hread
      have hle := hat.le
      have hbyte := CompactCore.Strings.length_lenPrefixed_pos value
      exact Reader.total_bind_of (ih (by omega) (by omega)) fun _ _ _ => rfl

end CompactCore.Checked.Strings
