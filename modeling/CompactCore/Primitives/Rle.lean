/-
**Run-length encoding of bytes.**

A run is a pair of bytes `[count, byte]`.  The count is one byte, so the encoder splits a run that
is longer than 255.  The decoder walks the pairs twice: once to check them and to bound the length
of the output, once to expand them.

Main definitions:

* `CompactCore.Rle.encodeRle` — the encoder;
* `CompactCore.Rle.decodeRleBounded`, `CompactCore.Rle.decodeRle` — the decoder, with a bound of
  the caller's or the crate's own;
* `CompactCore.Rle.counts`, `CompactCore.Rle.runs` — the counts of some pairs, and their runs.

Main results:

* `CompactCore.Rle.expand_encodeRle` — the runs of a byte string expand to it;
* `CompactCore.Rle.decodeRleBounded_encodeRle` — the decoder inverts the encoder within its bound;
* `CompactCore.Rle.decodeRleBounded_length_le` — the decoder never leaves its bound;
* `CompactCore.Rle.encodeRle_greedy` — the encoder cuts off the longest runs;
* `CompactCore.Rle.encodeRle_optimal` — **no shorter bytes are decoded to the same output**.
-/

import CompactCore.Core
import CompactCore.Wire.Greedy

set_option relaxedAutoImplicit false
set_option autoImplicit false

namespace CompactCore.Rle

open Wire CompactError

/-! ### The encoder -/

/-- Extend a run of `byte` while the next byte matches and the one-byte count can still represent
the run length.  Returns the length of the run and the bytes after it. -/
def extendRun (byte : UInt8) : ℕ → List UInt8 → ℕ × List UInt8
  | count, [] => (count, [])
  | count, next :: data =>
      if next = byte ∧ count < 255 then extendRun byte (count + 1) data
      else (count, next :: data)

theorem length_extendRun (byte : UInt8) (count : ℕ) (data : List UInt8) :
    (extendRun byte count data).2.length ≤ data.length := by
  induction data generalizing count with
  | nil => simp [extendRun]
  | cons next data ih =>
      rw [extendRun]
      split
      · have := ih (count + 1)
        rw [List.length_cons]
        omega
      · exact le_refl _

/-- Encode bytes with run-length encoding. -/
def encodeRle : List UInt8 → List UInt8
  | [] => []
  | byte :: data =>
      let run := extendRun byte 1 data
      UInt8.ofNat run.1 :: byte :: encodeRle run.2
termination_by data => data.length
decreasing_by
  have := length_extendRun byte 1 data
  rw [List.length_cons]
  omega

/-! ### The decoder -/

/-- The first pass over the pairs: check the counts and bound the size of the output. -/
def estimateSize (maxOutputLen : ℕ) : List UInt8 → ℕ → Result ℕ
  | count :: _ :: pairs, estimatedSize => do
      failIf (count.toNat = 0) (invalidInput "RLE run count of 0 is invalid")
      let estimatedSize ← okOr (invalidInput "RLE decoded length overflow")
        (usizeAdd estimatedSize count.toNat)
      failIf (maxOutputLen < estimatedSize)
        (invalidInput "RLE decoded length exceeds configured limit")
      estimateSize maxOutputLen pairs estimatedSize
  | _, estimatedSize => .ok estimatedSize

/-- The second pass: repeat every byte as often as its count says. -/
def expand : List UInt8 → List UInt8
  | count :: value :: pairs => List.replicate count.toNat value ++ expand pairs
  | _ => []

/-- Decode RLE pairs while rejecting output larger than `maxOutputLen`. -/
def decodeRleBounded (data : List UInt8) (maxOutputLen : ℕ) : Result (List UInt8) := do
  failIf (data.length % 2 ≠ 0)
    (invalidInput "RLE data must have even length (count, value) pairs")
  let _ ← estimateSize maxOutputLen data 0
  return expand data

/-- Decode `[count][byte]` RLE pairs back into the original byte stream. -/
def decodeRle (data : List UInt8) : Result (List UInt8) := decodeRleBounded data maxDecodedBytes

/-! ### Round trip -/

/-- A run is its first bytes, at most 255 of them, and the rest. -/
theorem extendRun_spec {byte : UInt8} {count : ℕ} (hcount : count ≤ 255) (data : List UInt8) :
    count ≤ (extendRun byte count data).1 ∧ (extendRun byte count data).1 ≤ 255 ∧
      List.replicate (extendRun byte count data).1 byte ++ (extendRun byte count data).2 =
        List.replicate count byte ++ data := by
  induction data generalizing count with
  | nil => exact ⟨le_refl _, hcount, rfl⟩
  | cons next data ih =>
      rw [extendRun]
      split
      · rename_i h
        have hcount' : count + 1 ≤ 255 := by omega
        obtain ⟨hle, hmax, heq⟩ := ih hcount'
        refine ⟨by omega, hmax, ?_⟩
        rw [heq, h.1, List.replicate_succ', List.append_assoc, List.singleton_append]
      · exact ⟨le_refl _, hcount, rfl⟩

theorem toNat_runCount {count : ℕ} (h : count ≤ 255) : (UInt8.ofNat count).toNat = count :=
  UInt8.toNat_ofNat_of_lt (Nat.lt_succ_of_le h)

/-- **The runs of a byte string expand to it.** -/
theorem expand_encodeRle (data : List UInt8) : expand (encodeRle data) = data := by
  induction data using encodeRle.induct with
  | case1 => simp [encodeRle, expand]
  | case2 byte data run ih =>
      obtain ⟨-, hmax, heq⟩ : 1 ≤ run.1 ∧ run.1 ≤ 255 ∧
          List.replicate run.1 byte ++ run.2 = byte :: data := extendRun_spec (by omega) data
      have hcount : (UInt8.ofNat run.1).toNat = run.1 := toNat_runCount (by omega)
      rw [encodeRle]
      show List.replicate (UInt8.ofNat run.1).toNat byte ++ expand (encodeRle run.2) = _
      rw [hcount, ih, heq]

theorem even_length_encodeRle (data : List UInt8) : (encodeRle data).length % 2 = 0 := by
  induction data using encodeRle.induct with
  | case1 => simp [encodeRle]
  | case2 byte data run ih =>
      rw [encodeRle]
      show ((encodeRle run.2).length + 1 + 1) % 2 = 0
      omega

/-- The first pass accepts the runs of a byte string that stays within the bound. -/
theorem estimateSize_encodeRle (maxOutputLen : ℕ) (data : List UInt8) (estimatedSize : ℕ)
    (hmax : estimatedSize + data.length ≤ maxOutputLen)
    (hword : estimatedSize + data.length < wordSize) :
    estimateSize maxOutputLen (encodeRle data) estimatedSize =
      .ok (estimatedSize + data.length) := by
  induction data using encodeRle.induct generalizing estimatedSize with
  | case1 => simp [encodeRle, estimateSize]
  | case2 byte data run ih =>
      obtain ⟨hpos, hrun, heq⟩ : 1 ≤ run.1 ∧ run.1 ≤ 255 ∧
          List.replicate run.1 byte ++ run.2 = byte :: data := extendRun_spec (by omega) data
      have hcount : (UInt8.ofNat run.1).toNat = run.1 := toNat_runCount (by omega)
      have hlen := congrArg List.length heq
      rw [List.length_append, List.length_replicate] at hlen
      rw [← hlen] at hmax hword ⊢
      rw [encodeRle]
      show estimateSize maxOutputLen (UInt8.ofNat run.1 :: byte :: encodeRle run.2) _ = _
      simp only [estimateSize, bind_ok, failIf_ok, okOr_ok, usizeAdd_eq_some, hcount]
      refine ⟨(), by omega, _, ⟨by omega, rfl⟩, (), by omega, ?_⟩
      rw [ih (estimatedSize + run.1) (by omega) (by omega), Nat.add_assoc]

/-- **The decoder inverts the encoder** on output within its bound. -/
theorem decodeRleBounded_encodeRle {data : List UInt8} {maxOutputLen : ℕ}
    (hmax : data.length ≤ maxOutputLen) (hfit : Fits data) :
    decodeRleBounded (encodeRle data) maxOutputLen = .ok data := by
  have hpass := estimateSize_encodeRle maxOutputLen data 0 (by omega) (by simpa [Fits] using hfit)
  simp only [decodeRleBounded, bind_ok, failIf_ok, pure_ok]
  exact ⟨(), by simp [even_length_encodeRle], _, hpass, expand_encodeRle data⟩

/-- No run is empty, so the runs take at most twice the room of the bytes. -/
theorem length_encodeRle_le (data : List UInt8) :
    (encodeRle data).length ≤ 2 * data.length := by
  induction data using encodeRle.induct with
  | case1 => simp [encodeRle]
  | case2 byte data run ih =>
      have hrun : run.2.length ≤ data.length := length_extendRun byte 1 data
      rw [encodeRle]
      show (encodeRle run.2).length + 1 + 1 ≤ 2 * (data.length + 1)
      omega

theorem extendRun_replicate (byte : UInt8) {count : ℕ} (hcount : count ≤ 255) (n : ℕ) :
    (extendRun byte count (List.replicate n byte)).2 = List.replicate (n - (255 - count)) byte := by
  induction n generalizing count with
  | zero => simp [extendRun]
  | succ n ih =>
      rw [List.replicate_succ, extendRun]
      by_cases hlt : count < 255
      · rw [if_pos ⟨rfl, hlt⟩, ih hlt]
        congr 1
        omega
      · have hfull : n + 1 - (255 - count) = n + 1 := by omega
        rw [if_neg fun h => hlt h.2, hfull, List.replicate_succ]

/-- Equal bytes take a pair for every 255 of them. -/
theorem length_encodeRle_replicate (byte : UInt8) (n : ℕ) :
    255 * (encodeRle (List.replicate n byte)).length ≤ 2 * (n + 254) := by
  induction n using Nat.strong_induction_on with
  | _ n ih =>
      cases n with
      | zero => simp [encodeRle]
      | succ n =>
          have hrest := ih (n - 254) (by omega)
          have hlen : (encodeRle (List.replicate (n + 1) byte)).length =
              (encodeRle (List.replicate (n - 254) byte)).length + 2 := by
            rw [List.replicate_succ, encodeRle, extendRun_replicate byte (by decide)]
            rfl
          by_cases hshort : n < 254
          · have hnil : n - 254 = 0 := by omega
            rw [hlen, hnil, List.replicate_zero, encodeRle, List.length_nil]
            omega
          · omega

/-! ### The bound -/

/-- What the first pass adds up is the length of what the second pass writes. -/
theorem estimateSize_ok {maxOutputLen : ℕ} {data : List UInt8} {estimatedSize size : ℕ}
    (h : estimateSize maxOutputLen data estimatedSize = .ok size)
    (hmax : estimatedSize ≤ maxOutputLen) :
    size = estimatedSize + (expand data).length ∧ size ≤ maxOutputLen := by
  induction data, estimatedSize using estimateSize.induct with
  | case1 estimatedSize count value pairs ih =>
      simp only [estimateSize, bind_ok, failIf_ok, okOr_ok, usizeAdd_eq_some, not_lt] at h
      obtain ⟨_, -, total, ⟨-, rfl⟩, _, hle, h⟩ := h
      obtain ⟨hsize, hbound⟩ := ih _ h hle
      refine ⟨?_, hbound⟩
      rw [hsize, expand, List.length_append, List.length_replicate, Nat.add_assoc]
  | case2 data estimatedSize hpair =>
      rw [estimateSize.eq_2 _ _ _ hpair] at h
      rw [expand.eq_2 _ hpair]
      cases h
      exact ⟨rfl, hmax⟩

/-- **The decoder never leaves its bound.** -/
theorem decodeRleBounded_length_le {data out : List UInt8} {maxOutputLen : ℕ}
    (h : decodeRleBounded data maxOutputLen = .ok out) : out.length ≤ maxOutputLen := by
  simp only [decodeRleBounded, bind_ok, pure_ok] at h
  obtain ⟨_, -, size, hpass, rfl⟩ := h
  obtain ⟨hsize, hbound⟩ := estimateSize_ok hpass (Nat.zero_le _)
  omega

/-! ### What is accepted -/

/-- The counts of the pairs. -/
def counts : List UInt8 → List ℕ
  | count :: _ :: pairs => count.toNat :: counts pairs
  | _ => []

theorem length_expand (data : List UInt8) : (expand data).length = (counts data).sum := by
  induction data using counts.induct with
  | case1 count value pairs ih =>
      rw [expand, counts, List.length_append, List.length_replicate, List.sum_cons, ih]
  | case2 data hpair =>
      rw [expand.eq_2 _ hpair, counts.eq_2 _ hpair, List.length_nil, List.sum_nil]

/-- The first pass accepts counts that are not zero and stay within the bound. -/
theorem exists_estimateSize {maxOutputLen : ℕ} {data : List UInt8} {estimatedSize : ℕ}
    (hmax : estimatedSize ≤ maxOutputLen) (hword : maxOutputLen < wordSize) :
    (∃ size, estimateSize maxOutputLen data estimatedSize = .ok size) ↔
      (∀ count ∈ counts data, count ≠ 0) ∧ estimatedSize + (counts data).sum ≤ maxOutputLen := by
  induction data using counts.induct generalizing estimatedSize with
  | case1 count value pairs ih =>
      simp only [estimateSize, bind_ok, failIf_ok, okOr_ok, usizeAdd_eq_some, not_lt, counts,
        List.forall_mem_cons, List.sum_cons, ← Nat.add_assoc]
      constructor
      · rintro ⟨size, _, hne, _, ⟨-, rfl⟩, _, hle, hsize⟩
        obtain ⟨hcounts, hsum⟩ := (ih hle).1 ⟨size, hsize⟩
        exact ⟨⟨hne, hcounts⟩, hsum⟩
      · rintro ⟨⟨hne, hcounts⟩, hsum⟩
        have hle : estimatedSize + count.toNat ≤ maxOutputLen := by omega
        obtain ⟨size, hsize⟩ := (ih hle).2 ⟨hcounts, hsum⟩
        exact ⟨size, (), hne, _, ⟨by omega, rfl⟩, (), hle, hsize⟩
  | case2 data hpair =>
      rw [counts.eq_2 _ hpair, estimateSize.eq_2 _ _ _ hpair]
      simp [hmax]

/-- **What the decoder accepts**: complete pairs, with counts that are not zero and stay within the
bound. -/
theorem decodeRleBounded_ok {data out : List UInt8} {maxOutputLen : ℕ}
    (hword : maxOutputLen < wordSize) :
    decodeRleBounded data maxOutputLen = .ok out ↔
      (data.length % 2 = 0 ∧ (∀ count ∈ counts data, count ≠ 0) ∧
        (counts data).sum ≤ maxOutputLen) ∧ out = expand data := by
  have hpass : (∃ size, estimateSize maxOutputLen data 0 = .ok size) ↔ _ :=
    exists_estimateSize (Nat.zero_le _) hword
  rw [Nat.zero_add] at hpass
  simp only [decodeRleBounded, bind_ok, failIf_ok, not_not, pure_ok]
  rw [← hpass]
  constructor
  · rintro ⟨_, heven, size, hsize, rfl⟩
    exact ⟨⟨heven, size, hsize⟩, rfl⟩
  · rintro ⟨⟨heven, size, hsize⟩, rfl⟩
    exact ⟨(), heven, size, hsize, rfl⟩

/-! ### The encoder is greedy -/

/-- What one pair stands for: at most 255 equal bytes. -/
def IsRun (bytes : List UInt8) : Prop := ∃ count ≤ 255, ∃ byte, bytes = List.replicate count byte

/-- The runs of the pairs. -/
def runs : List UInt8 → List (List UInt8)
  | count :: value :: pairs => List.replicate count.toNat value :: runs pairs
  | _ => []

theorem flatten_runs (data : List UInt8) : (runs data).flatten = expand data := by
  induction data using runs.induct with
  | case1 count value pairs ih => rw [runs, List.flatten_cons, ih, expand]
  | case2 data hpair => rw [runs.eq_2 _ hpair, expand.eq_2 _ hpair, List.flatten_nil]

theorem length_runs (data : List UInt8) : (runs data).length = data.length / 2 := by
  induction data using runs.induct with
  | case1 count value pairs ih =>
      rw [runs, List.length_cons, ih, List.length_cons, List.length_cons]
      omega
  | case2 data hpair =>
      rw [runs.eq_2 _ hpair, List.length_nil]
      -- less than a pair
      rcases data with _ | ⟨count, _ | ⟨value, pairs⟩⟩
      · rfl
      · simp
      · exact absurd rfl (hpair count value pairs)

theorem isRun_runs (data : List UInt8) : ∀ run ∈ runs data, IsRun run := by
  induction data using runs.induct with
  | case1 count value pairs ih =>
      rw [runs, List.forall_mem_cons]
      exact ⟨⟨count.toNat, Nat.le_of_lt_succ count.toNat_lt, value, rfl⟩, ih⟩
  | case2 data hpair =>
      rw [runs.eq_2 _ hpair]
      exact fun _ h => by cases h

/-- Ends of runs are runs. -/
theorem IsRun.suffix {run other : List UInt8} (h : IsRun run) (hsuffix : other <:+ run) :
    IsRun other := by
  obtain ⟨count, hcount, byte, rfl⟩ := h
  obtain ⟨hle, heq⟩ := List.suffix_replicate_iff.1 hsuffix
  exact ⟨other.length, hle.trans hcount, byte, heq⟩

/-- A run ends where it is full, or where the byte changes. -/
theorem extendRun_stops {byte : UInt8} {count : ℕ} (data : List UInt8) :
    255 ≤ (extendRun byte count data).1 ∨ (extendRun byte count data).2.head? ≠ some byte := by
  induction data generalizing count with
  | nil => exact Or.inr (by simp [extendRun])
  | cons next data ih =>
      rw [extendRun]
      split
      · exact ih
      · rename_i h
        rcases not_and_or.1 h with hne | hfull
        · exact Or.inr (by simpa using hne)
        · exact Or.inl (not_lt.1 hfull)

/-- No run is longer than one that is full, or that another byte follows. -/
theorem IsRun.length_le {run rest : List UInt8} {byte : UInt8} {count : ℕ} (h : IsRun run)
    (hcount : 0 < count) (hstops : 255 ≤ count ∨ rest.head? ≠ some byte)
    (hpre : run <+: List.replicate count byte ++ rest) : run.length ≤ count := by
  obtain ⟨n, hn, other, rfl⟩ := h
  rw [List.length_replicate]
  rcases hstops with hfull | hhead
  · exact hn.trans hfull
  · -- one more byte of the run would be the byte that follows
    by_contra hlt
    rw [List.prefix_iff_getElem?] at hpre
    have hfirst := hpre 0 (by rw [List.length_replicate]; omega)
    have hnext := hpre count (by rw [List.length_replicate]; omega)
    rw [List.getElem?_append_left (by rwa [List.length_replicate]),
      List.getElem?_replicate_of_lt hcount, List.getElem_replicate] at hfirst
    rw [List.getElem?_append_right (by rw [List.length_replicate]), List.length_replicate,
      Nat.sub_self, List.getElem_replicate, ← hfirst] at hnext
    exact hhead (by rw [List.head?_eq_getElem?, hnext])

/-- **The encoder cuts off the longest runs.** -/
theorem encodeRle_greedy (data : List UInt8) : Greedy IsRun data (runs (encodeRle data)) := by
  induction data using encodeRle.induct with
  | case1 =>
      rw [encodeRle]
      exact .nil
  | case2 byte data run ih =>
      obtain ⟨hpos, hmax, heq⟩ : 1 ≤ run.1 ∧ run.1 ≤ 255 ∧
          List.replicate run.1 byte ++ run.2 = byte :: data := extendRun_spec (by omega) data
      have hcount : (UInt8.ofNat run.1).toNat = run.1 := toNat_runCount (by omega)
      rw [encodeRle]
      show Greedy IsRun _ (List.replicate (UInt8.ofNat run.1).toNat byte :: runs (encodeRle run.2))
      rw [hcount, ← heq]
      refine .cons ?_ ?_ ih
      · rw [Ne, List.replicate_eq_nil_iff]
        omega
      · intro other hother hpre
        rw [List.length_replicate]
        exact hother.length_le hpos (extendRun_stops data) hpre

/-- **Run-length encoding is lossless and optimal**: no shorter bytes are decoded to the same
output.  The decoder accepts complete pairs with counts that are not zero and stay within its
bound. -/
theorem encodeRle_optimal :
    (∀ x, x.length ≤ maxDecodedBytes →
      decodeRle (encodeRle x) = .ok x ∧
        ∀ e, decodeRle e = .ok x → (encodeRle x).length ≤ e.length) ∧
      ∀ e m, m < wordSize →
        ((∃ y, decodeRleBounded e m = .ok y) ↔
          e.length % 2 = 0 ∧ (∀ count ∈ counts e, count ≠ 0) ∧ (counts e).sum ≤ m) ∧
        ∀ y, decodeRleBounded e m = .ok y → y.length = (counts e).sum := by
  have hbound : maxDecodedBytes < wordSize := by decide
  refine ⟨fun x hx => ⟨?_, fun e he => ?_⟩, fun e m hm => ⟨?_, fun y hy => ?_⟩⟩
  · exact decodeRleBounded_encodeRle hx (lt_of_le_of_lt hx hbound)
  · obtain ⟨⟨heven, -, -⟩, rfl⟩ := (decodeRleBounded_ok hbound).1 he
    have hle := (encodeRle_greedy (expand e)).length_le (fun _ _ h _ => h.suffix) (isRun_runs e)
      (by rw [flatten_runs])
    have heven' := even_length_encodeRle (expand e)
    rw [length_runs, length_runs] at hle
    omega
  · simp only [decodeRleBounded_ok hm]
    exact ⟨fun ⟨_, h, _⟩ => h, fun h => ⟨expand e, h, rfl⟩⟩
  · rw [((decodeRleBounded_ok hm).1 hy).2, length_expand]

/-- Three equal bytes take one pair. -/
theorem encodeRle_optimal_three : decodeRle (encodeRle [7, 7, 7]) = .ok [7, 7, 7] ∧
    ∀ e, decodeRle e = .ok [7, 7, 7] → (encodeRle [7, 7, 7]).length ≤ e.length :=
  encodeRle_optimal.1 [7, 7, 7] (by decide)

end CompactCore.Rle
