/-
**Length-prefixed strings.**

String columns store a string as the varint of its byte length and its UTF-8 bytes.  Several
codecs write a list of such strings and read it back, each with its own error texts; the texts are
parameters here.

Main definitions:

* `CompactCore.Strings.lenPrefixed` — the bytes of one string;
* `CompactCore.Strings.encodeAll` — the encoder's loop over a list;
* `CompactCore.Strings.readOne`, `CompactCore.Strings.readCount` — one string, or a counted list, at
  the cursor.

Main results:

* `CompactCore.Strings.encodeAll_ok`, `CompactCore.Strings.readOne_ok`,
  `CompactCore.Strings.readCount_ok` — **writing and reading are exact**.
-/

import CompactCore.Primitives.Varint
import CompactCore.Text

set_option relaxedAutoImplicit false
set_option autoImplicit false

namespace CompactCore.Strings

open Wire CompactError

/-! ### The codec -/

/-- The stored form of a string. -/
def lenPrefixed (value : String) : List UInt8 :=
  Varint.encodeU64 [UInt64.ofNat (asBytes value).length] ++ asBytes value

/-- Write one string. -/
def encodeOne (tooLarge : String) (value : String) : Result (List UInt8) := do
  let bytes := asBytes value
  let len ← tryU64 bytes.length tooLarge
  return Varint.encodeU64 [len] ++ bytes

/-- Write a list of strings. -/
def encodeAll (tooLarge : String) : List String → Result (List UInt8)
  | [] => .ok []
  | value :: values => do
      let bytes ← encodeOne tooLarge value
      let out ← encodeAll tooLarge values
      return bytes ++ out

/-- The error texts of a string reader. -/
structure Texts where
  tooLarge : String
  overflow : String
  truncated : String
  notUtf8 : String

/-- Read one string at the cursor. -/
def readOne (texts : Texts) : Reader CompactError String := do
  let len ← Varint.readU64
  let len ← liftM (tryUsize len texts.tooLarge)
  let bytes ← readExact (invalidInput texts.overflow) (invalidInput texts.truncated) len
  liftM (okOr (invalidInput texts.notUtf8) (fromUtf8 bytes))

/-- A string that is read moves the cursor forward. -/
theorem readOne_cursor_lt {texts : Texts} {data : List UInt8} {c c' : ℕ} {value : String}
    (h : readOne texts data c = .ok (value, c')) : c < c' := by
  simp only [readOne, Reader.bind_ok, Varint.readU64_ok, Reader.lift_ok] at h
  obtain ⟨len, _, ⟨-, rfl⟩, _, _, ⟨-, rfl⟩, _, _, hbytes, -, rfl⟩ := h
  have hpos := Varint.length_encodeOne_pos len
  have hcur := (readExact_at hbytes).2.2
  omega

/-- Read `count` strings at the cursor. -/
def readCount (texts : Texts) : ℕ → Reader CompactError (List String)
  | 0 => pure []
  | count + 1 => do
      let value ← readOne texts
      let values ← readCount texts count
      return value :: values

/-! ### Exactness -/

theorem length_lenPrefixed_pos (value : String) : 0 < (lenPrefixed value).length := by
  have hpos := Varint.length_encodeOne_pos (UInt64.ofNat (asBytes value).length)
  rw [lenPrefixed, Varint.encodeU64_singleton, List.length_append]
  omega

theorem length_lenPrefixed_le (value : String) :
    (lenPrefixed value).length ≤ (asBytes value).length + 10 := by
  have hle := Varint.length_encodeOne_le (UInt64.ofNat (asBytes value).length)
  rw [lenPrefixed, Varint.encodeU64_singleton, List.length_append]
  omega

theorem encodeOne_ok {tooLarge value : String} {out : List UInt8} :
    encodeOne tooLarge value = .ok out ↔
      (asBytes value).length < wordSize ∧ out = lenPrefixed value := by
  simp only [encodeOne, bind_ok, tryU64_ok, pure_ok]
  constructor
  · intro h
    obtain ⟨len, hlen, rfl⟩ := h
    refine ⟨by rw [← hlen]; exact len.toNat_lt, ?_⟩
    rw [lenPrefixed, ← hlen, UInt64.ofNat_toNat]
  · intro h
    obtain ⟨hlt, rfl⟩ := h
    refine ⟨UInt64.ofNat (asBytes value).length, ?_, rfl⟩
    exact toNat_ofNat hlt

/-- **The writer's loop** concatenates the stored forms. -/
theorem encodeAll_ok {tooLarge : String} {values : List String} {out : List UInt8} :
    encodeAll tooLarge values = .ok out ↔
      (∀ value ∈ values, (asBytes value).length < wordSize) ∧
        out = values.flatMap lenPrefixed := by
  induction values generalizing out with
  | nil => simp [encodeAll, eq_comm]
  | cons value values ih =>
      simp only [encodeAll, bind_ok, encodeOne_ok, ih, pure_ok, List.mem_cons, forall_eq_or_imp,
        List.flatMap_cons]
      constructor
      · intro h
        obtain ⟨_, ⟨hlt, rfl⟩, _, ⟨hall, rfl⟩, rfl⟩ := h
        exact ⟨⟨hlt, hall⟩, rfl⟩
      · intro h
        obtain ⟨⟨hlt, hall⟩, rfl⟩ := h
        exact ⟨_, ⟨hlt, rfl⟩, _, ⟨hall, rfl⟩, rfl⟩

/-- **Reading one string is exact.** -/
theorem readOne_ok {texts : Texts} {data : List UInt8} {c c' : ℕ} {value : String}
    (hfit : Fits data) : readOne texts data c = .ok (value, c') ↔
      At data c (lenPrefixed value) ∧ c' = c + (lenPrefixed value).length := by
  simp only [readOne, Reader.bind_ok, Varint.readU64_ok, Reader.lift_ok, tryUsize_eq,
    Except.ok.injEq, readExact_ok hfit, okOr_ok, fromUtf8_eq_some, lenPrefixed,
    Varint.encodeU64_singleton, at_append, List.length_append]
  constructor
  · intro h
    obtain ⟨len, _, ⟨hlen, rfl⟩, _, _, ⟨rfl, rfl⟩, _, _, ⟨hbytes, hcount, rfl⟩, rfl, rfl⟩ := h
    rw [hcount, UInt64.ofNat_toNat]
    exact ⟨⟨hlen, hbytes⟩, by omega⟩
  · intro h
    obtain ⟨⟨hlen, hbytes⟩, rfl⟩ := h
    have hle := hbytes.le
    have hlt : (asBytes value).length < wordSize := lt_of_le_of_lt (by omega) hfit
    have hn : (UInt64.ofNat (asBytes value).length).toNat = (asBytes value).length := by
      exact toNat_ofNat hlt
    exact ⟨_, _, ⟨hlen, rfl⟩, _, _, ⟨rfl, rfl⟩, _, _, ⟨hbytes, hn.symm, rfl⟩, rfl, by omega⟩

/-- **Reading a counted list is exact.** -/
theorem readCount_ok {texts : Texts} {data : List UInt8} {count c c' : ℕ} {values : List String}
    (hfit : Fits data) (hc : c ≤ data.length) :
    readCount texts count data c = .ok (values, c') ↔
      values.length = count ∧ At data c (values.flatMap lenPrefixed) ∧
        c' = c + (values.flatMap lenPrefixed).length := by
  induction count generalizing c values with
  | zero =>
      rw [readCount, Reader.pure_ok]
      constructor
      · intro h
        obtain ⟨rfl, rfl⟩ := h
        exact ⟨rfl, at_nil.2 hc, rfl⟩
      · intro h
        obtain ⟨hlen, -, rfl⟩ := h
        obtain rfl := List.length_eq_zero_iff.1 hlen
        exact ⟨rfl, rfl⟩
  | succ count ih =>
      simp only [readCount, Reader.bind_ok, readOne_ok hfit, Reader.pure_ok]
      constructor
      · intro h
        obtain ⟨value, _, ⟨hvalue, rfl⟩, rest, _, hrest, rfl, rfl⟩ := h
        obtain ⟨rfl, hat, rfl⟩ := (ih (by have := hvalue.le; omega)).1 hrest
        rw [List.flatMap_cons, at_append, List.length_append]
        exact ⟨rfl, ⟨hvalue, hat⟩, by omega⟩
      · intro h
        obtain ⟨hlen, hat, rfl⟩ := h
        cases values with
        | nil => cases hlen
        | cons value rest =>
            rw [List.flatMap_cons, at_append] at hat
            have hle := hat.1.le
            refine ⟨value, _, ⟨hat.1, rfl⟩, rest, _, (ih (by omega)).2 ⟨?_, hat.2, ?_⟩, rfl, rfl⟩
            · simpa using hlen
            · rw [List.flatMap_cons, List.length_append, Nat.add_assoc]

theorem length_flatMap_lenPrefixed_ge (values : List String) :
    values.length ≤ (values.flatMap lenPrefixed).length := by
  induction values with
  | nil => simp
  | cons value values ih =>
      have hpos := length_lenPrefixed_pos value
      rw [List.flatMap_cons, List.length_append, List.length_cons]
      omega

end CompactCore.Strings
