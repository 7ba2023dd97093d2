/-
**What posting lists and dictionaries are made of.**

Both search formats wrap a body in a small envelope (magic, version, checksum), cut the body into
sections whose lengths stand in front, and store increasing numbers as varints of their gaps.  The
two files of the source repeat this code with their own error texts; the texts are parameters here.

Main definitions:

* `CompactCore.Search.Envelope` — the envelope, with `wrap` and `unwrap`;
* `CompactCore.Search.takeSection` — a section of a given length;
* `CompactCore.Search.deltas`, `CompactCore.Search.readDeltas` — the gaps of a list, and reading
  the list back from the varints of its gaps.

Main results:

* `CompactCore.Search.Envelope.unwrap_ok`, `CompactCore.Search.takeSection_ok`,
  `CompactCore.Search.readDeltas_ok` — **unwrapping, cutting and reading are exact**.
-/

import CompactCore.Primitives.Varint

set_option relaxedAutoImplicit false
set_option autoImplicit false

namespace CompactCore.Search

open Wire CompactError

/-! ### The envelope -/

/-- An envelope: its magic, and what its decoder says of one that it refuses. -/
structure Envelope where
  magic : List UInt8
  truncated : String
  invalidMagic : String
  version : String
  checksumMismatch : String
  length_magic : magic.length = 4

def headerLen : ℕ := 4 + 1 + 4

section

variable [Crc32Fast]

/-- Put a body into an envelope. -/
def Envelope.wrap (envelope : Envelope) (body : List UInt8) : List UInt8 :=
  envelope.magic ++ [1] ++ le32 (checksum32 body) ++ body

/-- Take the body out of an envelope, after checking its magic, version and checksum. -/
def Envelope.unwrap (envelope : Envelope) (data : List UInt8) : Result (List UInt8) := do
  failIf (data.length < headerLen) (invalidInput envelope.truncated)
  failIf (data.take 4 ≠ envelope.magic) (invalidInput envelope.invalidMagic)
  failIf (data.getD 4 0 ≠ 1) (unsupported envelope.version)
  let body := data.drop headerLen
  failIf (checksum32 body ≠ u32OfLe ((data.drop 5).take 4))
    (invalidInput envelope.checksumMismatch)
  return body

/-- **An envelope is opened exactly when it is the envelope of its body.** -/
theorem Envelope.unwrap_ok {envelope : Envelope} {data body : List UInt8} :
    envelope.unwrap data = .ok body ↔ data = envelope.wrap body := by
  have hmagic := envelope.length_magic
  simp only [unwrap, bind_ok, failIf_ok, exists_const, pure_ok, not_lt, not_not]
  constructor
  · rintro ⟨hlen, htake, hversion, hsum, rfl⟩
    rw [headerLen] at hlen hsum
    have hsumBytes : ((data.drop 5).take 4).length = 4 := by
      rw [List.length_take, List.length_drop]
      omega
    have h4 := at_of_getD (by omega) hversion
    have h5 := @at_take_drop data 5 4 (by omega)
    rw [wrap, headerLen, ← htake, hsum, le32_u32OfLe hsumBytes]
    -- the four parts of the header follow one another
    have hfive : data.take 5 = data.take 4 ++ [1] := h4.take_succ
    have hnine := h5.take_succ
    rw [hsumBytes] at hnine
    rw [← hfive, ← hnine, List.take_append_drop]
  · rintro rfl
    have hhead : (envelope.magic ++ [1] ++ le32 (checksum32 body)).length = headerLen := by
      simp [hmagic, headerLen]
    have hmagicAt : (envelope.wrap body).take 4 = envelope.magic := by
      rw [wrap, List.append_assoc, List.append_assoc, ← hmagic, List.take_left]
    have hversion : At (envelope.wrap body) 4 [1] := by
      rw [wrap, List.append_assoc]
      exact at_iff_exists.2 ⟨_, _, rfl, hmagic⟩
    have hsum : At (envelope.wrap body) 5 (le32 (checksum32 body)) :=
      at_iff_exists.2 ⟨_, _, rfl, by simp [hmagic]⟩
    have hslice := hsum.slice
    have hbody : (envelope.wrap body).drop headerLen = body := by
      rw [wrap, ← hhead, List.drop_left]
    rw [length_le32] at hslice
    rw [hmagicAt, hversion.getD, hslice, hbody, u32OfLe_le32]
    refine ⟨?_, rfl, rfl, rfl, rfl⟩
    rw [wrap, List.length_append, hhead]
    omega

end

/-! ### Sections -/

/-- The error texts of a section length. -/
structure SectionTexts where
  tooLarge : String
  overflow : String

/-- Cut a section of `len` bytes off at the cursor. -/
def takeSection (texts : SectionTexts) (len : UInt64) (message : String) :
    Reader CompactError (List UInt8) := do
  let len ← liftM (tryUsize len texts.tooLarge)
  readExact (invalidInput texts.overflow) (invalidInput message) len

/-- **Cutting a section is exact.** -/
theorem takeSection_ok {texts : SectionTexts} {len : UInt64} {message : String}
    {data bs : List UInt8} {c c' : ℕ} (hfit : Fits data) :
    takeSection texts len message data c = .ok (bs, c') ↔
      At data c bs ∧ bs.length = len.toNat ∧ c' = c + len.toNat := by
  simp only [takeSection, Reader.bind_ok, Reader.lift_ok, tryUsize_eq, Except.ok.injEq,
    readExact_ok hfit]
  constructor
  · rintro ⟨_, _, ⟨rfl, rfl⟩, h⟩
    exact h
  · intro h
    exact ⟨_, _, ⟨rfl, rfl⟩, h⟩

/-! ### Gaps -/

/-- The gaps between the numbers of a list, from `previous` on. -/
def deltas (previous : UInt64) : List UInt64 → List UInt64
  | [] => []
  | value :: values => (value - previous) :: deltas value values

@[simp] theorem deltas_nil (previous : UInt64) : deltas previous [] = [] := rfl

@[simp] theorem deltas_cons (previous value : UInt64) (values : List UInt64) :
    deltas previous (value :: values) = (value - previous) :: deltas value values := rfl

@[simp] theorem length_deltas (previous : UInt64) (values : List UInt64) :
    (deltas previous values).length = values.length := by
  induction values generalizing previous with
  | nil => rfl
  | cons value values ih => rw [deltas_cons, List.length_cons, ih, List.length_cons]

/-- The gaps of a list that goes on after its first part. -/
theorem deltas_append (previous : UInt64) (values more : List UInt64) :
    deltas previous (values ++ more) =
      deltas previous values ++ deltas (values.getLast?.getD previous) more := by
  induction values generalizing previous with
  | nil => rfl
  | cons value values ih =>
      rw [List.cons_append, deltas_cons, ih, deltas_cons, List.cons_append, List.getLast?_cons]
      rfl

/-- Adding the gap to a number gives the next one. -/
theorem checkedAdd_sub {previous value : UInt64} (h : previous ≤ value) :
    checkedAdd previous (value - previous) = some value := by
  rw [checkedAdd_eq_some, UInt64.toNat_sub_of_le _ _ h]
  have hle := UInt64.le_iff_toNat_le.1 h
  omega

/-- Read `count` numbers back from the varints of their gaps, from `previous` on. -/
def readDeltas (overflow : String) : ℕ → UInt64 → Reader CompactError (List UInt64)
  | 0, _ => pure []
  | count + 1, previous => do
      let delta ← Varint.readU64
      let value ← liftM (okOr (invalidInput overflow) (checkedAdd previous delta))
      let values ← readDeltas overflow count value
      return value :: values

/-- **Reading gaps is exact**: what comes back is a list that never decreases, from the varints of
its gaps. -/
theorem readDeltas_ok {overflow : String} {data : List UInt8} {count c c' : ℕ} {previous : UInt64}
    {values : List UInt64} (hc : c ≤ data.length) :
    readDeltas overflow count previous data c = .ok (values, c') ↔
      values.length = count ∧ (previous :: values).IsChain (· ≤ ·) ∧
        At data c (Varint.encodeU64 (deltas previous values)) ∧
        c' = c + (Varint.encodeU64 (deltas previous values)).length := by
  induction count generalizing previous c values with
  | zero =>
      rw [readDeltas, Reader.pure_ok, List.length_eq_zero_iff]
      constructor
      · rintro ⟨rfl, rfl⟩
        exact ⟨rfl, List.IsChain.singleton _, at_nil.2 hc, rfl⟩
      · rintro ⟨rfl, -, -, rfl⟩
        exact ⟨rfl, rfl⟩
  | succ count ih =>
      simp only [readDeltas, Reader.bind_ok, Varint.readU64_ok, Reader.lift_ok, okOr_ok,
        checkedAdd_eq_some, Reader.pure_ok]
      constructor
      · rintro ⟨delta, _, ⟨hat, rfl⟩, value, _, ⟨hvalue, rfl⟩, rest, _, hrest, rfl, rfl⟩
        obtain ⟨rfl, hchain, hats, rfl⟩ := (ih hat.le).1 hrest
        have hle : previous ≤ value := UInt64.le_iff_toNat_le.2 (by omega)
        have hdelta : value - previous = delta := by
          rw [← UInt64.toNat_inj, UInt64.toNat_sub_of_le _ _ hle]
          omega
        refine ⟨rfl, List.isChain_cons_cons.2 ⟨hle, hchain⟩, ?_, ?_⟩
        · rw [deltas_cons, Varint.encodeU64_cons, at_append, hdelta]
          exact ⟨hat, hats⟩
        · rw [deltas_cons, Varint.encodeU64_cons, List.length_append, hdelta]
          omega
      · rintro ⟨hlen, hchain, hat, rfl⟩
        cases values with
        | nil => cases hlen
        | cons value values =>
            rw [deltas_cons, Varint.encodeU64_cons, at_append] at hat
            obtain ⟨hle, hchain⟩ := List.isChain_cons_cons.1 hchain
            have hadd := checkedAdd_eq_some.1 (checkedAdd_sub hle)
            refine ⟨_, _, ⟨hat.1, rfl⟩, value, _, ⟨hadd, rfl⟩, values, _,
              (ih hat.1.le).2 ⟨by simpa using hlen, hchain, hat.2, ?_⟩, rfl, rfl⟩
            rw [deltas_cons, Varint.encodeU64_cons, List.length_append, Nat.add_assoc]

/-! ### Increasing values -/

/-- Every validator of increasing values compares each with the one before it, if there is one. -/
theorem isChain_after {α : Type} [LT α] [LE α] [DecidableLE α]
    (hnot : ∀ {a b : α}, ¬a ≤ b ↔ b < a) (previous : Option α) (a : α) (as : List α) :
    (previous.toList ++ a :: as).IsChain (· < ·) ↔
      ¬((previous.any fun p => decide (a ≤ p)) = true) ∧
        ((some a).toList ++ as).IsChain (· < ·) := by
  rw [Option.toList_some, List.singleton_append]
  cases previous with
  | none => simp
  | some p => simp [hnot]

end CompactCore.Search
