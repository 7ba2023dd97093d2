/-
**Posting lists.**

A posting list stores the documents that contain a term, and the positions of the term in each.
The document numbers, the position counts and the positions are three sections of varints; a skip
table records, at every `skipStep`-th document, where the decoder would stand in each section.

Main definitions:

* `CompactCore.Search.Posting`, `CompactCore.Search.SkipEntry`,
  `CompactCore.Search.PostingListIndex` — the data;
* `CompactCore.Search.encodePostings`, `CompactCore.Search.decodePostings`,
  `CompactCore.Search.inspectPostings` — the format;
* `CompactCore.Search.Increasing` — the posting lists that have an encoding;
* `CompactCore.Search.Before` — where the decoder stands when a list of postings is still to come.

Main results:

* `CompactCore.Search.encodePostings_ok` — what is encoded, and as what;
* `CompactCore.Search.parse_encoded` — the encoder's skip table passes the checks of the decoder;
* `CompactCore.Search.readPostings_before` — the decoder's loop reads the postings that are to come;
* `CompactCore.Search.decodePostings_encodePostings` — **a posting list is decoded as it was
  given**.
-/

import CompactCore.Search.Sections
import CompactCore.Wire.Loop

set_option relaxedAutoImplicit false
set_option autoImplicit false

namespace CompactCore.Search

open Wire CompactError

/-! ### The data -/

/-- One document entry for a term. -/
structure Posting where
  docId : UInt64
  positions : List UInt64
  deriving DecidableEq, Repr

/-- Serialized skip entry used to restart scanning near a target document. -/
structure SkipEntry where
  ordinal : UInt64
  firstDocId : UInt64
  previousDocId : UInt64
  docIdsOffset : UInt64
  frequenciesOffset : UInt64
  positionsOffset : UInt64
  deriving DecidableEq, Repr

/-- Metadata decoded from the posting-list header and skip section. -/
structure PostingListIndex where
  docCount : UInt64
  skipStep : UInt64
  docIdsLen : UInt64
  frequenciesLen : UInt64
  positionsLen : UInt64
  skipEntries : List SkipEntry
  deriving DecidableEq, Repr

/-- The envelope of a posting list; its magic is `b"PST1"`. -/
def postingEnvelope : Envelope where
  magic := [0x50, 0x53, 0x54, 0x31]
  truncated := "posting payload is truncated"
  invalidMagic := "posting payload has invalid magic"
  version := "posting payload version"
  checksumMismatch := "posting checksum mismatch"
  length_magic := rfl

def postingSection : SectionTexts where
  tooLarge := "posting section is too large"
  overflow := "posting section length overflow"

/-! ### The checks that encoder and decoder share -/

def validatePositions : List UInt64 → Result Unit
  | first :: second :: positions => do
      failIf (second ≤ first) (invalidInput "posting positions must be strictly increasing")
      validatePositions (second :: positions)
  | _ => .ok ()

/-- The loop of `validatePostings`, after a document `previous`. -/
def validateDocIds : Option UInt64 → List Posting → Result Unit
  | _, [] => .ok ()
  | previous, posting :: postings => do
      failIf (previous.any (posting.docId ≤ ·))
        (invalidInput "posting docIDs must be strictly increasing")
      validatePositions posting.positions
      validateDocIds (some posting.docId) postings

def validatePostings (postings : List Posting) : Result Unit := validateDocIds none postings

/-! ### The encoder -/

def encodePositionDeltas (positions : List UInt64) : List UInt8 :=
  Varint.encodeU64 (deltas 0 positions)

/-- What the encoder's loop has written so far. -/
structure Sections where
  docIds : List UInt8 := []
  frequencies : List UInt8 := []
  positions : List UInt8 := []
  skips : List SkipEntry := []
  previousDocId : UInt64 := 0
  deriving DecidableEq, Repr

/-- One round of the encoder's loop.  The step is a `usize`, which a skip table stores as a
word. -/
def encodePosting (skipStep : UInt64) (s : Sections) (ordinal : ℕ) (posting : Posting) :
    Sections where
  skips :=
    if ordinal % skipStep.toNat = 0 then
      s.skips ++ [{ ordinal := UInt64.ofNat ordinal
                    firstDocId := posting.docId
                    previousDocId := s.previousDocId
                    docIdsOffset := UInt64.ofNat s.docIds.length
                    frequenciesOffset := UInt64.ofNat s.frequencies.length
                    positionsOffset := UInt64.ofNat s.positions.length }]
    else s.skips
  docIds := s.docIds ++ Varint.encodeU64 [posting.docId - s.previousDocId]
  previousDocId := posting.docId
  frequencies := s.frequencies ++ Varint.encodeU64 [UInt64.ofNat posting.positions.length]
  positions := s.positions ++ encodePositionDeltas posting.positions

/-- The encoder's loop. -/
def encodeSections (skipStep : UInt64) (postings : List Posting) : Sections :=
  postings.zipIdx.foldl (fun s (posting, ordinal) => encodePosting skipStep s ordinal posting) {}

def encodeSkip (entry : SkipEntry) : List UInt8 :=
  Varint.encodeU64 [entry.ordinal, entry.firstDocId, entry.previousDocId, entry.docIdsOffset,
    entry.frequenciesOffset, entry.positionsOffset]

/-- The body of a posting list. -/
def encodeBody (docCount : ℕ) (skipStep : UInt64) (s : Sections) : List UInt8 :=
  let skipBytes := s.skips.flatMap encodeSkip
  Varint.encodeU64 [UInt64.ofNat docCount, skipStep, UInt64.ofNat s.docIds.length,
      UInt64.ofNat s.frequencies.length, UInt64.ofNat s.positions.length,
      UInt64.ofNat skipBytes.length] ++
    s.docIds ++ s.frequencies ++ s.positions ++ skipBytes

/-- The bytes of a posting list. -/
def postingBytes [Crc32Fast] (skipStep : UInt64) (postings : List Posting) : List UInt8 :=
  postingEnvelope.wrap (encodeBody postings.length skipStep (encodeSections skipStep postings))

/-- Encode a sorted posting list into a checked binary payload. -/
def encodePostings [Crc32Fast] (postings : List Posting) (skipStep : UInt64) :
    Result (List UInt8) := do
  failIf (skipStep = 0) (invalidInput "posting skip step must be non-zero")
  validatePostings postings
  return postingBytes skipStep postings

/-! ### The decoder -/

def readPositions (count : UInt64) : Reader CompactError (List UInt64) := do
  let capacity ← liftM (tryUsize count "posting frequency is too large")
  let remaining ← Reader.remaining
  liftM (failIf (maxCollectionEntries < capacity ∨ remaining < capacity)
    (invalidInput "posting frequency exceeds positions section bounds"))
  let positions ← readDeltas "posting position decode overflow" capacity 0
  liftM (validatePositions positions)
  return positions

def readSkip : Reader CompactError SkipEntry := do
  let ordinal ← Varint.readU64
  let firstDocId ← Varint.readU64
  let previousDocId ← Varint.readU64
  let docIdsOffset ← Varint.readU64
  let frequenciesOffset ← Varint.readU64
  let positionsOffset ← Varint.readU64
  return ⟨ordinal, firstDocId, previousDocId, docIdsOffset, frequenciesOffset, positionsOffset⟩

/-- One round of `decodeSkips`: the cursor, and the entries so far. -/
def decodeSkipsStep (data : List UInt8) (s : ℕ × List SkipEntry) :
    Result (Option (ℕ × List SkipEntry)) :=
  if data.length ≤ s.1 then .ok none
  else do
    let (entry, cursor) ← readSkip data s.1
    return some (cursor, s.2 ++ [entry])

/-- Both a posting list and a skip entry begin with six numbers. -/
theorem readSix_ok {α : Type} {k : UInt64 → UInt64 → UInt64 → UInt64 → UInt64 → UInt64 →
    Reader CompactError α} {data : List UInt8} {c c' : ℕ} {a : α} :
    (do
      let n₁ ← Varint.readU64
      let n₂ ← Varint.readU64
      let n₃ ← Varint.readU64
      let n₄ ← Varint.readU64
      let n₅ ← Varint.readU64
      let n₆ ← Varint.readU64
      k n₁ n₂ n₃ n₄ n₅ n₆) data c = .ok (a, c') ↔
      ∃ n₁ n₂ n₃ n₄ n₅ n₆, At data c (Varint.encodeU64 [n₁, n₂, n₃, n₄, n₅, n₆]) ∧
        k n₁ n₂ n₃ n₄ n₅ n₆ data (c + (Varint.encodeU64 [n₁, n₂, n₃, n₄, n₅, n₆]).length) =
          .ok (a, c') := by
  simp only [Reader.bind_ok, Varint.readU64_ok, Varint.encodeU64_cons, Varint.encodeU64_nil,
    List.append_nil, at_append, List.length_append, ← Nat.add_assoc]
  constructor
  · rintro ⟨n₁, _, ⟨h₁, rfl⟩, n₂, _, ⟨h₂, rfl⟩, n₃, _, ⟨h₃, rfl⟩, n₄, _, ⟨h₄, rfl⟩,
      n₅, _, ⟨h₅, rfl⟩, n₆, _, ⟨h₆, rfl⟩, hk⟩
    exact ⟨n₁, n₂, n₃, n₄, n₅, n₆, ⟨h₁, h₂, h₃, h₄, h₅, h₆⟩, hk⟩
  · rintro ⟨n₁, n₂, n₃, n₄, n₅, n₆, ⟨h₁, h₂, h₃, h₄, h₅, h₆⟩, hk⟩
    exact ⟨n₁, _, ⟨h₁, rfl⟩, n₂, _, ⟨h₂, rfl⟩, n₃, _, ⟨h₃, rfl⟩, n₄, _, ⟨h₄, rfl⟩,
      n₅, _, ⟨h₅, rfl⟩, n₆, _, ⟨h₆, rfl⟩, hk⟩

/-- **Reading a skip entry is exact.** -/
theorem readSkip_ok {data : List UInt8} {c c' : ℕ} {entry : SkipEntry} :
    readSkip data c = .ok (entry, c') ↔
      At data c (encodeSkip entry) ∧ c' = c + (encodeSkip entry).length := by
  rw [readSkip, readSix_ok]
  simp only [Reader.pure_ok, encodeSkip]
  constructor
  · rintro ⟨_, _, _, _, _, _, hat, rfl, rfl⟩
    exact ⟨hat, rfl⟩
  · rintro ⟨hat, rfl⟩
    exact ⟨_, _, _, _, _, _, hat, rfl, rfl⟩

theorem length_encodeSkip_pos (entry : SkipEntry) : 0 < (encodeSkip entry).length := by
  have hpos := Varint.length_encodeOne_pos entry.ordinal
  rw [encodeSkip, Varint.encodeU64_cons, List.length_append]
  omega

theorem decodeSkipsStep_lt {data : List UInt8} {s s' : ℕ × List SkipEntry}
    (h : decodeSkipsStep data s = .ok (some s')) : data.length - s'.1 < data.length - s.1 := by
  unfold decodeSkipsStep at h
  split at h
  · cases h
  · simp only [bind_ok, pure_ok] at h
    obtain ⟨⟨entry, cursor⟩, hread, hs'⟩ := h
    cases hs'
    obtain ⟨hat, rfl⟩ := readSkip_ok.1 hread
    have hpos := length_encodeSkip_pos entry
    show data.length - (s.1 + (encodeSkip entry).length) < data.length - s.1
    omega

/-- The loop of `decodeSkips`. -/
def decodeSkipsLoop (data : List UInt8) : Loop CompactError (ℕ × List SkipEntry) where
  step := decodeSkipsStep data
  measure s := data.length - s.1
  decreases := decodeSkipsStep_lt

def decodeSkips (data : List UInt8) : Result (List SkipEntry) := do
  let (_, entries) ← (decodeSkipsLoop data).run (0, [])
  return entries

/-- `u64::div_ceil`. -/
def divCeil (a b : UInt64) : UInt64 := if a % b = 0 then a / b else a / b + 1

/-- The loop of `validateIndex`, after a skip entry for document `previous`. -/
def validateSkips (index : PostingListIndex) : Option UInt64 → List (SkipEntry × ℕ) → Result Unit
  | _, [] => .ok ()
  | previous, (entry, idx) :: entries => do
      let expectedOrdinal := UInt64.ofNat idx * index.skipStep
      failIf (entry.ordinal ≠ expectedOrdinal) (invalidInput "posting skip ordinal mismatch")
      failIf (index.docCount ≤ entry.ordinal) (invalidInput "posting skip ordinal out of range")
      failIf (previous.any (entry.firstDocId ≤ ·))
        (invalidInput "posting skip docIDs must be increasing")
      failIf (index.docIdsLen < entry.docIdsOffset ∨
          index.frequenciesLen < entry.frequenciesOffset ∨
          index.positionsLen < entry.positionsOffset)
        (invalidInput "posting skip offset out of range")
      validateSkips index (some entry.firstDocId) entries

def validateIndex (index : PostingListIndex) : Result Unit := do
  let expectedSkips := if index.docCount = 0 then 0 else divCeil index.docCount index.skipStep
  failIf (UInt64.ofNat index.skipEntries.length ≠ expectedSkips)
    (invalidInput "posting skip count mismatch")
  validateSkips index none index.skipEntries.zipIdx

structure ParsedPostingList where
  index : PostingListIndex
  docIds : List UInt8
  frequencies : List UInt8
  positions : List UInt8
  deriving DecidableEq, Repr

/-- Cut the body of a posting list into its sections. -/
def ParsedPostingList.readBody : Reader CompactError ParsedPostingList := do
  let docCount ← Varint.readU64
  let skipStep ← Varint.readU64
  let docIdsLen ← Varint.readU64
  let frequenciesLen ← Varint.readU64
  let positionsLen ← Varint.readU64
  let skipLen ← Varint.readU64
  liftM (failIf (skipStep = 0) (invalidInput "posting skip step must be non-zero"))
  let docIds ← takeSection postingSection docIdsLen "posting docIDs are truncated"
  let frequencies ← takeSection postingSection frequenciesLen "posting frequencies are truncated"
  let positions ← takeSection postingSection positionsLen "posting positions are truncated"
  let skipBytes ← takeSection postingSection skipLen "posting skip table is truncated"
  let remaining ← Reader.remaining
  liftM (failIf (remaining ≠ 0) (invalidInput "posting payload has trailing bytes"))
  let skipEntries ← liftM (decodeSkips skipBytes)
  let index : PostingListIndex :=
    ⟨docCount, skipStep, docIdsLen, frequenciesLen, positionsLen, skipEntries⟩
  liftM (validateIndex index)
  return ⟨index, docIds, frequencies, positions⟩

/-- Where a decoder stands in the three sections, and the document before. -/
structure Cursors where
  doc : ℕ := 0
  freq : ℕ := 0
  pos : ℕ := 0
  previousDocId : UInt64 := 0
  deriving DecidableEq, Repr

/-- One round of a decoder's loop. -/
def ParsedPostingList.readPosting (parsed : ParsedPostingList) (s : Cursors) :
    Result (Posting × Cursors) := do
  let (delta, doc) ← Varint.readU64 parsed.docIds s.doc
  let docId ← okOr (invalidInput "posting docID decode overflow")
    (checkedAdd s.previousDocId delta)
  let (frequency, freq) ← Varint.readU64 parsed.frequencies s.freq
  let (positions, pos) ← readPositions frequency parsed.positions s.pos
  return (⟨docId, positions⟩, ⟨doc, freq, pos, docId⟩)

/-- The loop of `decodeAll`. -/
def ParsedPostingList.readPostings (parsed : ParsedPostingList) :
    ℕ → Cursors → Result (List Posting × Cursors)
  | 0, s => .ok ([], s)
  | count + 1, s => do
      let (posting, s) ← parsed.readPosting s
      let (postings, s) ← parsed.readPostings count s
      return (posting :: postings, s)

def ParsedPostingList.decodeAll (parsed : ParsedPostingList) : Result (List Posting) := do
  let count ← tryUsize parsed.index.docCount "posting count is too large"
  failIf (maxCollectionEntries < count ∨ parsed.docIds.length < count ∨
      parsed.frequencies.length < count)
    (invalidInput "posting count exceeds section bounds")
  let (postings, s) ← parsed.readPostings count {}
  failIf (s.doc ≠ parsed.docIds.length ∨ s.freq ≠ parsed.frequencies.length ∨
      s.pos ≠ parsed.positions.length)
    (invalidInput "posting section has trailing bytes")
  validatePostings postings
  return postings

section

variable [Crc32Fast]

def ParsedPostingList.parse (data : List UInt8) : Result ParsedPostingList := do
  let body ← postingEnvelope.unwrap data
  let (parsed, _) ← readBody body 0
  return parsed

/-- Decode and validate a complete posting-list payload. -/
def decodePostings (data : List UInt8) : Result (List Posting) := do
  let parsed ← ParsedPostingList.parse data
  parsed.decodeAll

/-- Read only the searchable metadata and skip table. -/
def inspectPostings (data : List UInt8) : Result PostingListIndex := do
  let parsed ← ParsedPostingList.parse data
  return parsed.index

end

/-! ### What the checks accept -/

/-- The posting lists that have an encoding: document numbers increase, and so do the positions in
each document. -/
def Increasing (postings : List Posting) : Prop :=
  (postings.map Posting.docId).Pairwise (· < ·) ∧
    ∀ posting ∈ postings, posting.positions.Pairwise (· < ·)

instance (postings : List Posting) : Decidable (Increasing postings) :=
  inferInstanceAs (Decidable (_ ∧ _))

theorem validatePositions_ok {positions : List UInt64} {u : Unit} :
    validatePositions positions = .ok u ↔ positions.Pairwise (· < ·) := by
  rw [← List.isChain_iff_pairwise]
  induction positions using validatePositions.induct with
  | case1 first second positions ih =>
      simp only [validatePositions, bind_ok, failIf_ok, exists_const, UInt64.not_le, ih,
        List.isChain_cons_cons]
  | case2 positions h =>
      cases positions with
      | nil => simp [validatePositions]
      | cons first positions =>
          cases positions with
          | nil => simp [validatePositions]
          | cons second positions => exact absurd rfl (h first second positions)

theorem validateDocIds_ok {previous : Option UInt64} {postings : List Posting} {u : Unit} :
    validateDocIds previous postings = .ok u ↔
      (previous.toList ++ postings.map Posting.docId).IsChain (· < ·) ∧
        ∀ posting ∈ postings, posting.positions.Pairwise (· < ·) := by
  induction postings generalizing previous with
  | nil => cases previous <;> simp [validateDocIds]
  | cons posting postings ih =>
      simp only [validateDocIds, bind_ok, failIf_ok, exists_const, validatePositions_ok, ih,
        List.forall_mem_cons, List.map_cons, isChain_after UInt64.not_le]
      tauto

theorem validatePostings_ok {postings : List Posting} {u : Unit} :
    validatePostings postings = .ok u ↔ Increasing postings := by
  rw [validatePostings, validateDocIds_ok, Option.toList_none, List.nil_append,
    List.isChain_iff_pairwise, Increasing]

/-! ### What the encoder writes -/

def docIdBytes (postings : List Posting) : List UInt8 :=
  Varint.encodeU64 (deltas 0 (postings.map Posting.docId))

def frequencyBytes (postings : List Posting) : List UInt8 :=
  Varint.encodeU64 (postings.map fun posting => UInt64.ofNat posting.positions.length)

def positionBytes (postings : List Posting) : List UInt8 :=
  postings.flatMap fun posting => encodePositionDeltas posting.positions

/-- The last document of a list. -/
def lastDocId (postings : List Posting) : UInt64 :=
  (postings.map Posting.docId).getLast?.getD 0

/-- The skip entry of a posting that comes after `done`. -/
def skipBefore (done : List Posting) (posting : Posting) : SkipEntry where
  ordinal := UInt64.ofNat done.length
  firstDocId := posting.docId
  previousDocId := lastDocId done
  docIdsOffset := UInt64.ofNat (docIdBytes done).length
  frequenciesOffset := UInt64.ofNat (frequencyBytes done).length
  positionsOffset := UInt64.ofNat (positionBytes done).length

/-- `skips` has an entry for every `step`-th posting of a list. -/
structure Tabulates (step : ℕ) (postings : List Posting) (skips : List SkipEntry) : Prop where
  length : ∀ j, j < skips.length ↔ j * step < postings.length
  entry : ∀ j posting, postings[j * step]? = some posting →
    skips[j]? = some (skipBefore (postings.take (j * step)) posting)

theorem encodeU64_append (as bs : List UInt64) :
    Varint.encodeU64 (as ++ bs) = Varint.encodeU64 as ++ Varint.encodeU64 bs :=
  List.flatMap_append

theorem frequencyBytes_cons (posting : Posting) (postings : List Posting) :
    frequencyBytes (posting :: postings) =
      Varint.encodeOne (UInt64.ofNat posting.positions.length) ++ frequencyBytes postings := rfl

theorem positionBytes_cons (posting : Posting) (postings : List Posting) :
    positionBytes (posting :: postings) =
      encodePositionDeltas posting.positions ++ positionBytes postings := rfl

theorem docIdBytes_append (done postings : List Posting) :
    docIdBytes (done ++ postings) = docIdBytes done ++
      Varint.encodeU64 (deltas (lastDocId done) (postings.map Posting.docId)) := by
  rw [docIdBytes, List.map_append, deltas_append, encodeU64_append]
  rfl

theorem frequencyBytes_append (done postings : List Posting) :
    frequencyBytes (done ++ postings) = frequencyBytes done ++ frequencyBytes postings := by
  rw [frequencyBytes, List.map_append, encodeU64_append]
  rfl

theorem positionBytes_append (done postings : List Posting) :
    positionBytes (done ++ postings) = positionBytes done ++ positionBytes postings :=
  List.flatMap_append

theorem encodeSections_append_singleton (skipStep : UInt64) (done : List Posting)
    (posting : Posting) : encodeSections skipStep (done ++ [posting]) =
      encodePosting skipStep (encodeSections skipStep done) done.length posting := by
  rw [encodeSections, List.zipIdx_append, List.foldl_append, Nat.zero_add]
  rfl

/-- One more posting in a list that has a table. -/
theorem Tabulates.append_singleton {step : ℕ} {done : List Posting} {skips : List SkipEntry}
    (h : Tabulates step done skips) (hstep : 0 < step) (posting : Posting) :
    Tabulates step (done ++ [posting])
      (if done.length % step = 0 then skips ++ [skipBefore done posting] else skips) := by
  have hold : ∀ j p, (done ++ [posting])[j * step]? = some p → j * step < done.length →
      skips[j]? = some (skipBefore ((done ++ [posting]).take (j * step)) p) := by
    intro j p hp hlt
    rw [List.getElem?_append_left hlt] at hp
    rw [List.take_append_of_le_length hlt.le]
    exact h.entry j p hp
  have hlen : (done ++ [posting]).length = done.length + 1 := by simp
  split
  · rename_i hmod
    obtain ⟨q, hq⟩ := Nat.dvd_of_mod_eq_zero hmod
    have hq' : done.length = q * step := by rw [hq, Nat.mul_comm]
    have hskips : skips.length = q := by
      have hiff : ∀ j, j < skips.length ↔ j < q := fun j => by
        rw [h.length j, hq', Nat.mul_lt_mul_right hstep]
      have h₁ := hiff q
      have h₂ := hiff skips.length
      omega
    refine ⟨fun j => ?_, fun j p hp => ?_⟩
    · rw [hlen, hq', List.length_append, List.length_singleton, hskips, Nat.lt_succ_iff,
        Nat.lt_succ_iff, Nat.mul_le_mul_right_iff hstep]
    · rcases Nat.lt_or_ge (j * step) done.length with hlt | hge
      · rw [List.getElem?_append_left ((h.length j).2 hlt)]
        exact hold j p hp hlt
      · -- the posting that was added
        have hj := (List.getElem?_eq_some_iff.1 hp).1
        have heq : j * step = done.length := by omega
        have hjq : j = skips.length := by
          rw [hskips]
          exact Nat.eq_of_mul_eq_mul_right hstep (by rw [heq, hq'])
        rw [heq, List.getElem?_concat_length, Option.some.injEq] at hp
        rw [heq, List.take_left, hjq, List.getElem?_concat_length, hp]
  · rename_i hmod
    have hne : ∀ j, j * step ≠ done.length := fun j hj => hmod (by rw [← hj, Nat.mul_mod_left])
    refine ⟨fun j => ?_, fun j p hp => ?_⟩
    · have := hne j
      rw [h.length j, hlen]
      omega
    · have hj := (List.getElem?_eq_some_iff.1 hp).1
      have := hne j
      exact hold j p hp (by omega)

/-- **What the encoder's loop has written** after a list of postings. -/
theorem encodeSections_eq {skipStep : UInt64} (hstep : skipStep ≠ 0) (postings : List Posting) :
    (encodeSections skipStep postings).docIds = docIdBytes postings ∧
      (encodeSections skipStep postings).frequencies = frequencyBytes postings ∧
      (encodeSections skipStep postings).positions = positionBytes postings ∧
      (encodeSections skipStep postings).previousDocId = lastDocId postings ∧
      Tabulates skipStep.toNat postings (encodeSections skipStep postings).skips := by
  have hpos : 0 < skipStep.toNat := Nat.pos_of_ne_zero fun h => hstep (UInt64.toNat_inj.1 h)
  -- induction on the postings done so far
  induction postings using List.reverseRecOn with
  | nil => exact ⟨rfl, rfl, rfl, rfl, by simp [encodeSections], by simp⟩
  | append_singleton done posting ih =>
      obtain ⟨hdoc, hfreq, hposn, hprev, htable⟩ := ih
      rw [encodeSections_append_singleton]
      refine ⟨?_, ?_, ?_, ?_, ?_⟩
      · rw [docIdBytes_append, ← hdoc, ← hprev]
        rfl
      · rw [frequencyBytes_append, ← hfreq]
        rfl
      · rw [positionBytes_append, ← hposn, positionBytes, List.flatMap_singleton]
        rfl
      · rw [lastDocId, List.map_append, List.map_singleton, List.getLast?_concat]
        rfl
      · have hmore := htable.append_singleton hpos posting
        rw [skipBefore, ← hdoc, ← hfreq, ← hposn, ← hprev] at hmore
        exact hmore

/-! ### The skip table passes the checks of the decoder -/

/-- **The loop over the skip entries** accepts a table exactly when every entry stands where its
place says, and the documents increase. -/
theorem validateSkips_ok {index : PostingListIndex} {previous : Option UInt64}
    {entries : List (SkipEntry × ℕ)} {u : Unit} :
    validateSkips index previous entries = .ok u ↔
      (∀ e ∈ entries, e.1.ordinal = UInt64.ofNat e.2 * index.skipStep ∧
        e.1.ordinal < index.docCount ∧ e.1.docIdsOffset ≤ index.docIdsLen ∧
        e.1.frequenciesOffset ≤ index.frequenciesLen ∧
        e.1.positionsOffset ≤ index.positionsLen) ∧
      (previous.toList ++ entries.map fun e => e.1.firstDocId).IsChain (· < ·) := by
  induction entries generalizing previous with
  | nil => cases previous <;> simp [validateSkips]
  | cons e entries ih =>
      simp only [validateSkips, bind_ok, failIf_ok, exists_const, not_not, not_or, UInt64.not_lt,
        ih, List.forall_mem_cons, List.map_cons, isChain_after UInt64.not_le]
      simp only [UInt64.not_le]
      tauto

/-- The multiples of `b` below `a` are as many as the quotient, rounded up. -/
theorem lt_divCeil {a b : UInt64} (hb : 0 < b.toNat) (j : ℕ) :
    j < (divCeil a b).toNat ↔ j * b.toNat < a.toNat := by
  have hmod := UInt64.toNat_mod a b
  have hdiv := UInt64.toNat_div a b
  rw [divCeil]
  split
  · rename_i hexact
    -- `b` divides `a`
    rw [hexact] at hmod
    obtain ⟨q, hq⟩ := Nat.dvd_of_mod_eq_zero hmod.symm
    rw [hdiv, hq, Nat.mul_div_cancel_left _ hb, Nat.mul_comm, Nat.mul_lt_mul_left hb]
  · rename_i hrem
    have hrem' : a.toNat % b.toNat ≠ 0 := fun h0 => hrem <| by
      rw [← UInt64.toNat_inj, hmod, h0]
      rfl
    have hsum : (a / b + 1).toNat = a.toNat / b.toNat + 1 := by
      have ha := a.toNat_lt
      have hfull := Nat.div_add_mod a.toNat b.toNat
      have hmul := Nat.le_mul_of_pos_left (a.toNat / b.toNat) hb
      rw [UInt64.toNat_add, hdiv]
      exact Nat.mod_eq_of_lt (show a.toNat / b.toNat + 1 < 2 ^ 64 by omega)
    rw [hsum, Nat.lt_succ_iff, Nat.le_div_iff_mul_le hb]
    constructor
    · intro hle
      refine lt_of_le_of_ne hle fun heq => hrem' ?_
      rw [← heq, Nat.mul_mod_left]
    · intro hlt
      exact hlt.le

/-- The number of entries of a table. -/
theorem Tabulates.length_eq {skipStep docCount : UInt64} {postings : List Posting}
    {skips : List SkipEntry} (h : Tabulates skipStep.toNat postings skips)
    (hpos : 0 < skipStep.toNat) (hcount : docCount.toNat = postings.length) :
    UInt64.ofNat skips.length = if docCount = 0 then 0 else divCeil docCount skipStep := by
  have hlen : skips.length = (divCeil docCount skipStep).toNat := by
    have hiff : ∀ j, j < skips.length ↔ j < (divCeil docCount skipStep).toNat := fun j => by
      rw [h.length j, lt_divCeil hpos, hcount]
    have h₁ := hiff skips.length
    have h₂ := hiff (divCeil docCount skipStep).toNat
    omega
  rw [hlen, UInt64.ofNat_toNat]
  split
  · rename_i hzero
    rw [hzero, divCeil, UInt64.zero_mod, if_pos rfl, UInt64.zero_div]
  · rfl

theorem length_docIdBytes_take_le (postings : List Posting) (n : ℕ) :
    (docIdBytes (postings.take n)).length ≤ (docIdBytes postings).length := by
  conv_rhs => rw [← List.take_append_drop n postings, docIdBytes_append, List.length_append]
  omega

theorem length_frequencyBytes_take_le (postings : List Posting) (n : ℕ) :
    (frequencyBytes (postings.take n)).length ≤ (frequencyBytes postings).length := by
  conv_rhs => rw [← List.take_append_drop n postings, frequencyBytes_append, List.length_append]
  omega

theorem length_positionBytes_take_le (postings : List Posting) (n : ℕ) :
    (positionBytes (postings.take n)).length ≤ (positionBytes postings).length := by
  conv_rhs => rw [← List.take_append_drop n postings, positionBytes_append, List.length_append]
  omega

theorem ofNat_le_ofNat {m n : ℕ} (hle : m ≤ n) (hn : n < 2 ^ 64) :
    UInt64.ofNat m ≤ UInt64.ofNat n := by
  rw [UInt64.le_iff_toNat_le, toNat_ofNat hn, toNat_ofNat (lt_of_le_of_lt hle hn)]
  exact hle

/-- The posting that an entry of a table stands for. -/
theorem Tabulates.getElem {step : ℕ} {postings : List Posting} {skips : List SkipEntry}
    (h : Tabulates step postings skips) {j : ℕ} (hj : j < skips.length) :
    ∃ posting, postings[j * step]? = some posting ∧
      skips[j] = skipBefore (postings.take (j * step)) posting := by
  have hlt := (h.length j).1 hj
  refine ⟨_, List.getElem?_eq_getElem hlt, ?_⟩
  have := h.entry j _ (List.getElem?_eq_getElem hlt)
  rwa [List.getElem?_eq_getElem hj, Option.some.injEq] at this

/-- The documents of a table increase. -/
theorem Tabulates.pairwise {step : ℕ} {postings : List Posting} {skips : List SkipEntry}
    (h : Tabulates step postings skips) (hstep : 0 < step) (hpostings : Increasing postings) :
    skips.Pairwise fun a b => a.firstDocId < b.firstDocId := by
  rw [List.pairwise_iff_getElem]
  intro i j hi hj hij
  obtain ⟨p, hp, hpi⟩ := h.getElem hi
  obtain ⟨q, hq, hqj⟩ := h.getElem hj
  obtain ⟨hpl, rfl⟩ := List.getElem?_eq_some_iff.1 hp
  obtain ⟨hql, rfl⟩ := List.getElem?_eq_some_iff.1 hq
  have hindex : i * step < j * step := (Nat.mul_lt_mul_right hstep).2 hij
  have hsorted := List.pairwise_iff_getElem.1 hpostings.1 _ _ (by simpa using hpl)
    (by simpa using hql) hindex
  simp only [List.getElem_map] at hsorted
  rw [hpi, hqj]
  exact hsorted

/-- **A table passes the checks of the decoder.** -/
theorem Tabulates.validateIndex_ok {skipStep : UInt64} {postings : List Posting}
    {skips : List SkipEntry} (h : Tabulates skipStep.toNat postings skips)
    (hstep : skipStep ≠ 0) (hpostings : Increasing postings) (hcount : postings.length < 2 ^ 64)
    (hdoc : (docIdBytes postings).length < 2 ^ 64)
    (hfreq : (frequencyBytes postings).length < 2 ^ 64)
    (hpos : (positionBytes postings).length < 2 ^ 64) :
    validateIndex ⟨UInt64.ofNat postings.length, skipStep,
      UInt64.ofNat (docIdBytes postings).length, UInt64.ofNat (frequencyBytes postings).length,
      UInt64.ofNat (positionBytes postings).length, skips⟩ = .ok () := by
  have hstepPos : 0 < skipStep.toNat :=
    Nat.pos_of_ne_zero fun h => hstep (UInt64.toNat_inj.1 h)
  simp only [validateIndex, bind_ok, failIf_ok, exists_const, not_not, validateSkips_ok,
    Option.toList_none, List.nil_append]
  refine ⟨h.length_eq hstepPos (toNat_ofNat hcount), ?_, ?_⟩
  · rintro ⟨entry, j⟩ he
    obtain ⟨hj, heq⟩ := List.mem_zipIdx' he
    have hlt := (h.length j).1 hj
    obtain ⟨posting, -, hskip⟩ := h.getElem hj
    rw [← heq] at hskip
    have hlen : (postings.take (j * skipStep.toNat)).length = j * skipStep.toNat := by
      rw [List.length_take, Nat.min_eq_left hlt.le]
    rw [hskip]
    refine ⟨?_, ?_, ?_, ?_, ?_⟩
    · rw [skipBefore, hlen, UInt64.ofNat_mul, UInt64.ofNat_toNat]
    · rw [skipBefore, hlen, UInt64.lt_iff_toNat_lt, toNat_ofNat hcount,
        toNat_ofNat (lt_trans hlt hcount)]
      exact hlt
    · exact ofNat_le_ofNat (length_docIdBytes_take_le ..) hdoc
    · exact ofNat_le_ofNat (length_frequencyBytes_take_le ..) hfreq
    · exact ofNat_le_ofNat (length_positionBytes_take_le ..) hpos
  · -- the documents of the table are some of the documents of the list
    have hfirst : skips.zipIdx.map (fun e => e.1.firstDocId) = skips.map (·.firstDocId) := by
      conv_rhs => rw [← List.zipIdx_map_fst 0 skips, List.map_map]
      rfl
    rw [hfirst, List.isChain_iff_pairwise]
    exact List.pairwise_map.2 (h.pairwise hstepPos hpostings)

/-- **A skip table is read back.** -/
theorem decodeSkips_encodeSkip (entries : List SkipEntry) :
    decodeSkips (entries.flatMap encodeSkip) = .ok entries := by
  -- the loop has read the entries that it has passed
  suffices hrounds : ∀ done rest, entries = done ++ rest →
      (decodeSkipsLoop (entries.flatMap encodeSkip)).Rounds
        ((done.flatMap encodeSkip).length, done) ((entries.flatMap encodeSkip).length, entries) by
    have hrun := Loop.run_ok.2 ⟨hrounds [] entries rfl, if_pos (le_refl _)⟩
    rw [decodeSkips]
    simp only [bind_ok]
    exact ⟨_, hrun, rfl⟩
  intro done rest
  induction rest generalizing done with
  | nil =>
      intro hdone
      rw [List.append_nil] at hdone
      rw [hdone]
      exact .refl
  | cons entry rest ih =>
      intro hdone
      have hall : entries.flatMap encodeSkip =
          done.flatMap encodeSkip ++ encodeSkip entry ++ rest.flatMap encodeSkip := by
        rw [hdone, List.flatMap_append, List.flatMap_cons, List.append_assoc]
      have hnext := ih (done ++ [entry]) (by simp [hdone])
      refine .head ?_ hnext
      have hat : At (entries.flatMap encodeSkip) (done.flatMap encodeSkip).length
          (encodeSkip entry) := by
        rw [hall]
        exact at_mid ..
      have hpos := length_encodeSkip_pos entry
      have hle := hat.le
      show decodeSkipsStep _ _ = _
      rw [decodeSkipsStep, if_neg (by simp only; omega)]
      simp only [bind_ok, pure_ok, readSkip_ok.2 ⟨hat, rfl⟩, Except.ok.injEq, exists_eq_left']
      simp

/-! ### Reading the sections -/

/-- What the decoder makes of the body of a posting list. -/
def parsedOf (skipStep : UInt64) (postings : List Posting) : ParsedPostingList where
  index :=
    { docCount := UInt64.ofNat postings.length
      skipStep := skipStep
      docIdsLen := UInt64.ofNat (docIdBytes postings).length
      frequenciesLen := UInt64.ofNat (frequencyBytes postings).length
      positionsLen := UInt64.ofNat (positionBytes postings).length
      skipEntries := (encodeSections skipStep postings).skips }
  docIds := docIdBytes postings
  frequencies := frequencyBytes postings
  positions := positionBytes postings

theorem length_frequencyBytes_ge (postings : List Posting) :
    postings.length ≤ (frequencyBytes postings).length := by
  have := Varint.length_encodeU64_ge
    (postings.map fun posting => UInt64.ofNat posting.positions.length)
  rwa [List.length_map] at this

theorem length_docIdBytes_ge (postings : List Posting) :
    postings.length ≤ (docIdBytes postings).length := by
  have := Varint.length_encodeU64_ge (deltas 0 (postings.map Posting.docId))
  rwa [length_deltas, List.length_map] at this

/-- **Cutting a body into sections is exact.** -/
theorem readBody_ok {data : List UInt8} {parsed : ParsedPostingList} {c : ℕ} (hfit : Fits data) :
    ParsedPostingList.readBody data 0 = .ok (parsed, c) ↔
      ∃ skipBytes, data = Varint.encodeU64 [parsed.index.docCount, parsed.index.skipStep,
            parsed.index.docIdsLen, parsed.index.frequenciesLen, parsed.index.positionsLen,
            UInt64.ofNat skipBytes.length] ++ parsed.docIds ++ parsed.frequencies ++
          parsed.positions ++ skipBytes ∧
        parsed.docIds.length = parsed.index.docIdsLen.toNat ∧
        parsed.frequencies.length = parsed.index.frequenciesLen.toNat ∧
        parsed.positions.length = parsed.index.positionsLen.toNat ∧ parsed.index.skipStep ≠ 0 ∧
        decodeSkips skipBytes = .ok parsed.index.skipEntries ∧
        validateIndex parsed.index = .ok () ∧ c = data.length := by
  rw [ParsedPostingList.readBody, readSix_ok]
  simp only [Reader.bind_ok, Reader.lift_ok, failIf_ok, takeSection_ok hfit, Reader.remaining_ok,
    Reader.pure_ok, Nat.zero_add]
  constructor
  · rintro ⟨docCount, skipStep, docIdsLen, frequenciesLen, positionsLen, skipLen, hwords, -, _,
      ⟨hstep, rfl⟩, docIds, _, ⟨hdocs, hdocLen, rfl⟩, frequencies, _, ⟨hfreqs, hfreqLen, rfl⟩,
      positions, _, ⟨hposs, hposLen, rfl⟩, skipBytes, _, ⟨hskips, hskipLen, rfl⟩, _, _, ⟨rfl, rfl⟩,
      -, _, ⟨hrest, rfl⟩, skipEntries, _, ⟨hentries, rfl⟩, _, _, ⟨hindex, rfl⟩, rfl, rfl⟩
    have hskip : UInt64.ofNat skipBytes.length = skipLen := by rw [hskipLen, UInt64.ofNat_toNat]
    have hend := hskips.le
    refine ⟨skipBytes, At.eq_self ?_ ?_, hdocLen, hfreqLen, hposLen, hstep, hentries, hindex,
      by omega⟩
    · rw [hskip]
      simp only [at_append, List.length_append, hdocLen, hfreqLen, hposLen, ← Nat.add_assoc,
        Nat.zero_add]
      exact ⟨⟨⟨⟨hwords, hdocs⟩, hfreqs⟩, hposs⟩, hskips⟩
    · rw [hskip]
      simp only [List.length_append]
      omega
  · rintro ⟨skipBytes, hdata, hdocLen, hfreqLen, hposLen, hstep, hentries, hindex, rfl⟩
    have hlen := congrArg List.length hdata
    have hat := at_self data
    nth_rewrite 2 [hdata] at hat
    simp only [at_append, List.length_append, ← Nat.add_assoc, Nat.zero_add] at hat hlen
    obtain ⟨⟨⟨⟨hwords, hdocs⟩, hfreqs⟩, hposs⟩, hskips⟩ := hat
    have hskipLen : skipBytes.length < 2 ^ 64 := by
      rw [Fits, wordSize] at hfit
      omega
    refine ⟨_, _, _, _, _, _, hwords, (), _, ⟨hstep, rfl⟩, _, _, ⟨hdocs, hdocLen, rfl⟩,
      _, _, ⟨by rwa [← hdocLen], hfreqLen, rfl⟩, _, _,
      ⟨by rwa [← hdocLen, ← hfreqLen], hposLen, rfl⟩, _, _,
      ⟨by rwa [← hdocLen, ← hfreqLen, ← hposLen], (toNat_ofNat hskipLen).symm, rfl⟩,
      _, _, ⟨rfl, rfl⟩, (), _, ⟨?_, rfl⟩, _, _, ⟨hentries, rfl⟩, (), _, ⟨hindex, rfl⟩, rfl, ?_⟩
    · rw [toNat_ofNat hskipLen]
      omega
    · rw [toNat_ofNat hskipLen]
      omega

section

variable [Crc32Fast]

/-- **What is encoded, and as what.** -/
theorem encodePostings_ok {postings : List Posting} {skipStep : UInt64} {data : List UInt8} :
    encodePostings postings skipStep = .ok data ↔
      skipStep ≠ 0 ∧ Increasing postings ∧ data = postingBytes skipStep postings := by
  simp only [encodePostings, bind_ok, failIf_ok, exists_const, validatePostings_ok, pure_ok]
  constructor
  · rintro ⟨hstep, hpostings, rfl⟩
    exact ⟨hstep, hpostings, rfl⟩
  · rintro ⟨hstep, hpostings, rfl⟩
    exact ⟨hstep, hpostings, rfl⟩

/-- **The decoder cuts an encoded posting list into its sections**, and accepts its skip table. -/
theorem parse_encoded {postings : List Posting} {skipStep : UInt64} {data : List UInt8}
    (h : encodePostings postings skipStep = .ok data) (hfit : Fits data) :
    ParsedPostingList.parse data = .ok (parsedOf skipStep postings) := by
  obtain ⟨hstep, hpostings, rfl⟩ := encodePostings_ok.1 h
  have hbody : Fits (encodeBody postings.length skipStep (encodeSections skipStep postings)) := by
    rw [Fits, postingBytes, Envelope.wrap, List.length_append] at hfit
    exact lt_of_le_of_lt (Nat.le_add_left ..) hfit
  obtain ⟨hdoc, hfreq, hpos, -, htable⟩ := encodeSections_eq hstep postings
  have hlen := hbody
  simp only [Fits, wordSize, encodeBody, hdoc, hfreq, hpos, List.length_append] at hlen
  have hcount := length_docIdBytes_ge postings
  simp only [ParsedPostingList.parse, bind_ok, Envelope.unwrap_ok, pure_ok, postingBytes]
  refine ⟨_, rfl, ⟨_, _⟩, (readBody_ok hbody).2
    ⟨(encodeSections skipStep postings).skips.flatMap encodeSkip, ?_, ?_, ?_, ?_, hstep,
      decodeSkips_encodeSkip _, ?_, rfl⟩, rfl⟩
  · simp only [encodeBody, hdoc, hfreq, hpos]
  · exact (toNat_ofNat (show (docIdBytes postings).length < 2 ^ 64 by omega)).symm
  · exact (toNat_ofNat (show (frequencyBytes postings).length < 2 ^ 64 by omega)).symm
  · exact (toNat_ofNat (show (positionBytes postings).length < 2 ^ 64 by omega)).symm
  · exact htable.validateIndex_ok hstep hpostings (by omega) (by omega) (by omega) (by omega)

end

/-! ### Decoding -/

/-- **Reading positions is exact.** -/
theorem readPositions_ok {count : UInt64} {data : List UInt8} {c c' : ℕ} {positions : List UInt64}
    (hc : c ≤ data.length) : readPositions count data c = .ok (positions, c') ↔
      positions.length = count.toNat ∧ positions.length ≤ maxCollectionEntries ∧
        positions.Pairwise (· < ·) ∧ At data c (encodePositionDeltas positions) ∧
        c' = c + (encodePositionDeltas positions).length := by
  simp only [readPositions, Reader.bind_ok, Reader.lift_ok, tryUsize_eq, Except.ok.injEq,
    Reader.remaining_ok, failIf_ok, validatePositions_ok, Reader.pure_ok, encodePositionDeltas]
  constructor
  · rintro ⟨_, _, ⟨rfl, rfl⟩, _, _, ⟨rfl, rfl⟩, -, _, ⟨hlimit, rfl⟩, _, _, h, -, _, ⟨hlt, rfl⟩,
      rfl, rfl⟩
    obtain ⟨hlen, -, hat, rfl⟩ := (readDeltas_ok hc).1 h
    rw [not_or, not_lt] at hlimit
    exact ⟨hlen, by omega, hlt, hat, rfl⟩
  · rintro ⟨hlen, hmax, hlt, hat, rfl⟩
    have hle := hat.le
    have hbytes := Varint.length_encodeU64_ge (deltas 0 positions)
    rw [length_deltas] at hbytes
    have hchain : (0 :: positions).IsChain (· ≤ ·) := by
      cases positions with
      | nil => exact List.IsChain.singleton _
      | cons first positions =>
          refine List.isChain_cons_cons.2 ⟨UInt64.zero_le, ?_⟩
          exact (hlt.imp fun h => UInt64.le_of_lt h).isChain
    exact ⟨_, _, ⟨rfl, rfl⟩, _, _, ⟨rfl, rfl⟩, (), _, ⟨by omega, rfl⟩, _, _,
      (readDeltas_ok hc).2 ⟨hlen, hchain, hat, rfl⟩, (), _, ⟨hlt, rfl⟩, rfl, rfl⟩

/-- The decoder stands before a list of postings: their bytes are ahead in every section, and they
go on from the document before. -/
structure Before (parsed : ParsedPostingList) (s : Cursors) (postings : List Posting) : Prop where
  doc : At parsed.docIds s.doc
    (Varint.encodeU64 (deltas s.previousDocId (postings.map Posting.docId)))
  freq : At parsed.frequencies s.freq (frequencyBytes postings)
  pos : At parsed.positions s.pos (positionBytes postings)
  chain : (s.previousDocId :: postings.map Posting.docId).IsChain (· ≤ ·)

/-- Where the decoder stands after a posting. -/
def Cursors.after (s : Cursors) (posting : Posting) : Cursors where
  doc := s.doc + (Varint.encodeOne (posting.docId - s.previousDocId)).length
  freq := s.freq + (Varint.encodeOne (UInt64.ofNat posting.positions.length)).length
  pos := s.pos + (encodePositionDeltas posting.positions).length
  previousDocId := posting.docId

/-- The positions that a decoder accepts for one document. -/
def Posting.Acceptable (posting : Posting) : Prop :=
  posting.positions.length ≤ maxCollectionEntries ∧ posting.positions.Pairwise (· < ·)

/-- One round reads the first posting, and stands before the others. -/
theorem Before.readPosting {parsed : ParsedPostingList} {s : Cursors} {posting : Posting}
    {postings : List Posting} (h : Before parsed s (posting :: postings))
    (hok : posting.Acceptable) :
    parsed.readPosting s = .ok (posting, s.after posting) ∧
      Before parsed (s.after posting) postings := by
  obtain ⟨hdoc, hfreq, hpos, hchain⟩ := h
  rw [List.map_cons, deltas_cons, Varint.encodeU64_cons, at_append] at hdoc
  rw [frequencyBytes_cons, at_append] at hfreq
  rw [positionBytes_cons, at_append] at hpos
  rw [List.map_cons, List.isChain_cons_cons] at hchain
  have hcount : (UInt64.ofNat posting.positions.length).toNat = posting.positions.length := by
    refine toNat_ofNat (lt_of_le_of_lt hok.1 ?_)
    rw [maxCollectionEntries]
    omega
  refine ⟨?_, hdoc.2, hfreq.2, hpos.2, hchain.2⟩
  have hpositions := (@readPositions_ok (UInt64.ofNat posting.positions.length) _ _ _ _
    (by have := hpos.1.le; omega)).2 ⟨hcount.symm, hok.1, hok.2, hpos.1, rfl⟩
  simp only [ParsedPostingList.readPosting, bind_ok, Varint.readU64_ok.2 ⟨hdoc.1, rfl⟩,
    Varint.readU64_ok.2 ⟨hfreq.1, rfl⟩, hpositions, checkedAdd_sub hchain.1, okOr_ok,
    Option.some.injEq, Except.ok.injEq, exists_eq_left', pure_ok]
  rfl

/-- **The decoder's loop reads the postings it stands before.** -/
theorem readPostings_before {parsed : ParsedPostingList} {s : Cursors} {postings : List Posting}
    (h : Before parsed s postings) (hok : ∀ posting ∈ postings, posting.Acceptable) :
    parsed.readPostings postings.length s = .ok (postings, postings.foldl Cursors.after s) := by
  induction postings generalizing s with
  | nil => rfl
  | cons posting postings ih =>
      obtain ⟨hread, hbefore⟩ := h.readPosting (hok posting List.mem_cons_self)
      have hrest := ih hbefore fun p hp => hok p (List.mem_cons_of_mem _ hp)
      simp only [List.length_cons, ParsedPostingList.readPostings, bind_ok, hread, hrest,
        Except.ok.injEq, exists_eq_left', List.foldl_cons, pure_ok]

/-- The loop ends behind the bytes of the postings. -/
theorem foldl_after (postings : List Posting) (s : Cursors) :
    (postings.foldl Cursors.after s).doc = s.doc +
        (Varint.encodeU64 (deltas s.previousDocId (postings.map Posting.docId))).length ∧
      (postings.foldl Cursors.after s).freq = s.freq + (frequencyBytes postings).length ∧
      (postings.foldl Cursors.after s).pos = s.pos + (positionBytes postings).length := by
  induction postings generalizing s with
  | nil => exact ⟨rfl, rfl, rfl⟩
  | cons posting postings ih =>
      obtain ⟨hdoc, hfreq, hpos⟩ := ih (s.after posting)
      rw [List.foldl_cons, hdoc, hfreq, hpos, List.map_cons, deltas_cons, Varint.encodeU64_cons,
        frequencyBytes_cons, positionBytes_cons]
      simp only [List.length_append, Cursors.after, Nat.add_assoc, and_self]

/-- **A posting list is decoded as it was given**, up to the limits of the decoder. -/
theorem decodePostings_encodePostings [Crc32Fast] {postings : List Posting} {skipStep : UInt64}
    {data : List UInt8} (h : encodePostings postings skipStep = .ok data) (hfit : Fits data)
    (hcount : postings.length ≤ maxCollectionEntries)
    (hpositions : ∀ posting ∈ postings, posting.positions.length ≤ maxCollectionEntries) :
    decodePostings data = .ok postings := by
  obtain ⟨-, hpostings, -⟩ := encodePostings_ok.1 h
  have hword : (UInt64.ofNat postings.length).toNat = postings.length := by
    refine toNat_ofNat (lt_of_le_of_lt hcount ?_)
    rw [maxCollectionEntries]
    omega
  have hbefore : Before (parsedOf skipStep postings) {} postings := by
    refine ⟨at_self _, at_self _, at_self _, ?_⟩
    cases postings with
    | nil => exact List.IsChain.singleton _
    | cons first postings =>
        refine List.isChain_cons_cons.2 ⟨UInt64.zero_le, ?_⟩
        exact (hpostings.1.imp fun h => UInt64.le_of_lt h).isChain
  have hread := readPostings_before hbefore fun p hp => ⟨hpositions p hp, hpostings.2 p hp⟩
  have hend := foldl_after postings {}
  simp only [decodePostings, bind_ok, parse_encoded h hfit, Except.ok.injEq, exists_eq_left',
    ParsedPostingList.decodeAll, tryUsize_eq, failIf_ok, exists_const]
  have hd := length_docIdBytes_ge postings
  have hf := length_frequencyBytes_ge postings
  have hindex : (parsedOf skipStep postings).index.docCount.toNat = postings.length := hword
  rw [hindex]
  refine ⟨?_, _, hread, ?_, ?_⟩
  · simp only [parsedOf]
    omega
  · simp only [Nat.zero_add] at hend
    simp only [parsedOf, hend, docIdBytes]
    simp
  · exact ⟨(), validatePostings_ok.2 hpostings, rfl⟩

end CompactCore.Search
