/-
**The search decoders as checked code.**

Posting lists and dictionaries come from bytes that nobody has to have written: every length, count
and offset of a payload is a word that its author chose.  The decoders are repeated here with every
operation that may panic as a step of its own, and with loops whose rounds are limited by the bytes
of the section that they walk.

What makes the operations safe is established elsewhere each time: the product of a place and the
skip step is below the number of documents, because the places are as many as the rounded quotient;
the range of a posting list is inside the blob, because the entry was checked against its length;
and the loop of `seek_doc`, for which no check limits the number of documents, stops because every
round takes a byte of the section.

Main definitions:

* `CompactCore.Checked.Search.decodePostings`, `CompactCore.Checked.Search.seekDoc`,
  `CompactCore.Checked.Search.lookupTerm`, … — the decoders, under the names of the source.

Main results:

* `CompactCore.Checked.Search.seekFrom_total` — a round takes a byte, so the loop ends;
* `CompactCore.Checked.Search.validateSkips_total` — the product of place and step is in range;
* `CompactCore.Checked.Search.searchDecoders_safe` — **no decoder panics, and every loop ends**.
-/

import CompactCore.Checked.Primitives
import CompactCore.Reference
import CompactCore.Search.Query

set_option relaxedAutoImplicit false
set_option autoImplicit false

namespace CompactCore.Checked.Search

open Wire Fault CompactError
open CompactCore.Search (Envelope headerLen SectionTexts takeSection Posting SkipEntry
  PostingListIndex ParsedPostingList Cursors postingEnvelope postingSection TermIndexEntry
  TermDictionaryIndex ParsedDictionary dictionaryEnvelope dictionarySection termTexts
  minTermEntryLen)

/-! ### Envelopes and gaps -/

/-- Take the body out of an envelope. -/
def unwrap [Crc32Fast] (envelope : Envelope) (data : List UInt8) : Outcome (List UInt8) := do
  failIf (data.length < headerLen) (error (invalidInput envelope.truncated))
  let magic ← sliceTo data 4
  failIf (magic ≠ envelope.magic) (error (invalidInput envelope.invalidMagic))
  let version ← index data 4
  failIf (version ≠ 1) (error (unsupported envelope.version))
  let expectedChecksum ← slice data 5 9
  -- `try_into` makes an array of four bytes, or panics
  require (expectedChecksum.length = 4)
  let body ← sliceFrom data headerLen
  failIf (checksum32 body ≠ u32OfLe expectedChecksum)
    (error (invalidInput envelope.checksumMismatch))
  return body

/-- Read `count` numbers back from the varints of their gaps, in at most `rounds` rounds. -/
def readDeltas (overflow : String) : ℕ → ℕ → UInt64 → CheckedReader (List UInt64)
  | _, 0, _ => pure []
  | 0, _ + 1, _ => liftM (exhausted : Outcome (List UInt64))
  | rounds + 1, count + 1, previous => do
      let delta ← Varint.readU64
      let value ← liftM (okOr (error (invalidInput overflow)) (checkedAdd previous delta))
      let values ← readDeltas overflow rounds count value
      return value :: values

/-! ### Posting lists -/

def validatePositions : List UInt64 → Outcome Unit
  | first :: second :: positions => do
      let window := [first, second]
      let later ← index window 1
      let earlier ← index window 0
      failIf (later ≤ earlier)
        (error (invalidInput "posting positions must be strictly increasing"))
      validatePositions (second :: positions)
  | _ => .ok ()

/-- The loop of `validatePostings`, after a document `previous`. -/
def validateDocIds : Option UInt64 → List Posting → Outcome Unit
  | _, [] => .ok ()
  | previous, posting :: postings => do
      failIf (previous.any (posting.docId ≤ ·))
        (error (invalidInput "posting docIDs must be strictly increasing"))
      validatePositions posting.positions
      validateDocIds (some posting.docId) postings

def validatePostings (postings : List Posting) : Outcome Unit := validateDocIds none postings

/-- The bytes of a `Posting`: a word and a vector. -/
def sizeOfPosting : ℕ := sizeOfU64 + 3 * 8

/-- The bytes of a `TermIndexEntry`: a string and three words. -/
def sizeOfTermIndexEntry : ℕ := sizeOfString + 3 * sizeOfU64

def readPositions (count : UInt64) : CheckedReader (List UInt64) := do
  let capacity ← liftM (total (tryUsize count "posting frequency is too large"))
  let remaining ← Reader.remaining
  liftM (failIf (maxCollectionEntries < capacity ∨ remaining < capacity)
    (error (invalidInput "posting frequency exceeds positions section bounds")))
  liftM (withCapacity sizeOfU64 capacity : Outcome Unit)
  let data ← Reader.input
  let positions ← readDeltas "posting position decode overflow" (data.length + 1) capacity 0
  liftM (validatePositions positions)
  return positions

def readSkip : CheckedReader SkipEntry := do
  let ordinal ← Varint.readU64
  let firstDocId ← Varint.readU64
  let previousDocId ← Varint.readU64
  let docIdsOffset ← Varint.readU64
  let frequenciesOffset ← Varint.readU64
  let positionsOffset ← Varint.readU64
  return ⟨ordinal, firstDocId, previousDocId, docIdsOffset, frequenciesOffset, positionsOffset⟩

/-- One round of `decodeSkips`: the cursor, and the entries so far. -/
def decodeSkipsStep (data : List UInt8) (s : ℕ × List SkipEntry) :
    Outcome (Option (ℕ × List SkipEntry)) :=
  if data.length ≤ s.1 then .ok none
  else do
    let (entry, cursor) ← readSkip data s.1
    return some (cursor, s.2 ++ [entry])

def decodeSkips (data : List UInt8) : Outcome (List SkipEntry) := do
  let (_, entries) ← runWithin (decodeSkipsStep data) (data.length + 1) (0, [])
  return entries

/-- `u64::div_ceil`, which panics on a divisor of zero. -/
def divCeil (a b : UInt64) : Outcome UInt64 := do
  require (b ≠ 0)
  return CompactCore.Search.divCeil a b

/-- The loop of `validateIndex`, after a skip entry for document `previous`. -/
def validateSkips (index : PostingListIndex) :
    Option UInt64 → List (SkipEntry × ℕ) → Outcome Unit
  | _, [] => .ok ()
  | previous, (entry, idx) :: entries => do
      let expectedOrdinal ← mulU64 (UInt64.ofNat idx) index.skipStep
      failIf (entry.ordinal ≠ expectedOrdinal)
        (error (invalidInput "posting skip ordinal mismatch"))
      failIf (index.docCount ≤ entry.ordinal)
        (error (invalidInput "posting skip ordinal out of range"))
      failIf (previous.any (entry.firstDocId ≤ ·))
        (error (invalidInput "posting skip docIDs must be increasing"))
      failIf (index.docIdsLen < entry.docIdsOffset ∨
          index.frequenciesLen < entry.frequenciesOffset ∨
          index.positionsLen < entry.positionsOffset)
        (error (invalidInput "posting skip offset out of range"))
      validateSkips index (some entry.firstDocId) entries

def expectedSkips (index : PostingListIndex) : Outcome UInt64 :=
  if index.docCount = 0 then .ok 0 else divCeil index.docCount index.skipStep

def validateIndex (index : PostingListIndex) : Outcome Unit := do
  let expectedSkips ← expectedSkips index
  failIf (UInt64.ofNat index.skipEntries.length ≠ expectedSkips)
    (error (invalidInput "posting skip count mismatch"))
  validateSkips index none index.skipEntries.zipIdx

/-- Cut the body of a posting list into its sections. -/
def readPostingBody : CheckedReader ParsedPostingList := do
  let docCount ← Varint.readU64
  let skipStep ← Varint.readU64
  let docIdsLen ← Varint.readU64
  let frequenciesLen ← Varint.readU64
  let positionsLen ← Varint.readU64
  let skipLen ← Varint.readU64
  liftM (failIf (skipStep = 0) (error (invalidInput "posting skip step must be non-zero")))
  let docIds ← (takeSection postingSection docIdsLen "posting docIDs are truncated").total
  let frequencies ←
    (takeSection postingSection frequenciesLen "posting frequencies are truncated").total
  let positions ← (takeSection postingSection positionsLen "posting positions are truncated").total
  let skipBytes ← (takeSection postingSection skipLen "posting skip table is truncated").total
  let remaining ← Reader.remaining
  liftM (failIf (remaining ≠ 0) (error (invalidInput "posting payload has trailing bytes")))
  let skipEntries ← liftM (decodeSkips skipBytes)
  let index : PostingListIndex :=
    ⟨docCount, skipStep, docIdsLen, frequenciesLen, positionsLen, skipEntries⟩
  liftM (validateIndex index)
  return ⟨index, docIds, frequencies, positions⟩

/-- One round of a decoder's loop. -/
def readPosting (parsed : ParsedPostingList) (s : Cursors) : Outcome (Posting × Cursors) := do
  let (delta, doc) ← Varint.readU64 parsed.docIds s.doc
  let docId ← okOr (error (invalidInput "posting docID decode overflow"))
    (checkedAdd s.previousDocId delta)
  let (frequency, freq) ← Varint.readU64 parsed.frequencies s.freq
  let (positions, pos) ← readPositions frequency parsed.positions s.pos
  return (⟨docId, positions⟩, ⟨doc, freq, pos, docId⟩)

/-- The loop of `decodeAll`, in at most `rounds` rounds. -/
def readPostings (parsed : ParsedPostingList) :
    ℕ → ℕ → Cursors → Outcome (List Posting × Cursors)
  | _, 0, s => .ok ([], s)
  | 0, _ + 1, _ => exhausted
  | rounds + 1, count + 1, s => do
      let (posting, s) ← readPosting parsed s
      let (postings, s) ← readPostings parsed rounds count s
      return (posting :: postings, s)

def decodeAll (parsed : ParsedPostingList) : Outcome (List Posting) := do
  let count ← total (tryUsize parsed.index.docCount "posting count is too large")
  failIf (maxCollectionEntries < count ∨ parsed.docIds.length < count ∨
      parsed.frequencies.length < count)
    (error (invalidInput "posting count exceeds section bounds"))
  withCapacity sizeOfPosting count
  let (postings, s) ← readPostings parsed (parsed.docIds.length + 1) count {}
  failIf (s.doc ≠ parsed.docIds.length ∨ s.freq ≠ parsed.frequencies.length ∨
      s.pos ≠ parsed.positions.length)
    (error (invalidInput "posting section has trailing bytes"))
  validatePostings postings
  return postings

/-- The loop of `seekDoc`, in at most `rounds` rounds. -/
def seekFrom (parsed : ParsedPostingList) (targetDocId : UInt64) :
    ℕ → UInt64 → Cursors → Outcome (Option Posting)
  | 0, ordinal, _ => if ordinal < parsed.index.docCount then exhausted else return none
  | rounds + 1, ordinal, s =>
      if ordinal < parsed.index.docCount then do
        let (posting, s) ← readPosting parsed s
        if posting.docId = targetDocId then return some posting
        else if targetDocId < posting.docId then return none
        else do
          let ordinal ← addU64 ordinal 1
          seekFrom parsed targetDocId rounds ordinal s
      else return none

def seek (parsed : ParsedPostingList) (targetDocId : UInt64) : Outcome (Option Posting) :=
  match parsed.skipBeforeOrAt targetDocId with
  | none => .ok none
  | some skip => do
      let doc ← total (tryUsize skip.docIdsOffset "posting skip offset is too large")
      let freq ← total (tryUsize skip.frequenciesOffset "posting skip offset is too large")
      let pos ← total (tryUsize skip.positionsOffset "posting skip offset is too large")
      seekFrom parsed targetDocId (parsed.docIds.length + 1) skip.ordinal
        ⟨doc, freq, pos, skip.previousDocId⟩

section

variable [Crc32Fast]

def parsePostings (data : List UInt8) : Outcome ParsedPostingList := do
  let body ← unwrap postingEnvelope data
  let (parsed, _) ← readPostingBody body 0
  return parsed

/-- Decode and validate a complete posting-list payload. -/
def decodePostings (data : List UInt8) : Outcome (List Posting) := do
  let parsed ← parsePostings data
  decodeAll parsed

/-- Read only the searchable metadata and skip table. -/
def inspectPostings (data : List UInt8) : Outcome PostingListIndex := do
  let parsed ← parsePostings data
  return parsed.index

/-- Find one document using the nearest skip entry instead of decoding from zero. -/
def seekDoc (data : List UInt8) (targetDocId : UInt64) : Outcome (Option Posting) := do
  let parsed ← parsePostings data
  seek parsed targetDocId

end

/-! ### Dictionaries -/

/-- The bytes of a term, which are taken with `get`. -/
def takeTerm (len : ℕ) : CheckedReader (List UInt8) :=
  readExact (error (invalidInput termTexts.overflow)) (error (invalidInput termTexts.truncated)) len

/-- Read one term. -/
def readTerm : CheckedReader String := Strings.readOne takeTerm termTexts

/-- Read one entry of the dictionary, after a term `previous`. -/
def readEntry (postingsLen : UInt64) (previous : Option String) :
    CheckedReader TermIndexEntry := do
  let term ← readTerm
  let postingsOffset ← Varint.readU64
  let postingsLenForTerm ← Varint.readU64
  let docCount ← Varint.readU64
  liftM (failIf (term = "") (error (invalidInput "term dictionary term must be non-empty")))
  liftM (failIf (previous.any fun previous => decide (term ≤ previous))
    (error (invalidInput "term dictionary terms must be strictly increasing")))
  let stop ← liftM (okOr (error (invalidInput "term dictionary postings range overflow"))
    (checkedAdd postingsOffset postingsLenForTerm))
  liftM (failIf (postingsLen < stop)
    (error (invalidInput "term dictionary postings range out of bounds")))
  return ⟨term, postingsOffset, postingsLenForTerm, docCount⟩

/-- The loop of `decodeEntries`, in at most `rounds` rounds. -/
def readEntries (postingsLen : UInt64) :
    ℕ → ℕ → Option String → CheckedReader (List TermIndexEntry)
  | _, 0, _ => pure []
  | 0, _ + 1, _ => liftM (exhausted : Outcome (List TermIndexEntry))
  | rounds + 1, count + 1, previous => do
      let entry ← readEntry postingsLen previous
      let entries ← readEntries postingsLen rounds count (some entry.term)
      return entry :: entries

def decodeEntries (data : List UInt8) (termCount postingsLen : UInt64) :
    Outcome (List TermIndexEntry) := do
  let capacity ← total (tryUsize termCount "term dictionary count is too large")
  failIf (maxCollectionEntries < capacity ∨ data.length / minTermEntryLen < capacity)
    (error (invalidInput "term dictionary count exceeds section bounds"))
  withCapacity sizeOfTermIndexEntry capacity
  let (entries, cursor) ← readEntries postingsLen (data.length + 1) capacity none data 0
  failIf (cursor ≠ data.length)
    (error (invalidInput "term dictionary metadata has trailing bytes"))
  total (CompactCore.Search.validatePostingRanges entries)
  return entries

/-- Cut the body of a dictionary into its index and its posting lists. -/
def readDictionaryBody : CheckedReader ParsedDictionary := do
  let termCount ← Varint.readU64
  let dictionaryLen ← Varint.readU64
  let postingsLen ← Varint.readU64
  let dictionary ← (takeSection dictionarySection dictionaryLen
    "term dictionary metadata is truncated").total
  let postingsBlob ← (takeSection dictionarySection postingsLen
    "term dictionary postings are truncated").total
  let remaining ← Reader.remaining
  liftM (failIf (remaining ≠ 0) (error (invalidInput "term dictionary has trailing bytes")))
  let entries ← liftM (decodeEntries dictionary termCount postingsLen)
  return ⟨⟨termCount, postingsLen, entries⟩, postingsBlob⟩

/-- The posting list of an entry.  Neither the addition nor the slice is checked. -/
def postingPayload (parsed : ParsedDictionary) (entry : TermIndexEntry) : Outcome (List UInt8) := do
  let start := entry.postingsOffset.toNat
  let stop ← addUsize start entry.postingsLen.toNat
  slice parsed.postingsBlob start stop

section

variable [Crc32Fast]

def parseDictionary (data : List UInt8) : Outcome ParsedDictionary := do
  let body ← unwrap dictionaryEnvelope data
  let (parsed, _) ← readDictionaryBody body 0
  return parsed

/-- Inspect dictionary metadata without decoding any posting-list payload. -/
def inspectDictionary (data : List UInt8) : Outcome TermDictionaryIndex := do
  let parsed ← parseDictionary data
  return parsed.index

/-- Decode postings for one term. -/
def lookupTerm (data : List UInt8) (term : String) : Outcome (Option (List Posting)) := do
  let parsed ← parseDictionary data
  match parsed.findTerm term with
  | none => return none
  | some entry => do
      let payload ← postingPayload parsed entry
      let postings ← decodePostings payload
      return some postings

/-- Find one document inside one term's posting list. -/
def seekTermDoc (data : List UInt8) (term : String) (docId : UInt64) :
    Outcome (Option Posting) := do
  let parsed ← parseDictionary data
  match parsed.findTerm term with
  | none => return none
  | some entry => do
      let payload ← postingPayload parsed entry
      seekDoc payload docId

/-- Inspect the posting-list metadata for a single term. -/
def inspectTermPostings (data : List UInt8) (term : String) :
    Outcome (Option PostingListIndex) := do
  let parsed ← parseDictionary data
  match parsed.findTerm term with
  | none => return none
  | some entry => do
      let payload ← postingPayload parsed entry
      let index ← inspectPostings payload
      return some index

end

/-! ### No operation panics -/

theorem unwrap_total [Crc32Fast] (envelope : Envelope) (data : List UInt8) :
    unwrap envelope data = total (envelope.unwrap data) := by
  rw [unwrap, Envelope.unwrap]
  refine total_bind_of (total_failIf _ _).symm fun _ hlen => ?_
  -- the length test covers every slice of the header
  have hheader : headerLen ≤ data.length := not_lt.1 (failIf_ok.1 hlen)
  have hlen : 9 ≤ data.length := hheader
  have hindex : data[4]? = some (data.getD 4 0) := by
    rw [List.getD_eq_getElem?_getD, List.getElem?_eq_getElem (show 4 < data.length by omega)]
    rfl
  have hsum : ((data.drop 5).take (9 - 5)).length = 4 := by
    rw [List.length_take, List.length_drop]
    omega
  rw [ok_bind_eq (sliceTo_of (by omega))]
  refine total_bind_of (total_failIf _ _).symm fun _ _ => ?_
  rw [ok_bind_eq (index_of hindex)]
  refine total_bind_of (total_failIf _ _).symm fun _ _ => ?_
  rw [ok_bind_eq (slice_of (by omega) hlen), require_bind hsum, ok_bind_eq (sliceFrom_of hheader)]
  exact total_bind_of (total_failIf _ _).symm fun _ _ => rfl

/-- Every gap takes a byte, so the bytes that are left limit the rounds. -/
theorem readDeltas_total {overflow : String} {data : List UInt8} (hfit : Fits data)
    {rounds count c : ℕ} {previous : UInt64} (hpos : 0 < rounds)
    (hrounds : data.length < c + rounds) :
    readDeltas overflow rounds count previous data c =
      total (CompactCore.Search.readDeltas overflow count previous data c) := by
  induction count generalizing rounds c previous with
  | zero =>
      cases rounds <;> rfl
  | succ count ih =>
      obtain ⟨rounds, rfl⟩ := Nat.exists_eq_succ_of_ne_zero hpos.ne'
      rw [readDeltas, CompactCore.Search.readDeltas]
      refine Reader.total_bind_of (Varint.readU64_total hfit) fun delta c₁ hread => ?_
      obtain ⟨hat, rfl⟩ := CompactCore.Varint.readU64_ok.1 hread
      have hle := hat.le
      have hbyte := CompactCore.Varint.length_encodeOne_pos delta
      refine Reader.total_bind_of (Reader.total_lift_of (total_okOr _ _).symm) fun value c₂ h => ?_
      obtain ⟨-, rfl⟩ := Reader.lift_ok.1 h
      exact Reader.total_bind_of (ih (by omega) (by omega)) fun _ _ _ => rfl

theorem validatePositions_total (positions : List UInt64) :
    validatePositions positions = total (CompactCore.Search.validatePositions positions) := by
  induction positions with
  | nil => rfl
  | cons first positions ih =>
      cases positions with
      | nil => rfl
      | cons second positions =>
          rw [validatePositions, CompactCore.Search.validatePositions,
            ok_bind_eq (index_of (a := second) rfl), ok_bind_eq (index_of (a := first) rfl)]
          exact total_bind_of (total_failIf _ _).symm fun _ _ => ih

theorem validatePostings_total (postings : List Posting) :
    validatePostings postings = total (CompactCore.Search.validatePostings postings) := by
  rw [validatePostings, CompactCore.Search.validatePostings]
  generalize (none : Option UInt64) = previous
  induction postings generalizing previous with
  | nil => rfl
  | cons posting postings ih =>
      rw [validateDocIds, CompactCore.Search.validateDocIds]
      refine total_bind_of (total_failIf _ _).symm fun _ _ => ?_
      exact total_bind_of (validatePositions_total _) fun _ _ => ih _

theorem readPositions_total {count : UInt64} {data : List UInt8} {c : ℕ} (hfit : Fits data) :
    readPositions count data c = total (CompactCore.Search.readPositions count data c) := by
  rw [readPositions, CompactCore.Search.readPositions]
  refine Reader.total_bind_of (Reader.total_lift_of rfl) fun capacity c₁ h => ?_
  obtain ⟨-, rfl⟩ := Reader.lift_ok.1 h
  refine Reader.total_bind_of Reader.total_remaining fun remaining c₂ h => ?_
  obtain ⟨-, rfl⟩ := Reader.remaining_ok.1 h
  refine Reader.total_bind_of (Reader.total_lift_of (total_failIf _ _).symm) fun _ c₃ h => ?_
  obtain ⟨hbound, rfl⟩ := Reader.lift_ok.1 h
  have hbound := not_or.1 (failIf_ok.1 hbound)
  have hcap : sizeOfU64 * capacity ≤ maxAllocation := by
    have := hbound.1
    rw [maxCollectionEntries] at this
    rw [sizeOfU64, maxAllocation]
    omega
  rw [Reader.lift_bind_eq (withCapacity_of hcap), Reader.bind_of_ok (Reader.input_ok.2 ⟨rfl, rfl⟩)]
  refine Reader.total_bind_of (readDeltas_total hfit (by omega) (by omega)) fun positions c₄ _ => ?_
  exact Reader.total_bind_of (Reader.total_lift_of (validatePositions_total _)) fun _ _ _ => rfl

theorem readSkip_total {data : List UInt8} {c : ℕ} (hfit : Fits data) :
    readSkip data c = total (CompactCore.Search.readSkip data c) := by
  rw [readSkip, CompactCore.Search.readSkip]
  refine Reader.total_bind_of (Varint.readU64_total hfit) fun _ _ _ => ?_
  refine Reader.total_bind_of (Varint.readU64_total hfit) fun _ _ _ => ?_
  refine Reader.total_bind_of (Varint.readU64_total hfit) fun _ _ _ => ?_
  refine Reader.total_bind_of (Varint.readU64_total hfit) fun _ _ _ => ?_
  refine Reader.total_bind_of (Varint.readU64_total hfit) fun _ _ _ => ?_
  exact Reader.total_bind_of (Varint.readU64_total hfit) fun _ _ _ => rfl

theorem decodeSkipsStep_total {data : List UInt8} (hfit : Fits data) (s : ℕ × List SkipEntry) :
    decodeSkipsStep data s = total (CompactCore.Search.decodeSkipsStep data s) := by
  rw [decodeSkipsStep, CompactCore.Search.decodeSkipsStep]
  split
  · rfl
  · exact total_bind_of (readSkip_total hfit) fun _ _ => rfl

theorem decodeSkips_total {data : List UInt8} (hfit : Fits data) :
    decodeSkips data = total (CompactCore.Search.decodeSkips data) := by
  -- a round takes a byte of the table, so the bytes limit the rounds
  have hrun : runWithin (decodeSkipsStep data) (data.length + 1) (0, []) =
      total ((CompactCore.Search.decodeSkipsLoop data).run (0, [])) :=
    total_runWithin_of (fun s _ => decodeSkipsStep_total hfit s) (Nat.lt_succ_self _)
  exact total_bind_of hrun fun _ _ => rfl

/-- **The product of a place and the step is in range**: the places are below the rounded quotient,
so the product is below the number of documents. -/
theorem validateSkips_total {index : PostingListIndex} {previous : Option UInt64}
    {entries : List (SkipEntry × ℕ)} (hstep : index.skipStep ≠ 0)
    (hplaces : ∀ e ∈ entries,
      e.2 < (CompactCore.Search.divCeil index.docCount index.skipStep).toNat) :
    validateSkips index previous entries =
      total (CompactCore.Search.validateSkips index previous entries) := by
  have hpos : 0 < index.skipStep.toNat :=
    Nat.pos_of_ne_zero fun h => hstep (UInt64.toNat_inj.1 h)
  induction entries generalizing previous with
  | nil => rfl
  | cons e entries ih =>
      obtain ⟨entry, idx⟩ := e
      obtain ⟨hidx, hplaces⟩ := List.forall_mem_cons.1 hplaces
      have hprod := (CompactCore.Search.lt_divCeil hpos idx).1 hidx
      have hcount := index.docCount.toNat_lt
      have hquot := (CompactCore.Search.divCeil index.docCount index.skipStep).toNat_lt
      have hofNat : (UInt64.ofNat idx).toNat = idx := toNat_ofNat (by omega)
      rw [validateSkips, CompactCore.Search.validateSkips,
        ok_bind_eq (mulU64_of (by rw [hofNat]; omega))]
      refine total_bind_of (total_failIf _ _).symm fun _ _ => ?_
      refine total_bind_of (total_failIf _ _).symm fun _ _ => ?_
      refine total_bind_of (total_failIf _ _).symm fun _ _ => ?_
      refine total_bind_of (total_failIf _ _).symm fun _ _ => ?_
      exact ih hplaces

theorem validateIndex_total {index : PostingListIndex} (hstep : index.skipStep ≠ 0)
    (hfit : index.skipEntries.length < wordSize) :
    validateIndex index = total (CompactCore.Search.validateIndex index) := by
  have hskips : expectedSkips index = .ok (if index.docCount = 0 then 0
      else CompactCore.Search.divCeil index.docCount index.skipStep) := by
    rw [expectedSkips]
    split
    · rfl
    · exact require_bind hstep _
  rw [validateIndex, CompactCore.Search.validateIndex, ok_bind_eq hskips]
  refine total_bind_of (total_failIf _ _).symm fun _ hcount => ?_
  refine validateSkips_total hstep fun e he => ?_
  -- the number of entries is the rounded quotient
  have hplace := (List.mem_zipIdx he).2.1
  have hcount := not_not.1 (failIf_ok.1 hcount)
  have hlen : (UInt64.ofNat index.skipEntries.length).toNat = index.skipEntries.length :=
    toNat_ofNat hfit
  rw [← UInt64.toNat_inj, hlen] at hcount
  split at hcount
  · rw [hcount] at hplace
    exact absurd hplace (Nat.not_lt_zero _)
  · omega

/-- Every skip entry takes a byte of the table. -/
theorem length_decodeSkips_le {data : List UInt8} {entries : List SkipEntry}
    (h : CompactCore.Search.decodeSkips data = .ok entries) : entries.length ≤ data.length := by
  simp only [CompactCore.Search.decodeSkips, bind_ok, pure_ok] at h
  obtain ⟨⟨c, found⟩, hrun, rfl⟩ := h
  obtain ⟨hrounds, -⟩ := Loop.run_ok.1 hrun
  -- the cursor is ahead of the number of entries, and inside the table
  suffices hinv : found.length ≤ c ∧ c ≤ data.length from le_trans hinv.1 hinv.2
  refine hrounds.invariant (P := fun s => s.2.length ≤ s.1 ∧ s.1 ≤ data.length)
    (fun a b hbound hstep => ?_) ⟨le_refl 0, Nat.zero_le _⟩
  replace hstep : CompactCore.Search.decodeSkipsStep data a = .ok (some b) := hstep
  unfold CompactCore.Search.decodeSkipsStep at hstep
  split at hstep
  · cases hstep
  · simp only [bind_ok, pure_ok] at hstep
    obtain ⟨⟨entry, cursor⟩, hread, hb⟩ := hstep
    cases hb
    obtain ⟨hat, rfl⟩ := CompactCore.Search.readSkip_ok.1 hread
    have hle := hat.le
    have hbyte := CompactCore.Search.length_encodeSkip_pos entry
    have hlen : (a.2 ++ [entry]).length = a.2.length + 1 := List.length_append
    exact ⟨by rw [hlen]; omega, hle⟩

theorem readPostingBody_total {data : List UInt8} {c : ℕ} (hfit : Fits data) :
    readPostingBody data c = total (ParsedPostingList.readBody data c) := by
  rw [readPostingBody, ParsedPostingList.readBody]
  refine Reader.total_bind_of (Varint.readU64_total hfit) fun docCount _ _ => ?_
  refine Reader.total_bind_of (Varint.readU64_total hfit) fun skipStep _ _ => ?_
  refine Reader.total_bind_of (Varint.readU64_total hfit) fun docIdsLen _ _ => ?_
  refine Reader.total_bind_of (Varint.readU64_total hfit) fun frequenciesLen _ _ => ?_
  refine Reader.total_bind_of (Varint.readU64_total hfit) fun positionsLen _ _ => ?_
  refine Reader.total_bind_of (Varint.readU64_total hfit) fun skipLen _ _ => ?_
  refine Reader.total_bind_of (Reader.total_lift_of (total_failIf _ _).symm) fun _ _ h => ?_
  have hstep : skipStep ≠ 0 := failIf_ok.1 (Reader.lift_ok.1 h).1
  refine Reader.total_bind_of (Reader.total_apply _ _ _) fun docIds _ _ => ?_
  refine Reader.total_bind_of (Reader.total_apply _ _ _) fun frequencies _ _ => ?_
  refine Reader.total_bind_of (Reader.total_apply _ _ _) fun positions _ _ => ?_
  refine Reader.total_bind_of (Reader.total_apply _ _ _) fun skipBytes _ h => ?_
  have hskips : Fits skipBytes :=
    hfit.of_at ((CompactCore.Search.takeSection_ok hfit).1 h).1
  refine Reader.total_bind_of Reader.total_remaining fun _ _ _ => ?_
  refine Reader.total_bind_of (Reader.total_lift_of (total_failIf _ _).symm) fun _ _ _ => ?_
  refine Reader.total_bind_of (Reader.total_lift_of (decodeSkips_total hskips))
    fun entries _ h => ?_
  have hlen := length_decodeSkips_le (Reader.lift_ok.1 h).1
  have hentries : entries.length < wordSize := lt_of_le_of_lt hlen hskips
  exact Reader.total_bind_of (Reader.total_lift_of (validateIndex_total hstep hentries))
    fun _ _ _ => rfl

/-- The sections of a posting list can be addressed. -/
structure SectionsFit (parsed : ParsedPostingList) : Prop where
  docIds : Fits parsed.docIds
  frequencies : Fits parsed.frequencies
  positions : Fits parsed.positions

theorem readPosting_total {parsed : ParsedPostingList} (hfit : SectionsFit parsed) (s : Cursors) :
    readPosting parsed s = total (parsed.readPosting s) := by
  rw [readPosting, ParsedPostingList.readPosting]
  refine total_bind_of (Varint.readU64_total hfit.docIds) fun r _ => ?_
  refine total_bind_of (total_okOr _ _).symm fun docId _ => ?_
  refine total_bind_of (Varint.readU64_total hfit.frequencies) fun r _ => ?_
  exact total_bind_of (readPositions_total hfit.positions) fun _ _ => rfl

/-- A round of a decoder's loop takes a byte of the section of documents. -/
theorem readPosting_doc {parsed : ParsedPostingList} {s s' : Cursors} {posting : Posting}
    (h : parsed.readPosting s = .ok (posting, s')) :
    s.doc < s'.doc ∧ s'.doc ≤ parsed.docIds.length := by
  simp only [ParsedPostingList.readPosting, bind_ok, pure_ok] at h
  obtain ⟨⟨delta, doc⟩, hread, _, -, _, -, _, -, hs⟩ := h
  cases hs
  obtain ⟨hat, rfl⟩ := CompactCore.Varint.readU64_ok.1 hread
  have hbyte := CompactCore.Varint.length_encodeOne_pos delta
  exact ⟨by show s.doc < s.doc + _; omega, hat.le⟩

theorem readPostings_total {parsed : ParsedPostingList} (hfit : SectionsFit parsed)
    {rounds count : ℕ} {s : Cursors} (hpos : 0 < rounds)
    (hrounds : parsed.docIds.length < s.doc + rounds) :
    readPostings parsed rounds count s = total (parsed.readPostings count s) := by
  induction count generalizing rounds s with
  | zero =>
      cases rounds <;> rfl
  | succ count ih =>
      obtain ⟨rounds, rfl⟩ := Nat.exists_eq_succ_of_ne_zero hpos.ne'
      rw [readPostings, ParsedPostingList.readPostings]
      refine total_bind_of (readPosting_total hfit s) fun r hread => ?_
      obtain ⟨hlt, hle⟩ := readPosting_doc hread
      exact total_bind_of (ih (by omega) (by omega)) fun _ _ => rfl

theorem decodeAll_total {parsed : ParsedPostingList} (hfit : SectionsFit parsed) :
    decodeAll parsed = total parsed.decodeAll := by
  rw [decodeAll, ParsedPostingList.decodeAll]
  refine total_bind_of rfl fun count _ => ?_
  refine total_bind_of (total_failIf _ _).symm fun _ hbound => ?_
  have hcap : sizeOfPosting * count ≤ maxAllocation := by
    have := (not_or.1 (failIf_ok.1 hbound)).1
    rw [maxCollectionEntries] at this
    rw [sizeOfPosting, sizeOfU64, maxAllocation]
    omega
  rw [ok_bind_eq (withCapacity_of hcap)]
  refine total_bind_of (readPostings_total hfit (Nat.succ_pos _) (by simp)) fun r _ => ?_
  refine total_bind_of (total_failIf _ _).symm fun _ _ => ?_
  exact total_bind_of (validatePostings_total _) fun _ _ => rfl

/-- **The loop of a search ends** however many documents the payload declares: a round takes a byte
of the section, and no round goes on behind its end. -/
theorem seekFrom_total {parsed : ParsedPostingList} (hfit : SectionsFit parsed)
    {targetDocId ordinal : UInt64} {rounds : ℕ} {s : Cursors} (hpos : 0 < rounds)
    (hrounds : parsed.docIds.length < s.doc + rounds) :
    seekFrom parsed targetDocId rounds ordinal s = total
      (parsed.seekFrom targetDocId (parsed.index.docCount.toNat - ordinal.toNat) s) := by
  induction rounds generalizing ordinal s with
  | zero => omega
  | succ rounds ih =>
      rw [seekFrom]
      split
      · rename_i hlt
        rw [UInt64.lt_iff_toNat_lt] at hlt
        have hcount := parsed.index.docCount.toNat_lt
        obtain ⟨left, hleft⟩ :=
          Nat.exists_eq_succ_of_ne_zero (Nat.sub_ne_zero_of_lt hlt)
        rw [hleft, ParsedPostingList.seekFrom]
        refine total_bind_of (readPosting_total hfit s) fun r hread => ?_
        rcases r with ⟨posting, s'⟩
        obtain ⟨hdoc, hle⟩ := readPosting_doc hread
        dsimp only
        split
        · rfl
        · split
          · rfl
          · have hnext : (ordinal + 1).toNat = ordinal.toNat + 1 := by
              rw [UInt64.toNat_add]
              exact Nat.mod_eq_of_lt (show ordinal.toNat + 1 < 2 ^ 64 by omega)
            rw [ok_bind_eq (addU64_of (show ordinal.toNat + 1 < 2 ^ 64 by omega)),
              ih (by omega) (by omega), hnext]
            congr 2
            omega
      · rename_i hge
        rw [UInt64.not_lt, UInt64.le_iff_toNat_le] at hge
        rw [Nat.sub_eq_zero_of_le hge]
        rfl

theorem seek_total {parsed : ParsedPostingList} (hfit : SectionsFit parsed)
    (targetDocId : UInt64) : seek parsed targetDocId = total (parsed.seek targetDocId) := by
  rw [seek, ParsedPostingList.seek]
  cases parsed.skipBeforeOrAt targetDocId with
  | none => rfl
  | some skip =>
      refine total_bind_of rfl fun doc _ => ?_
      refine total_bind_of rfl fun freq _ => ?_
      refine total_bind_of rfl fun pos _ => ?_
      exact seekFrom_total hfit (Nat.succ_pos _) (by show _ < doc + _; omega)

section

variable [Crc32Fast] {data : List UInt8}

theorem fits_unwrap {envelope : Envelope} {body : List UInt8} (hfit : Fits data)
    (h : envelope.unwrap data = .ok body) : Fits body := by
  obtain rfl := Envelope.unwrap_ok.1 h
  exact hfit.of_at (at_iff_exists.2 ⟨_, [], (List.append_nil _).symm, rfl⟩)

theorem parsePostings_total (hfit : Fits data) :
    parsePostings data = total (ParsedPostingList.parse data) := by
  rw [parsePostings, ParsedPostingList.parse]
  refine total_bind_of (unwrap_total _ _) fun body hbody => ?_
  exact total_bind_of (readPostingBody_total (fits_unwrap hfit hbody)) fun _ _ => rfl

/-- A posting list that is parsed has sections of the payload. -/
theorem sectionsFit_parse {parsed : ParsedPostingList} (hfit : Fits data)
    (h : ParsedPostingList.parse data = .ok parsed) : SectionsFit parsed := by
  simp only [ParsedPostingList.parse, bind_ok, pure_ok] at h
  obtain ⟨body, hbody, ⟨parsed, c⟩, hread, rfl⟩ := h
  have hbodyFit : Fits body := fits_unwrap hfit hbody
  rcases (CompactCore.Search.readBody_ok hbodyFit).1 hread with ⟨skipBytes, hsections, -⟩
  have hlen := congrArg List.length hsections
  simp only [List.length_append] at hlen
  rw [Fits] at hbodyFit
  constructor
  · show parsed.docIds.length < wordSize
    omega
  · show parsed.frequencies.length < wordSize
    omega
  · show parsed.positions.length < wordSize
    omega

theorem decodePostings_total (hfit : Fits data) :
    decodePostings data = total (CompactCore.Search.decodePostings data) :=
  total_bind_of (parsePostings_total hfit) fun _ h => decodeAll_total (sectionsFit_parse hfit h)

theorem inspectPostings_total (hfit : Fits data) :
    inspectPostings data = total (CompactCore.Search.inspectPostings data) :=
  total_bind_of (parsePostings_total hfit) fun _ _ => rfl

theorem seekDoc_total (hfit : Fits data) (targetDocId : UInt64) :
    seekDoc data targetDocId = total (CompactCore.Search.seekDoc data targetDocId) :=
  total_bind_of (parsePostings_total hfit) fun _ h => seek_total (sectionsFit_parse hfit h) _

end

/-! ### Dictionaries do not panic -/

theorem readTerm_total {data : List UInt8} {c : ℕ} (hfit : Fits data) :
    readTerm data c = total (CompactCore.Strings.readOne termTexts data c) :=
  Strings.readOne_total (fun len data c => total_readExact _ _ len data c) hfit c

theorem readEntry_total {postingsLen : UInt64} {previous : Option String} {data : List UInt8}
    {c : ℕ} (hfit : Fits data) : readEntry postingsLen previous data c =
      total (CompactCore.Search.readEntry postingsLen previous data c) := by
  rw [readEntry, CompactCore.Search.readEntry]
  refine Reader.total_bind_of (readTerm_total hfit) fun _ _ _ => ?_
  refine Reader.total_bind_of (Varint.readU64_total hfit) fun _ _ _ => ?_
  refine Reader.total_bind_of (Varint.readU64_total hfit) fun _ _ _ => ?_
  refine Reader.total_bind_of (Varint.readU64_total hfit) fun _ _ _ => ?_
  refine Reader.total_bind_of (Reader.total_lift_of (total_failIf _ _).symm) fun _ _ _ => ?_
  refine Reader.total_bind_of (Reader.total_lift_of (total_failIf _ _).symm) fun _ _ _ => ?_
  refine Reader.total_bind_of (Reader.total_lift_of (total_okOr _ _).symm) fun _ _ _ => ?_
  exact Reader.total_bind_of (Reader.total_lift_of (total_failIf _ _).symm) fun _ _ _ => rfl

/-- Every entry takes a byte, so the bytes that are left limit the rounds. -/
theorem readEntries_total {postingsLen : UInt64} {data : List UInt8} (hfit : Fits data)
    {rounds count c : ℕ} {previous : Option String} (hpos : 0 < rounds)
    (hrounds : data.length < c + rounds) :
    readEntries postingsLen rounds count previous data c =
      total (CompactCore.Search.readEntries postingsLen count previous data c) := by
  induction count generalizing rounds c previous with
  | zero =>
      cases rounds <;> rfl
  | succ count ih =>
      obtain ⟨rounds, rfl⟩ := Nat.exists_eq_succ_of_ne_zero hpos.ne'
      rw [readEntries, CompactCore.Search.readEntries]
      refine Reader.total_bind_of (readEntry_total hfit) fun entry c₁ hread => ?_
      obtain ⟨hat, hterm, -, -, rfl⟩ := (CompactCore.Search.readEntry_ok hfit).1 hread
      have hle := hat.le
      have hbytes := CompactCore.Search.minTermEntryLen_le hterm
      rw [minTermEntryLen] at hbytes
      exact Reader.total_bind_of (ih (by omega) (by omega)) fun _ _ _ => rfl

theorem decodeEntries_total {data : List UInt8} (hfit : Fits data)
    (termCount postingsLen : UInt64) : decodeEntries data termCount postingsLen =
      total (CompactCore.Search.decodeEntries data termCount postingsLen) := by
  rw [decodeEntries, CompactCore.Search.decodeEntries]
  refine total_bind_of rfl fun capacity _ => ?_
  refine total_bind_of (total_failIf _ _).symm fun _ hbound => ?_
  have hcap : sizeOfTermIndexEntry * capacity ≤ maxAllocation := by
    have := (not_or.1 (failIf_ok.1 hbound)).1
    rw [maxCollectionEntries] at this
    rw [sizeOfTermIndexEntry, sizeOfString, sizeOfU64, maxAllocation]
    omega
  rw [ok_bind_eq (withCapacity_of hcap)]
  refine total_bind_of (readEntries_total hfit (Nat.succ_pos _) (by omega)) fun r _ => ?_
  refine total_bind_of (total_failIf _ _).symm fun _ _ => ?_
  exact total_bind_of rfl fun _ _ => rfl

theorem readDictionaryBody_total {data : List UInt8} {c : ℕ} (hfit : Fits data) :
    readDictionaryBody data c = total (ParsedDictionary.readBody data c) := by
  rw [readDictionaryBody, ParsedDictionary.readBody]
  refine Reader.total_bind_of (Varint.readU64_total hfit) fun termCount _ _ => ?_
  refine Reader.total_bind_of (Varint.readU64_total hfit) fun dictionaryLen _ _ => ?_
  refine Reader.total_bind_of (Varint.readU64_total hfit) fun postingsLen _ _ => ?_
  refine Reader.total_bind_of (Reader.total_apply _ _ _) fun dictionary _ h => ?_
  have hdictionary : Fits dictionary :=
    hfit.of_at ((CompactCore.Search.takeSection_ok hfit).1 h).1
  refine Reader.total_bind_of (Reader.total_apply _ _ _) fun postingsBlob _ _ => ?_
  refine Reader.total_bind_of Reader.total_remaining fun _ _ _ => ?_
  refine Reader.total_bind_of (Reader.total_lift_of (total_failIf _ _).symm) fun _ _ _ => ?_
  exact Reader.total_bind_of (Reader.total_lift_of (decodeEntries_total hdictionary _ _))
    fun _ _ _ => rfl

/-- The entries that the loop reads have their posting lists inside the blob. -/
theorem range_of_readEntries {postingsLen : UInt64} {data : List UInt8} (hfit : Fits data)
    {count c c' : ℕ} {previous : Option String} {entries : List TermIndexEntry}
    (h : CompactCore.Search.readEntries postingsLen count previous data c = .ok (entries, c')) :
    ∀ entry ∈ entries,
      entry.postingsOffset.toNat + entry.postingsLen.toNat ≤ postingsLen.toNat := by
  induction count generalizing c previous entries with
  | zero =>
      obtain ⟨rfl, -⟩ := Reader.pure_ok.1 h
      intro entry hentry
      cases hentry
  | succ count ih =>
      simp only [CompactCore.Search.readEntries, Reader.bind_ok, Reader.pure_ok,
        CompactCore.Search.readEntry_ok hfit] at h
      obtain ⟨entry, _, ⟨-, -, -, hrange, -⟩, entries, _, hrest, rfl, rfl⟩ := h
      exact List.forall_mem_cons.2 ⟨hrange, ih hrest⟩

section

variable [Crc32Fast] {data : List UInt8}

theorem parseDictionary_total (hfit : Fits data) :
    parseDictionary data = total (ParsedDictionary.parse data) := by
  rw [parseDictionary, ParsedDictionary.parse]
  refine total_bind_of (unwrap_total _ _) fun body hbody => ?_
  exact total_bind_of (readDictionaryBody_total (fits_unwrap hfit hbody)) fun _ _ => rfl

/-- What the parser has established of a dictionary: its posting lists can be addressed, and every
entry has its own inside them. -/
structure Located (parsed : ParsedDictionary) : Prop where
  fits : Fits parsed.postingsBlob
  range : ∀ entry ∈ parsed.index.entries,
    entry.postingsOffset.toNat + entry.postingsLen.toNat ≤ parsed.postingsBlob.length

theorem located_parse {parsed : ParsedDictionary} (hfit : Fits data)
    (h : ParsedDictionary.parse data = .ok parsed) : Located parsed := by
  simp only [ParsedDictionary.parse, bind_ok, pure_ok] at h
  obtain ⟨body, hbody, ⟨parsed, c⟩, hread, rfl⟩ := h
  replace hfit := fits_unwrap hfit hbody
  simp only [ParsedDictionary.readBody, Reader.bind_ok, Reader.lift_ok, Reader.pure_ok,
    CompactCore.Search.takeSection_ok hfit] at hread
  obtain ⟨_, _, -, _, _, -, postingsLen, _, -, dictionary, _, ⟨hdictionary, -⟩, blob, _,
    ⟨hblob, hlen, -⟩, _, _, -, _, _, -, entries, _, ⟨hentries, -⟩, rfl, -⟩ := hread
  simp only [CompactCore.Search.decodeEntries, bind_ok, pure_ok] at hentries
  obtain ⟨_, -, _, -, ⟨found, _⟩, hfound, _, -, _, -, rfl⟩ := hentries
  refine ⟨hfit.of_at hblob, fun entry hentry => ?_⟩
  rw [hlen]
  exact range_of_readEntries (hfit.of_at hdictionary) hfound entry hentry

omit [Crc32Fast] in
theorem mem_findTerm {parsed : ParsedDictionary} {term : String} {entry : TermIndexEntry}
    (h : parsed.findTerm term = some entry) : entry ∈ parsed.index.entries := by
  obtain ⟨i, -, hi⟩ := Option.bind_eq_some_iff.1 h
  exact List.mem_of_getElem? hi

omit [Crc32Fast] in
/-- **The range of a posting list is inside the blob**: the entry was checked against the length
that the blob was cut off with. -/
theorem postingPayload_total {parsed : ParsedDictionary} (h : Located parsed)
    {entry : TermIndexEntry} (hentry : entry ∈ parsed.index.entries) :
    postingPayload parsed entry = .ok (parsed.postingPayload entry) := by
  have hrange := h.range entry hentry
  have hblob : parsed.postingsBlob.length < wordSize := h.fits
  rw [postingPayload, ok_bind_eq (addUsize_of (by omega)), slice_of (by omega) hrange,
    Nat.add_sub_cancel_left]
  rfl

omit [Crc32Fast] in
theorem fits_postingPayload {parsed : ParsedDictionary} (h : Located parsed)
    (entry : TermIndexEntry) : Fits (parsed.postingPayload entry) := (h.fits.drop _).take _

theorem inspectDictionary_total (hfit : Fits data) :
    inspectDictionary data = total (CompactCore.Search.inspectDictionary data) :=
  total_bind_of (parseDictionary_total hfit) fun _ _ => rfl

/-- **What is done with the posting list of a term is total** if it is total on every payload. -/
theorem total_at_term {α : Type} {act : List UInt8 → Outcome (Option α)}
    {act' : List UInt8 → Result (Option α)} (hfit : Fits data) (term : String)
    (hact : ∀ payload, Fits payload → act payload = total (act' payload)) :
    (do
      let parsed ← parseDictionary data
      match parsed.findTerm term with
      | none => return none
      | some entry => do
          let payload ← postingPayload parsed entry
          act payload) =
    total (do
      let parsed ← ParsedDictionary.parse data
      match parsed.findTerm term with
      | none => return none
      | some entry => act' (parsed.postingPayload entry)) := by
  refine total_bind_of (parseDictionary_total hfit) fun parsed hparsed => ?_
  have hlocated := located_parse hfit hparsed
  cases hfind : parsed.findTerm term with
  | none => rfl
  | some entry =>
      dsimp only
      rw [ok_bind_eq (postingPayload_total hlocated (mem_findTerm hfind))]
      exact hact _ (fits_postingPayload hlocated entry)

theorem lookupTerm_total (hfit : Fits data) (term : String) :
    lookupTerm data term = total (CompactCore.Search.lookupTerm data term) := by
  have hact : ∀ payload, Fits payload → (do return some (← decodePostings payload)) =
      total (do return some (← CompactCore.Search.decodePostings payload)) := by
    intro payload hpayload
    exact total_bind_of (decodePostings_total hpayload) fun _ _ => rfl
  exact total_at_term hfit term hact

theorem seekTermDoc_total (hfit : Fits data) (term : String) (docId : UInt64) :
    seekTermDoc data term docId = total (CompactCore.Search.seekTermDoc data term docId) :=
  total_at_term hfit term fun _ hpayload => seekDoc_total hpayload docId

theorem inspectTermPostings_total (hfit : Fits data) (term : String) :
    inspectTermPostings data term = total (CompactCore.Search.inspectTermPostings data term) := by
  have hact : ∀ payload, Fits payload → (do return some (← inspectPostings payload)) =
      total (do return some (← CompactCore.Search.inspectPostings payload)) := by
    intro payload hpayload
    exact total_bind_of (inspectPostings_total hpayload) fun _ _ => rfl
  exact total_at_term hfit term hact

/-- **The search decoders neither panic nor go on for ever**, whatever bytes they are given. -/
theorem searchDecoders_safe (hfit : Fits data) (term : String) (docId : UInt64) :
    Safe (inspectPostings data) ∧ Safe (decodePostings data) ∧ Safe (seekDoc data docId) ∧
      Safe (inspectDictionary data) ∧ Safe (lookupTerm data term) ∧
      Safe (seekTermDoc data term docId) ∧ Safe (inspectTermPostings data term) := by
  rw [inspectPostings_total hfit, decodePostings_total hfit, seekDoc_total hfit,
    inspectDictionary_total hfit, lookupTerm_total hfit, seekTermDoc_total hfit,
    inspectTermPostings_total hfit]
  exact ⟨safe_total _, safe_total _, safe_total _, safe_total _, safe_total _, safe_total _,
    safe_total _⟩

end

open scoped CompactCore.Reference

/-- A posting list that declares as many documents as a word can hold, and has two. -/
def hugeCount : List UInt8 :=
  postingEnvelope.wrap (CompactCore.Varint.encodeU64 [-1, -1, 2, 2, 0, 6] ++
    [0, 0] ++ [0, 0] ++ [0, 0, 0, 0, 0, 0])

theorem searchDecoders_safe_hugeCount :
    seekDoc hugeCount 5 = .error (error (invalidInput "truncated varint")) ∧
      Safe (seekDoc hugeCount 5) ∧ Safe (decodePostings hugeCount) :=
  ⟨by decide +kernel, (searchDecoders_safe (by decide +kernel) "" 5).2.2.1,
    (searchDecoders_safe (by decide +kernel) "" 5).2.1⟩

end CompactCore.Checked.Search
