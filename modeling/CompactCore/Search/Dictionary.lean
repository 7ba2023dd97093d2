/-
**Term dictionaries.**

A dictionary block holds the terms of an inverted index in increasing order, and behind them the
posting lists of the terms, one after the other.  A reader searches the terms by halving, and
decodes the posting list of one term only.

Main definitions:

* `CompactCore.Search.TermPostingList`, `CompactCore.Search.TermIndexEntry`,
  `CompactCore.Search.TermDictionaryIndex` — the data;
* `CompactCore.Search.encodeDictionary`, `CompactCore.Search.inspectDictionary`,
  `CompactCore.Search.lookupTerm` — the format;
* `CompactCore.Search.TermsInOrder`, `CompactCore.Search.WithinLimits` — the dictionaries that have
  an encoding, and those that the decoder takes;
* `CompactCore.Search.Contiguous`, `CompactCore.Search.Indexes` — what an index says of the
  posting lists.

Main results:

* `CompactCore.Search.exists_encodeDictionary_iff` — what has an encoding;
* `CompactCore.Search.parse_encodedDictionary` — an encoded dictionary is cut into its index and
  its posting lists;
* `CompactCore.Search.lookupTerm_mem`, `CompactCore.Search.lookupTerm_not_mem` — every term of an
  encoded dictionary is found with its postings, and no other term is;
* `CompactCore.Search.indexes_indexFrom` — the index lists the terms, their document counts and
  their ranges;
* `CompactCore.Search.encodeDictionary_spec` — **what is encoded, and what is found there**.
-/

import CompactCore.Codecs.Strings
import CompactCore.Reference
import CompactCore.Search.Postings
import CompactCore.Wire.Search
import Mathlib.Data.List.Chain
import Mathlib.Data.String.Basic

set_option relaxedAutoImplicit false
set_option autoImplicit false

namespace CompactCore.Search

open Wire CompactError

/-! ### The data -/

/-- In-memory term and its posting list before encoding. -/
structure TermPostingList where
  term : String
  postings : List Posting
  deriving DecidableEq, Repr

/-- Metadata for one term inside a dictionary block. -/
structure TermIndexEntry where
  term : String
  postingsOffset : UInt64
  postingsLen : UInt64
  docCount : UInt64
  deriving DecidableEq, Repr

/-- Metadata decoded without expanding posting-list payloads. -/
structure TermDictionaryIndex where
  termCount : UInt64
  postingsBytes : UInt64
  entries : List TermIndexEntry
  deriving DecidableEq, Repr

/-- The envelope of a dictionary; its magic is `b"TRM1"`. -/
def dictionaryEnvelope : Envelope where
  magic := [0x54, 0x52, 0x4d, 0x31]
  truncated := "term dictionary payload is truncated"
  invalidMagic := "term dictionary has invalid magic"
  version := "term dictionary version"
  checksumMismatch := "term dictionary checksum mismatch"
  length_magic := rfl

def dictionarySection : SectionTexts where
  tooLarge := "term dictionary section length is too large"
  overflow := "term dictionary section length overflow"

/-- The error texts of a term, which is a section of its own. -/
def termTexts : Strings.Texts where
  tooLarge := dictionarySection.tooLarge
  overflow := dictionarySection.overflow
  truncated := "term dictionary term is truncated"
  notUtf8 := "term dictionary term is not utf-8"

/-! ### The encoder -/

/-- The loop of `validateTerms`, after a term `previous`.  Strings are compared by code points,
which is the order of their UTF-8 bytes. -/
def validateTermsAfter : Option String → List TermPostingList → Result Unit
  | _, [] => .ok ()
  | previous, entry :: entries => do
      failIf (entry.term = "") (invalidInput "term dictionary term must be non-empty")
      failIf (previous.any fun previous => decide (entry.term ≤ previous))
        (invalidInput "term dictionary terms must be strictly increasing")
      validateTermsAfter (some entry.term) entries

def validateTerms (entries : List TermPostingList) : Result Unit := validateTermsAfter none entries

/-- The stored form of an index entry. -/
def encodeEntry (entry : TermIndexEntry) : List UInt8 :=
  Strings.lenPrefixed entry.term ++
    Varint.encodeU64 [entry.postingsOffset, entry.postingsLen, entry.docCount]

/-- The body of a dictionary. -/
def encodeDictionaryBody (termCount : ℕ) (dictionary postingsBlob : List UInt8) : List UInt8 :=
  Varint.encodeU64 [UInt64.ofNat termCount, UInt64.ofNat dictionary.length,
      UInt64.ofNat postingsBlob.length] ++
    dictionary ++ postingsBlob

section

variable [Crc32Fast]

/-- One round of the encoder's loop: the dictionary and the posting lists so far. -/
def encodeTerm (skipStep : UInt64) (s : List UInt8 × List UInt8) (entry : TermPostingList) :
    Result (List UInt8 × List UInt8) := do
  let (dictionary, postingsBlob) := s
  let encodedPostings ← encodePostings entry.postings skipStep
  let indexEntry : TermIndexEntry :=
    { term := entry.term
      postingsOffset := UInt64.ofNat postingsBlob.length
      postingsLen := UInt64.ofNat encodedPostings.length
      docCount := UInt64.ofNat entry.postings.length }
  return (dictionary ++ encodeEntry indexEntry, postingsBlob ++ encodedPostings)

/-- Encode sorted term posting lists into one reusable dictionary block. -/
def encodeDictionary (entries : List TermPostingList) (skipStep : UInt64) :
    Result (List UInt8) := do
  validateTerms entries
  let (dictionary, postingsBlob) ← entries.foldlM (encodeTerm skipStep) ([], [])
  return dictionaryEnvelope.wrap (encodeDictionaryBody entries.length dictionary postingsBlob)

end

/-! ### The decoder -/

/-- Read one entry of the dictionary, after a term `previous`. -/
def readEntry (postingsLen : UInt64) (previous : Option String) :
    Reader CompactError TermIndexEntry := do
  let term ← Strings.readOne termTexts
  let postingsOffset ← Varint.readU64
  let postingsLenForTerm ← Varint.readU64
  let docCount ← Varint.readU64
  liftM (failIf (term = "") (invalidInput "term dictionary term must be non-empty"))
  liftM (failIf (previous.any fun previous => decide (term ≤ previous))
    (invalidInput "term dictionary terms must be strictly increasing"))
  let stop ← liftM (okOr (invalidInput "term dictionary postings range overflow")
    (checkedAdd postingsOffset postingsLenForTerm))
  liftM (failIf (postingsLen < stop)
    (invalidInput "term dictionary postings range out of bounds"))
  return ⟨term, postingsOffset, postingsLenForTerm, docCount⟩

/-- The loop of `decodeEntries`. -/
def readEntries (postingsLen : UInt64) :
    ℕ → Option String → Reader CompactError (List TermIndexEntry)
  | 0, _ => pure []
  | count + 1, previous => do
      let entry ← readEntry postingsLen previous
      let entries ← readEntries postingsLen count (some entry.term)
      return entry :: entries

/-- The loop of `validatePostingRanges`. -/
def validateRangesFrom : UInt64 → List TermIndexEntry → Result Unit
  | _, [] => .ok ()
  | expectedOffset, entry :: entries => do
      failIf (entry.postingsOffset ≠ expectedOffset)
        (invalidInput "term dictionary postings ranges must be contiguous")
      let expectedOffset ← okOr (invalidInput "term dictionary postings range overflow")
        (checkedAdd expectedOffset entry.postingsLen)
      validateRangesFrom expectedOffset entries

def validatePostingRanges (entries : List TermIndexEntry) : Result Unit :=
  validateRangesFrom 0 entries

def minTermEntryLen : ℕ := 5

def decodeEntries (data : List UInt8) (termCount postingsLen : UInt64) :
    Result (List TermIndexEntry) := do
  let capacity ← tryUsize termCount "term dictionary count is too large"
  failIf (maxCollectionEntries < capacity ∨ data.length / minTermEntryLen < capacity)
    (invalidInput "term dictionary count exceeds section bounds")
  let (entries, cursor) ← readEntries postingsLen capacity none data 0
  failIf (cursor ≠ data.length) (invalidInput "term dictionary metadata has trailing bytes")
  validatePostingRanges entries
  return entries

structure ParsedDictionary where
  index : TermDictionaryIndex
  postingsBlob : List UInt8
  deriving DecidableEq, Repr

/-- Cut the body of a dictionary into its index and its posting lists. -/
def ParsedDictionary.readBody : Reader CompactError ParsedDictionary := do
  let termCount ← Varint.readU64
  let dictionaryLen ← Varint.readU64
  let postingsLen ← Varint.readU64
  let dictionary ← takeSection dictionarySection dictionaryLen
    "term dictionary metadata is truncated"
  let postingsBlob ← takeSection dictionarySection postingsLen
    "term dictionary postings are truncated"
  let remaining ← Reader.remaining
  liftM (failIf (remaining ≠ 0) (invalidInput "term dictionary has trailing bytes"))
  let entries ← liftM (decodeEntries dictionary termCount postingsLen)
  return ⟨⟨termCount, postingsLen, entries⟩, postingsBlob⟩

def ParsedDictionary.findTerm (parsed : ParsedDictionary) (term : String) :
    Option TermIndexEntry :=
  (binarySearchBy (fun entry => compare entry.term term) parsed.index.entries).toOption.bind
    (parsed.index.entries[·]?)

/-- The posting list of an entry, whose range the decoder has checked. -/
def ParsedDictionary.postingPayload (parsed : ParsedDictionary) (entry : TermIndexEntry) :
    List UInt8 :=
  (parsed.postingsBlob.drop entry.postingsOffset.toNat).take entry.postingsLen.toNat

section

variable [Crc32Fast]

def ParsedDictionary.parse (data : List UInt8) : Result ParsedDictionary := do
  let body ← dictionaryEnvelope.unwrap data
  let (parsed, _) ← readBody body 0
  return parsed

/-- Inspect dictionary metadata without decoding any posting-list payload. -/
def inspectDictionary (data : List UInt8) : Result TermDictionaryIndex := do
  let parsed ← ParsedDictionary.parse data
  return parsed.index

/-- Decode postings for one term.  A term that is missing is no error. -/
def lookupTerm (data : List UInt8) (term : String) : Result (Option (List Posting)) := do
  let parsed ← ParsedDictionary.parse data
  match parsed.findTerm term with
  | none => return none
  | some entry => do
      let postings ← decodePostings (parsed.postingPayload entry)
      return some postings

/-- Inspect the posting-list metadata for a single term. -/
def inspectTermPostings (data : List UInt8) (term : String) :
    Result (Option PostingListIndex) := do
  let parsed ← ParsedDictionary.parse data
  match parsed.findTerm term with
  | none => return none
  | some entry => do
      let index ← inspectPostings (parsed.postingPayload entry)
      return some index

end

/-! ### What has an encoding -/

/-- The terms of a dictionary are non-empty and increase. -/
def TermsInOrder (terms : List String) : Prop :=
  (∀ term ∈ terms, term ≠ "") ∧ terms.Pairwise (· < ·)

instance (terms : List String) : Decidable (TermsInOrder terms) :=
  inferInstanceAs (Decidable (_ ∧ _))

theorem validateTermsAfter_ok {previous : Option String} {entries : List TermPostingList}
    {u : Unit} : validateTermsAfter previous entries = .ok u ↔
      (∀ entry ∈ entries, entry.term ≠ "") ∧
        (previous.toList ++ entries.map TermPostingList.term).IsChain (· < ·) := by
  induction entries generalizing previous with
  | nil => cases previous <;> simp [validateTermsAfter]
  | cons entry entries ih =>
      simp only [validateTermsAfter, bind_ok, failIf_ok, exists_const, ih, List.forall_mem_cons,
        List.map_cons, isChain_after String.not_le]
      tauto

theorem validateTerms_ok {entries : List TermPostingList} {u : Unit} :
    validateTerms entries = .ok u ↔ TermsInOrder (entries.map TermPostingList.term) := by
  rw [validateTerms, validateTermsAfter_ok, Option.toList_none, List.nil_append,
    List.isChain_iff_pairwise, TermsInOrder, List.forall_mem_map]

section

variable [Crc32Fast]

/-- The posting lists of a dictionary, one after the other. -/
def blobOf (skipStep : UInt64) (entries : List TermPostingList) : List UInt8 :=
  entries.flatMap fun entry => postingBytes skipStep entry.postings

/-- The index of a dictionary whose posting lists begin at `offset`. -/
def indexFrom (skipStep : UInt64) : ℕ → List TermPostingList → List TermIndexEntry
  | _, [] => []
  | offset, entry :: entries =>
      let payload := postingBytes skipStep entry.postings
      { term := entry.term
        postingsOffset := UInt64.ofNat offset
        postingsLen := UInt64.ofNat payload.length
        docCount := UInt64.ofNat entry.postings.length } ::
        indexFrom skipStep (offset + payload.length) entries

theorem blobOf_cons (skipStep : UInt64) (entry : TermPostingList)
    (entries : List TermPostingList) : blobOf skipStep (entry :: entries) =
      postingBytes skipStep entry.postings ++ blobOf skipStep entries := rfl

/-- The encoder's loop succeeds exactly when every posting list has an encoding. -/
theorem foldlM_encodeTerm {skipStep : UInt64} {entries : List TermPostingList}
    {s s' : List UInt8 × List UInt8} : entries.foldlM (encodeTerm skipStep) s = .ok s' ↔
      (∀ entry ∈ entries, skipStep ≠ 0 ∧ Increasing entry.postings) ∧
        s' = (s.1 ++ (indexFrom skipStep s.2.length entries).flatMap encodeEntry,
          s.2 ++ blobOf skipStep entries) := by
  induction entries generalizing s with
  | nil =>
      rw [List.foldlM_nil, pure_ok, eq_comm]
      simp [indexFrom, blobOf]
  | cons entry entries ih =>
      simp only [List.foldlM_cons, encodeTerm, bind_ok, encodePostings_ok, pure_ok, ih,
        List.forall_mem_cons, blobOf_cons, indexFrom, List.flatMap_cons]
      constructor
      · rintro ⟨_, ⟨_, ⟨hstep, hpostings, rfl⟩, rfl⟩, hall, rfl⟩
        refine ⟨⟨⟨hstep, hpostings⟩, hall⟩, ?_⟩
        simp only [List.length_append, List.append_assoc]
      · rintro ⟨⟨hentry, hall⟩, rfl⟩
        refine ⟨_, ⟨_, ⟨hentry.1, hentry.2, rfl⟩, rfl⟩, hall, ?_⟩
        simp only [List.length_append, List.append_assoc]

theorem encodeDictionary_ok {entries : List TermPostingList} {skipStep : UInt64}
    {block : List UInt8} : encodeDictionary entries skipStep = .ok block ↔
      TermsInOrder (entries.map TermPostingList.term) ∧
        (∀ entry ∈ entries, skipStep ≠ 0 ∧ Increasing entry.postings) ∧
        block = dictionaryEnvelope.wrap (encodeDictionaryBody entries.length
          ((indexFrom skipStep 0 entries).flatMap encodeEntry) (blobOf skipStep entries)) := by
  simp only [encodeDictionary, bind_ok, validateTerms_ok, foldlM_encodeTerm, pure_ok,
    exists_const]
  constructor
  · rintro ⟨hterms, _, ⟨hall, rfl⟩, rfl⟩
    exact ⟨hterms, hall, rfl⟩
  · rintro ⟨hterms, hall, rfl⟩
    exact ⟨hterms, _, ⟨hall, rfl⟩, rfl⟩

/-- **What has an encoding.**  The step is looked at by the posting lists only. -/
theorem exists_encodeDictionary_iff {entries : List TermPostingList} {skipStep : UInt64} :
    (∃ block, encodeDictionary entries skipStep = .ok block) ↔
      (skipStep ≠ 0 ∨ entries = []) ∧ TermsInOrder (entries.map TermPostingList.term) ∧
        ∀ entry ∈ entries, Increasing entry.postings := by
  simp only [encodeDictionary_ok, exists_and_left, exists_eq, and_true]
  cases entries with
  | nil => simp
  | cons entry entries =>
      simp only [List.forall_mem_cons, reduceCtorEq, or_false]
      constructor
      · rintro ⟨hterms, ⟨hstep, hentry⟩, hall⟩
        exact ⟨hstep, hterms, hentry, fun e he => (hall e he).2⟩
      · rintro ⟨hstep, hterms, hentry, hall⟩
        exact ⟨hterms, ⟨hstep, hentry⟩, fun e he => ⟨hstep, hall e he⟩⟩

end

/-! ### Reading the index -/

/-- **Reading an entry is exact.** -/
theorem readEntry_ok {postingsLen : UInt64} {previous : Option String} {data : List UInt8}
    {c c' : ℕ} {entry : TermIndexEntry} (hfit : Fits data) :
    readEntry postingsLen previous data c = .ok (entry, c') ↔
      At data c (encodeEntry entry) ∧ entry.term ≠ "" ∧ (∀ p ∈ previous, p < entry.term) ∧
        entry.postingsOffset.toNat + entry.postingsLen.toNat ≤ postingsLen.toNat ∧
        c' = c + (encodeEntry entry).length := by
  simp only [readEntry, Reader.bind_ok, Strings.readOne_ok hfit, Varint.readU64_ok, Reader.lift_ok,
    okOr_ok, failIf_ok, checkedAdd_eq_some, Reader.pure_ok, encodeEntry, Varint.encodeU64_cons,
    Varint.encodeU64_nil, List.append_nil, at_append, List.length_append]
  constructor
  · rintro ⟨term, _, ⟨hterm, rfl⟩, _, _, ⟨hoffset, rfl⟩, _, _, ⟨hpostings, rfl⟩, _, _,
      ⟨hcount, rfl⟩, -, _, ⟨hempty, rfl⟩, -, _, ⟨hless, rfl⟩, stop, _, ⟨hstop, rfl⟩, -, _,
      ⟨hrange, rfl⟩, rfl, rfl⟩
    rw [UInt64.not_lt, UInt64.le_iff_toNat_le, hstop] at hrange
    refine ⟨⟨hterm, hoffset, hpostings, hcount⟩, hempty, ?_, hrange, by simp only [Nat.add_assoc]⟩
    rintro p rfl
    simpa using hless
  · rintro ⟨⟨hterm, hoffset, hpostings, hcount⟩, hempty, hless, hrange, rfl⟩
    have hend := postingsLen.toNat_lt
    have hstop := toNat_ofNat (n := entry.postingsOffset.toNat + entry.postingsLen.toNat) (by omega)
    refine ⟨_, _, ⟨hterm, rfl⟩, _, _, ⟨hoffset, rfl⟩, _, _, ⟨hpostings, rfl⟩, _, _, ⟨hcount, rfl⟩,
      (), _, ⟨hempty, rfl⟩, (), _, ⟨?_, rfl⟩, _, _, ⟨hstop, rfl⟩, (), _, ⟨?_, rfl⟩, rfl,
      by simp only [Nat.add_assoc]⟩
    · cases previous with
      | none => simp
      | some previous => simpa using hless previous rfl
    · rw [UInt64.not_lt, UInt64.le_iff_toNat_le, hstop]
      exact hrange

/-- An entry with a term takes at least five bytes. -/
theorem minTermEntryLen_le {entry : TermIndexEntry} (hterm : entry.term ≠ "") :
    minTermEntryLen ≤ (encodeEntry entry).length := by
  have hlen : 0 < (asBytes entry.term).length :=
    List.length_pos_iff.2 fun h => hterm (asBytes_eq_nil.1 h)
  have h₁ := Varint.length_encodeOne_pos (UInt64.ofNat (asBytes entry.term).length)
  have h₂ := Varint.length_encodeOne_pos entry.postingsOffset
  have h₃ := Varint.length_encodeOne_pos entry.postingsLen
  have h₄ := Varint.length_encodeOne_pos entry.docCount
  simp only [encodeEntry, Strings.lenPrefixed, Varint.encodeU64_cons, Varint.encodeU64_nil,
    List.append_nil, List.length_append, minTermEntryLen]
  omega

theorem length_flatMap_encodeEntry_ge {entries : List TermIndexEntry}
    (h : ∀ entry ∈ entries, entry.term ≠ "") :
    entries.length * minTermEntryLen ≤ (entries.flatMap encodeEntry).length := by
  induction entries with
  | nil => exact Nat.le_of_eq (Nat.zero_mul _)
  | cons entry entries ih =>
      obtain ⟨hentry, hentries⟩ := List.forall_mem_cons.1 h
      have hhead := minTermEntryLen_le hentry
      have htail := ih hentries
      rw [List.length_cons, Nat.succ_mul, List.flatMap_cons, List.length_append]
      omega

/-- What the decoder checks of the entries of an index. -/
structure Listed (postingsLen : UInt64) (previous : Option String)
    (entries : List TermIndexEntry) : Prop where
  nonempty : ∀ entry ∈ entries, entry.term ≠ ""
  order : (previous.toList ++ entries.map TermIndexEntry.term).IsChain (· < ·)
  range : ∀ entry ∈ entries,
    entry.postingsOffset.toNat + entry.postingsLen.toNat ≤ postingsLen.toNat

/-- **The decoder's loop reads the entries that are ahead.** -/
theorem readEntries_complete {postingsLen : UInt64} {data : List UInt8} (hfit : Fits data)
    {entries : List TermIndexEntry} {previous : Option String} {c : ℕ}
    (hentries : Listed postingsLen previous entries)
    (hat : At data c (entries.flatMap encodeEntry)) :
    readEntries postingsLen entries.length previous data c =
      .ok (entries, c + (entries.flatMap encodeEntry).length) := by
  induction entries generalizing previous c with
  | nil => rfl
  | cons entry entries ih =>
      obtain ⟨hempty, horder, hrange⟩ := hentries
      rw [List.flatMap_cons, at_append] at hat
      rw [List.map_cons] at horder
      have hless : ∀ p ∈ previous, p < entry.term := by
        rintro p rfl
        exact (List.isChain_cons_cons.1 horder).1
      have hrest : (entry.term :: entries.map TermIndexEntry.term).IsChain (· < ·) :=
        (List.isChain_append.1 horder).2.1
      have hread := (@readEntry_ok postingsLen _ _ _ _ _ hfit).2
        ⟨hat.1, hempty entry List.mem_cons_self, hless, hrange entry List.mem_cons_self, rfl⟩
      have htail := @ih (some entry.term) _
        ⟨fun e he => hempty e (List.mem_cons_of_mem _ he), hrest,
          fun e he => hrange e (List.mem_cons_of_mem _ he)⟩ hat.2
      rw [List.length_cons, readEntries, Reader.bind_of_ok hread, Reader.bind_of_ok htail,
        List.flatMap_cons, List.length_append, Nat.add_assoc]
      rfl

/-- The ranges of an index lie one behind the other, from an offset to the end of the posting
lists. -/
def Contiguous (stop : ℕ) : ℕ → List TermIndexEntry → Prop
  | offset, [] => offset = stop
  | offset, entry :: entries =>
      entry.postingsOffset.toNat = offset ∧
        Contiguous stop (offset + entry.postingsLen.toNat) entries

/-- Ranges that lie one behind the other end inside. -/
theorem Contiguous.le {stop offset : ℕ} {entries : List TermIndexEntry}
    (h : Contiguous stop offset entries) : offset ≤ stop := by
  induction entries generalizing offset with
  | nil => exact Nat.le_of_eq h
  | cons entry entries ih => exact le_trans (Nat.le_add_right ..) (ih h.2)

theorem Contiguous.range {stop offset : ℕ} {entries : List TermIndexEntry}
    (h : Contiguous stop offset entries) : ∀ entry ∈ entries,
      entry.postingsOffset.toNat + entry.postingsLen.toNat ≤ stop := by
  induction entries generalizing offset with
  | nil => exact List.forall_mem_nil _
  | cons entry entries ih =>
      refine List.forall_mem_cons.2 ⟨?_, ih h.2⟩
      rw [h.1]
      exact h.2.le

/-- Ranges that lie one behind the other pass the check of the decoder. -/
theorem Contiguous.validateRangesFrom_ok {stop : ℕ} (hstop : stop < 2 ^ 64) {offset : UInt64}
    {entries : List TermIndexEntry} (h : Contiguous stop offset.toNat entries) :
    validateRangesFrom offset entries = .ok () := by
  induction entries generalizing offset with
  | nil => rfl
  | cons entry entries ih =>
      have hle := h.2.le
      have hnext := toNat_ofNat (n := offset.toNat + entry.postingsLen.toNat) (by omega)
      simp only [validateRangesFrom, bind_ok, failIf_ok, exists_const, okOr_ok,
        checkedAdd_eq_some, not_not]
      refine ⟨UInt64.toNat_inj.1 h.1, _, hnext, ih ?_⟩
      rw [hnext]
      exact h.2

section

variable [Crc32Fast]

/-! ### Decoding an encoded dictionary -/

theorem length_indexFrom (skipStep : UInt64) (offset : ℕ) (entries : List TermPostingList) :
    (indexFrom skipStep offset entries).length = entries.length := by
  induction entries generalizing offset with
  | nil => rfl
  | cons entry entries ih => rw [indexFrom, List.length_cons, ih, List.length_cons]

theorem term_indexFrom (skipStep : UInt64) (offset : ℕ) (entries : List TermPostingList) :
    (indexFrom skipStep offset entries).map TermIndexEntry.term =
      entries.map TermPostingList.term := by
  induction entries generalizing offset with
  | nil => rfl
  | cons entry entries ih => rw [indexFrom, List.map_cons, ih, List.map_cons]

theorem contiguous_indexFrom {skipStep : UInt64} {offset : ℕ} {entries : List TermPostingList}
    (h : offset + (blobOf skipStep entries).length < 2 ^ 64) :
    Contiguous (offset + (blobOf skipStep entries).length) offset
      (indexFrom skipStep offset entries) := by
  induction entries generalizing offset with
  | nil => rfl
  | cons entry entries ih =>
      rw [blobOf_cons, List.length_append, ← Nat.add_assoc] at h ⊢
      have hlen := toNat_ofNat (n := (postingBytes skipStep entry.postings).length) (by omega)
      refine ⟨toNat_ofNat (by omega), ?_⟩
      rw [hlen]
      exact ih h

/-- An entry of an index stands for a posting list of the dictionary. -/
theorem mem_indexFrom {skipStep : UInt64} {offset : ℕ} {entries : List TermPostingList}
    {e : TermIndexEntry} (h : e ∈ indexFrom skipStep offset entries) :
    ∃ before entry after, entries = before ++ entry :: after ∧ e =
      { term := entry.term
        postingsOffset := UInt64.ofNat (offset + (blobOf skipStep before).length)
        postingsLen := UInt64.ofNat (postingBytes skipStep entry.postings).length
        docCount := UInt64.ofNat entry.postings.length } := by
  induction entries generalizing offset with
  | nil => cases h
  | cons entry entries ih =>
      rw [indexFrom, List.mem_cons] at h
      rcases h with rfl | h
      · exact ⟨[], entry, entries, rfl, rfl⟩
      · obtain ⟨before, entry', after, rfl, rfl⟩ := ih h
        refine ⟨entry :: before, entry', after, rfl, ?_⟩
        rw [blobOf_cons, List.length_append, Nat.add_assoc]

/-- The limits of the decoder. -/
structure WithinLimits (entries : List TermPostingList) : Prop where
  terms : entries.length ≤ maxCollectionEntries
  docs : ∀ entry ∈ entries, entry.postings.length ≤ maxCollectionEntries
  positions : ∀ entry ∈ entries, ∀ posting ∈ entry.postings,
    posting.positions.length ≤ maxCollectionEntries

/-- **The decoder reads the index of an encoded dictionary.** -/
theorem decodeEntries_indexFrom {entries : List TermPostingList} {skipStep : UInt64}
    (horder : TermsInOrder (entries.map TermPostingList.term))
    (hterms : entries.length ≤ maxCollectionEntries)
    (hfit : Fits ((indexFrom skipStep 0 entries).flatMap encodeEntry))
    (hblob : Fits (blobOf skipStep entries)) :
    decodeEntries ((indexFrom skipStep 0 entries).flatMap encodeEntry)
        (UInt64.ofNat entries.length) (UInt64.ofNat (blobOf skipStep entries).length) =
      .ok (indexFrom skipStep 0 entries) := by
  have hcount := toNat_ofNat (n := entries.length) (by rw [maxCollectionEntries] at hterms; omega)
  have hcontig : Contiguous (blobOf skipStep entries).length 0 (indexFrom skipStep 0 entries) := by
    have := @contiguous_indexFrom _ skipStep 0 entries
      (by rw [Nat.zero_add]; exact hblob)
    rwa [Nat.zero_add] at this
  have hnonempty : ∀ e ∈ indexFrom skipStep 0 entries, e.term ≠ "" := by
    have := horder.1
    rw [← term_indexFrom skipStep 0, List.forall_mem_map] at this
    exact this
  have hlisted : Listed (UInt64.ofNat (blobOf skipStep entries).length) none
      (indexFrom skipStep 0 entries) := by
    refine ⟨hnonempty, ?_, ?_⟩
    · rw [term_indexFrom, Option.toList_none, List.nil_append, List.isChain_iff_pairwise]
      exact horder.2
    · rw [toNat_ofNat hblob]
      exact hcontig.range
  have hread := readEntries_complete hfit hlisted (at_self _)
  have hmin := length_flatMap_encodeEntry_ge hnonempty
  rw [length_indexFrom] at hread hmin
  simp only [decodeEntries, bind_ok, tryUsize_eq, hcount, Except.ok.injEq, exists_eq_left',
    failIf_ok, exists_const, hread, pure_ok, Nat.zero_add]
  refine ⟨?_, not_not.2 rfl, (), ?_, trivial⟩
  · rw [not_or, not_lt, not_lt, Nat.le_div_iff_mul_le (by rw [minTermEntryLen]; omega)]
    exact ⟨hterms, hmin⟩
  · exact Contiguous.validateRangesFrom_ok hblob hcontig

omit [Crc32Fast] in
/-- The body of a dictionary is cut back into its two sections. -/
theorem readBody_encodeDictionaryBody {termCount : ℕ} {dictionary blob : List UInt8}
    {entries : List TermIndexEntry} (hfit : Fits (encodeDictionaryBody termCount dictionary blob))
    (hentries : decodeEntries dictionary (UInt64.ofNat termCount) (UInt64.ofNat blob.length) =
      .ok entries) :
    ∃ c, ParsedDictionary.readBody (encodeDictionaryBody termCount dictionary blob) 0 =
      .ok (⟨⟨UInt64.ofNat termCount, UInt64.ofNat blob.length, entries⟩, blob⟩, c) := by
  have hlen := hfit
  simp only [Fits, wordSize, encodeDictionaryBody, List.length_append] at hlen
  have hdictionary := toNat_ofNat (n := dictionary.length) (by omega)
  have hblob := toNat_ofNat (n := blob.length) (by omega)
  generalize hdata : encodeDictionaryBody termCount dictionary blob = data at hfit
  have hat := at_self data
  have hsize := congrArg List.length hdata
  nth_rewrite 2 [← hdata] at hat
  simp only [encodeDictionaryBody, at_append, Varint.encodeU64_cons, Varint.encodeU64_nil,
    List.length_append, List.append_nil, ← Nat.add_assoc, Nat.zero_add] at hat hsize
  obtain ⟨⟨⟨h₁, h₂, h₃⟩, hdict⟩, hpost⟩ := hat
  simp only [ParsedDictionary.readBody, Reader.bind_ok, Varint.readU64_ok, takeSection_ok hfit,
    Reader.remaining_ok, Reader.lift_ok, failIf_ok, Reader.pure_ok]
  refine ⟨_, _, _, ⟨h₁, rfl⟩, _, _, ⟨by rwa [Nat.zero_add], rfl⟩, _, _,
    ⟨by rwa [Nat.zero_add], rfl⟩, _, _, ⟨by rwa [Nat.zero_add], hdictionary.symm, rfl⟩, _, _,
    ⟨by rwa [Nat.zero_add, hdictionary], hblob.symm, rfl⟩, _, _, ⟨rfl, rfl⟩, (), _, ⟨?_, rfl⟩, _, _,
    ⟨hentries, rfl⟩, rfl, rfl⟩
  rw [hdictionary, hblob]
  omega

/-- **An encoded dictionary is cut into its index and its posting lists.** -/
theorem parse_encodedDictionary {entries : List TermPostingList} {skipStep : UInt64}
    {block : List UInt8} (h : encodeDictionary entries skipStep = .ok block) (hfit : Fits block)
    (hterms : entries.length ≤ maxCollectionEntries) :
    ParsedDictionary.parse block = .ok
      { index :=
          { termCount := UInt64.ofNat entries.length
            postingsBytes := UInt64.ofNat (blobOf skipStep entries).length
            entries := indexFrom skipStep 0 entries }
        postingsBlob := blobOf skipStep entries } := by
  obtain ⟨horder, -, rfl⟩ := encodeDictionary_ok.1 h
  rw [Fits, Envelope.wrap, List.length_append] at hfit
  have hbody := lt_of_le_of_lt (Nat.le_add_left ..) hfit
  have hlen := hbody
  rw [encodeDictionaryBody, List.length_append, List.length_append] at hlen
  obtain ⟨c, hread⟩ := readBody_encodeDictionaryBody hbody
    (decodeEntries_indexFrom horder hterms (by rw [Fits]; omega) (by rw [Fits]; omega))
  simp only [ParsedDictionary.parse, bind_ok, Envelope.unwrap_ok, pure_ok]
  exact ⟨_, rfl, _, hread, rfl⟩

theorem fits_blobOf {entries : List TermPostingList} {skipStep : UInt64} {block : List UInt8}
    (h : encodeDictionary entries skipStep = .ok block) (hfit : Fits block) :
    (blobOf skipStep entries).length < 2 ^ 64 := by
  obtain ⟨-, -, rfl⟩ := encodeDictionary_ok.1 h
  rw [Fits, Envelope.wrap, encodeDictionaryBody, ← List.append_assoc, List.length_append] at hfit
  exact lt_of_le_of_lt (Nat.le_add_left ..) hfit

/-! ### Looking a term up -/

omit [Crc32Fast] in
/-- **A search finds the entry with the term**, where the terms of the index increase. -/
theorem ParsedDictionary.findTerm_eq_some {parsed : ParsedDictionary}
    (horder : (parsed.index.entries.map TermIndexEntry.term).Pairwise (· < ·)) {term : String}
    {e : TermIndexEntry} :
    parsed.findTerm term = some e ↔ e ∈ parsed.index.entries ∧ e.term = term :=
  find_binarySearchBy (List.pairwise_map.1 horder) term e

theorem blobOf_append (skipStep : UInt64) (before after : List TermPostingList) :
    blobOf skipStep (before ++ after) = blobOf skipStep before ++ blobOf skipStep after :=
  List.flatMap_append

/-- A term of an encoded dictionary is found, with the bytes of its postings. -/
theorem payload_mem {entries : List TermPostingList} {skipStep : UInt64} {block : List UInt8}
    (h : encodeDictionary entries skipStep = .ok block) (hfit : Fits block)
    (hterms : entries.length ≤ maxCollectionEntries) {entry : TermPostingList}
    (hentry : entry ∈ entries) :
    ∃ parsed e, ParsedDictionary.parse block = .ok parsed ∧
      parsed.findTerm entry.term = some e ∧
      parsed.postingPayload e = postingBytes skipStep entry.postings ∧
      Fits (postingBytes skipStep entry.postings) := by
  obtain ⟨horder, -, -⟩ := encodeDictionary_ok.1 h
  have hparse := parse_encodedDictionary h hfit hterms
  -- the entry of the index that the search finds
  have hmem : entry.term ∈ (indexFrom skipStep 0 entries).map TermIndexEntry.term := by
    rw [term_indexFrom]
    exact List.mem_map_of_mem hentry
  obtain ⟨e, he, hterm⟩ := List.mem_map.1 hmem
  obtain ⟨before, entry', after, hsplit, rfl⟩ := mem_indexFrom he
  have hsame : entry' = entry := by
    have hnodup : (entries.map TermPostingList.term).Nodup := horder.2.imp fun h => ne_of_lt h
    exact List.inj_on_of_nodup_map hnodup (by rw [hsplit]; simp) hentry hterm
  subst hsame
  rw [Nat.zero_add] at he
  -- its range is where the posting list stands
  have hat : At (blobOf skipStep entries) (blobOf skipStep before).length
      (postingBytes skipStep entry'.postings) := by
    rw [hsplit, blobOf_append, blobOf_cons, ← List.append_assoc]
    exact at_mid ..
  have hblob := fits_blobOf h hfit
  have hle := hat.le
  refine ⟨_, _, hparse, (ParsedDictionary.findTerm_eq_some
    (by rw [term_indexFrom]; exact horder.2)).2 ⟨he, rfl⟩, ?_, by rw [Fits, wordSize]; omega⟩
  simp only [ParsedDictionary.postingPayload, toNat_ofNat (lt_of_le_of_lt (Nat.le_add_right _ _)
    (lt_of_le_of_lt hle hblob)), toNat_ofNat (lt_of_le_of_lt (Nat.le_add_left _ _)
    (lt_of_le_of_lt hle hblob)), hat.slice]

/-- No other term is found. -/
theorem findTerm_not_mem {entries : List TermPostingList} {skipStep : UInt64} {block : List UInt8}
    (h : encodeDictionary entries skipStep = .ok block) (hfit : Fits block)
    (hterms : entries.length ≤ maxCollectionEntries) {term : String}
    (hterm : ∀ entry ∈ entries, entry.term ≠ term) :
    ∃ parsed, ParsedDictionary.parse block = .ok parsed ∧ parsed.findTerm term = none := by
  have horder := (encodeDictionary_ok.1 h).1
  refine ⟨_, parse_encodedDictionary h hfit hterms, Option.eq_none_iff_forall_ne_some.2 ?_⟩
  intro e he
  obtain ⟨hmem, heq⟩ := (ParsedDictionary.findTerm_eq_some
    (by rw [term_indexFrom]; exact horder.2)).1 he
  have hmem' := List.mem_map_of_mem (f := TermIndexEntry.term) hmem
  rw [term_indexFrom, heq, List.mem_map] at hmem'
  obtain ⟨entry, hentry, hentryTerm⟩ := hmem'
  exact hterm entry hentry hentryTerm

/-- **Every term of an encoded dictionary is found with its postings.** -/
theorem lookupTerm_mem {entries : List TermPostingList} {skipStep : UInt64} {block : List UInt8}
    (h : encodeDictionary entries skipStep = .ok block) (hfit : Fits block)
    (hlimits : WithinLimits entries) {entry : TermPostingList} (hentry : entry ∈ entries) :
    lookupTerm block entry.term = .ok (some entry.postings) := by
  obtain ⟨-, hencode, -⟩ := encodeDictionary_ok.1 h
  obtain ⟨parsed, e, hparse, hfind, hpayload, hfit'⟩ := payload_mem h hfit hlimits.terms hentry
  have hdecode : decodePostings (postingBytes skipStep entry.postings) = .ok entry.postings :=
    decodePostings_encodePostings
      (encodePostings_ok.2 ⟨(hencode entry hentry).1, (hencode entry hentry).2, rfl⟩) hfit'
      (hlimits.docs entry hentry) (hlimits.positions entry hentry)
  simp only [lookupTerm, bind_ok, hparse, Except.ok.injEq, exists_eq_left', hfind, hpayload,
    hdecode, pure_ok]

/-- **No other term is found.** -/
theorem lookupTerm_not_mem {entries : List TermPostingList} {skipStep : UInt64}
    {block : List UInt8} (h : encodeDictionary entries skipStep = .ok block) (hfit : Fits block)
    (hterms : entries.length ≤ maxCollectionEntries) {term : String}
    (hterm : ∀ entry ∈ entries, entry.term ≠ term) : lookupTerm block term = .ok none := by
  obtain ⟨parsed, hparse, hfind⟩ := findTerm_not_mem h hfit hterms hterm
  simp only [lookupTerm, bind_ok, hparse, Except.ok.injEq, exists_eq_left', hfind, pure_ok]

/-! ### The index of an encoded dictionary -/

/-- What an entry of an index says of a term. -/
structure Indexes (skipStep : UInt64) (entry : TermPostingList) (e : TermIndexEntry) : Prop where
  term : e.term = entry.term
  docCount : e.docCount.toNat = entry.postings.length
  payload : ∃ data, encodePostings entry.postings skipStep = .ok data ∧
    e.postingsLen.toNat = data.length

/-- **The index lists the terms**, in order. -/
theorem indexes_indexFrom {skipStep : UInt64} {offset : ℕ} {entries : List TermPostingList}
    (hencode : ∀ entry ∈ entries, skipStep ≠ 0 ∧ Increasing entry.postings)
    (hdocs : ∀ entry ∈ entries, entry.postings.length < 2 ^ 64)
    (hblob : (blobOf skipStep entries).length < 2 ^ 64) :
    List.Forall₂ (Indexes skipStep) entries (indexFrom skipStep offset entries) := by
  induction entries generalizing offset with
  | nil => exact .nil
  | cons entry entries ih =>
      obtain ⟨hentry, hentries⟩ := List.forall_mem_cons.1 hencode
      obtain ⟨hdoc, hrest⟩ := List.forall_mem_cons.1 hdocs
      rw [blobOf_cons, List.length_append] at hblob
      refine .cons ⟨rfl, toNat_ofNat hdoc, _, encodePostings_ok.2 ⟨hentry.1, hentry.2, rfl⟩,
        toNat_ofNat (by omega)⟩ (ih hentries hrest (by omega))

/-- **A dictionary round trip.**  A dictionary has an encoding exactly when its terms and posting
lists are in order and the step is positive, unless there is no posting list that needs the step.
Up to the limits of the decoder, the block answers every look-up as the entries do, and its index
lists the terms with their document counts, and ranges that cover the posting lists. -/
theorem encodeDictionary_spec (entries : List TermPostingList) (skipStep : UInt64) :
    ((∃ block, encodeDictionary entries skipStep = .ok block) ↔
      (skipStep ≠ 0 ∨ entries = []) ∧ TermsInOrder (entries.map TermPostingList.term) ∧
        ∀ entry ∈ entries, Increasing entry.postings) ∧
    ∀ block, encodeDictionary entries skipStep = .ok block → Fits block → WithinLimits entries →
      (∀ entry ∈ entries, lookupTerm block entry.term = .ok (some entry.postings)) ∧
      (∀ term, (∀ entry ∈ entries, entry.term ≠ term) → lookupTerm block term = .ok none) ∧
      ∃ index, inspectDictionary block = .ok index ∧
        index.termCount.toNat = entries.length ∧
        List.Forall₂ (Indexes skipStep) entries index.entries ∧
        Contiguous index.postingsBytes.toNat 0 index.entries := by
  refine ⟨exists_encodeDictionary_iff, fun block h hfit hlimits => ⟨fun entry hentry => ?_,
    fun term hterm => ?_, ?_⟩⟩
  · exact lookupTerm_mem h hfit hlimits hentry
  · exact lookupTerm_not_mem h hfit hlimits.terms hterm
  · obtain ⟨-, hencode, -⟩ := encodeDictionary_ok.1 h
    have hblob := fits_blobOf h hfit
    have hword := toNat_ofNat hblob
    have hmax : maxCollectionEntries < 2 ^ 64 := by rw [maxCollectionEntries]; omega
    have hinspect := parse_encodedDictionary h hfit hlimits.terms
    simp only [inspectDictionary, bind_ok, hinspect, Except.ok.injEq, exists_eq_left', pure_ok]
    refine ⟨toNat_ofNat (lt_of_le_of_lt hlimits.terms hmax), indexes_indexFrom hencode
      (fun entry hentry => lt_of_le_of_lt (hlimits.docs entry hentry) hmax) hblob, ?_⟩
    · have := @contiguous_indexFrom _ skipStep 0 entries
        (by rw [Nat.zero_add]; exact hblob)
      rw [Nat.zero_add] at this
      rw [hword]
      exact this

end

open scoped CompactCore.Reference

/-- A term in two documents, and a term in none. -/
def twoTerms : List TermPostingList :=
  [⟨"ab", [⟨1, [0, 4]⟩, ⟨3, [2]⟩]⟩, ⟨"b", []⟩]

/-- A dictionary of two terms is looked up and inspected; without a step it has no encoding. -/
theorem encodeDictionary_spec_two_terms :
    (¬∃ block, encodeDictionary twoTerms 0 = .ok block) ∧
      ∃ block index, encodeDictionary twoTerms 2 = .ok block ∧
        lookupTerm block "ab" = .ok (some [⟨1, [0, 4]⟩, ⟨3, [2]⟩]) ∧
        lookupTerm block "b" = .ok (some []) ∧ lookupTerm block "c" = .ok none ∧
        inspectDictionary block = .ok index ∧
        index.entries.map (fun e => (e.term, e.docCount.toNat)) = [("ab", 2), ("b", 0)] ∧
        Contiguous index.postingsBytes.toNat 0 index.entries := by
  have hzero : ¬∃ block, encodeDictionary twoTerms 0 = .ok block := fun h =>
    absurd ((encodeDictionary_spec twoTerms 0).1.1 h).1 (by decide)
  obtain ⟨block, hblock, hfit⟩ := Reference.exists_ok (x := encodeDictionary twoTerms 2)
    Fits (by decide +kernel)
  have hlimits : WithinLimits twoTerms := by
    constructor <;> decide +kernel
  obtain ⟨hmem, hother, index, hinspect, -, hindexes, hranges⟩ :=
    (encodeDictionary_spec twoTerms 2).2 block hblock hfit hlimits
  refine ⟨hzero, block, index, hblock, ?_, ?_, ?_, hinspect, ?_, hranges⟩
  · exact hmem ⟨"ab", [⟨1, [0, 4]⟩, ⟨3, [2]⟩]⟩ (by decide)
  · exact hmem ⟨"b", []⟩ (by decide)
  · exact hother "c" (by decide)
  · rw [twoTerms] at hindexes
    obtain ⟨first, rest, hfirst, hrest, hentries⟩ := List.forall₂_cons_left_iff.1 hindexes
    obtain ⟨second, rest', hsecond, hnil, rfl⟩ := List.forall₂_cons_left_iff.1 hrest
    obtain rfl := List.forall₂_nil_left_iff.1 hnil
    rw [hentries, List.map_cons, List.map_singleton, hfirst.term, hfirst.docCount, hsecond.term,
      hsecond.docCount]
    rfl

/-- A dictionary without terms is written whatever the step is. -/
theorem encodeDictionary_step_zero :
    ¬∀ (entries : List TermPostingList) (skipStep : UInt64),
      (∃ block, encodeDictionary entries skipStep = .ok block) ↔
        skipStep ≠ 0 ∧ TermsInOrder (entries.map TermPostingList.term) ∧
          ∀ entry ∈ entries, Increasing entry.postings := by
  intro h
  have hzero := (h [] 0).1 ⟨_, rfl⟩
  exact hzero.1 rfl

end CompactCore.Search
