/-
**Seeking in posting lists.**

To find one document a reader need not decode a posting list from its start.  It takes the last skip
entry that is not behind the document, stands where the entry says, and reads on until it reaches
the document or passes it.

Main definitions:

* `CompactCore.Search.ParsedPostingList.skipBeforeOrAt` — the entry to start from;
* `CompactCore.Search.seekDoc` — the search.

Main results:

* `CompactCore.Search.Before.of_split` — **a skip entry is where the decoder stands** when it has
  read the postings before;
* `CompactCore.Search.seekFrom_before` — reading on finds what a linear search finds;
* `CompactCore.Search.seekDoc_linear` — **a seek finds what a linear search finds**, whatever the
  step.
-/

import CompactCore.Reference
import CompactCore.Search.Postings
import CompactCore.Wire.Search
import Mathlib.Data.List.Chain

set_option relaxedAutoImplicit false
set_option autoImplicit false

namespace CompactCore.Search

open Wire CompactError
open scoped Wire.Words

/-! ### The search -/

def ParsedPostingList.skipBeforeOrAt (parsed : ParsedPostingList) (targetDocId : UInt64) :
    Option SkipEntry :=
  (usizeSub (partitionPoint (fun entry : SkipEntry => entry.firstDocId ≤ targetDocId)
    parsed.index.skipEntries) 1).bind (parsed.index.skipEntries[·]?)

/-- The loop of `seek_doc`, over the documents from the skip entry on. -/
def ParsedPostingList.seekFrom (parsed : ParsedPostingList) (targetDocId : UInt64) :
    ℕ → Cursors → Result (Option Posting)
  | 0, _ => .ok none
  | count + 1, s => do
      let (posting, s) ← parsed.readPosting s
      if posting.docId = targetDocId then return some posting
      else if targetDocId < posting.docId then return none
      else parsed.seekFrom targetDocId count s

def ParsedPostingList.seek (parsed : ParsedPostingList) (targetDocId : UInt64) :
    Result (Option Posting) :=
  match parsed.skipBeforeOrAt targetDocId with
  | none => .ok none
  | some skip => do
      let doc ← tryUsize skip.docIdsOffset "posting skip offset is too large"
      let freq ← tryUsize skip.frequenciesOffset "posting skip offset is too large"
      let pos ← tryUsize skip.positionsOffset "posting skip offset is too large"
      parsed.seekFrom targetDocId (parsed.index.docCount.toNat - skip.ordinal.toNat)
        ⟨doc, freq, pos, skip.previousDocId⟩

/-- Find one document using the nearest skip entry instead of decoding from zero. -/
def seekDoc [Crc32Fast] (data : List UInt8) (targetDocId : UInt64) : Result (Option Posting) := do
  let parsed ← ParsedPostingList.parse data
  parsed.seek targetDocId

/-! ### Reading on -/

/-- A linear search for a document. -/
def findDoc (postings : List Posting) (targetDocId : UInt64) : Option Posting :=
  postings.find? fun posting => posting.docId = targetDocId

theorem findDoc_eq_some {postings : List Posting} (hpostings : Increasing postings)
    {posting : Posting} (hmem : posting ∈ postings) :
    findDoc postings posting.docId = some posting := by
  rw [findDoc, List.find?_eq_some_iff_append]
  obtain ⟨before, after, rfl⟩ := List.append_of_mem hmem
  refine ⟨by simp, before, after, rfl, fun other hother => ?_⟩
  have hsorted := hpostings.1
  rw [List.map_append, List.map_cons, List.pairwise_append] at hsorted
  have hlt := hsorted.2.2 _ (List.mem_map_of_mem hother) _ List.mem_cons_self
  simpa using ne_of_lt hlt

/-- In a list that increases, the posting of a document is found. -/
theorem findDoc_iff {postings : List Posting} (hpostings : Increasing postings)
    {docId : UInt64} {posting : Posting} :
    findDoc postings docId = some posting ↔ posting ∈ postings ∧ posting.docId = docId := by
  constructor
  · intro h
    exact ⟨List.mem_of_find?_eq_some h, by simpa using List.find?_some h⟩
  · rintro ⟨hmem, rfl⟩
    exact findDoc_eq_some hpostings hmem

theorem findDoc_eq_none {postings : List Posting} {targetDocId : UInt64} :
    findDoc postings targetDocId = none ↔ ∀ posting ∈ postings, posting.docId ≠ targetDocId := by
  simp [findDoc]

/-- Documents behind the target are not found. -/
theorem findDoc_of_lt {postings : List Posting} {targetDocId : UInt64}
    (h : ∀ posting ∈ postings, targetDocId < posting.docId) : findDoc postings targetDocId = none :=
  findDoc_eq_none.2 fun posting hmem heq => absurd (h posting hmem) (by rw [heq]; exact lt_irrefl _)

/-- **Reading on finds what a linear search finds** in the postings that are to come. -/
theorem seekFrom_before (targetDocId : UInt64) {parsed : ParsedPostingList} {s : Cursors}
    {postings : List Posting} (h : Before parsed s postings)
    (hok : ∀ posting ∈ postings, posting.Acceptable)
    (hsorted : (postings.map Posting.docId).Pairwise (· < ·)) :
    parsed.seekFrom targetDocId postings.length s = .ok (findDoc postings targetDocId) := by
  induction postings generalizing s with
  | nil => rfl
  | cons posting postings ih =>
      obtain ⟨hread, hrest⟩ := h.readPosting (hok posting List.mem_cons_self)
      rw [List.map_cons, List.pairwise_cons] at hsorted
      rw [List.length_cons, ParsedPostingList.seekFrom, hread]
      simp only [bind, Except.bind]
      rcases lt_trichotomy posting.docId targetDocId with hlt | heq | hgt
      · -- the target is further on
        rw [if_neg (ne_of_lt hlt), if_neg (not_lt_of_gt hlt),
          ih hrest (fun p hp => hok p (List.mem_cons_of_mem _ hp)) hsorted.2, findDoc, findDoc,
          List.find?_cons_of_neg (by simpa using ne_of_lt hlt)]
      · rw [if_pos heq, findDoc, List.find?_cons_of_pos (by simpa using heq)]
        rfl
      · -- the target would have come before
        rw [if_neg (ne_of_gt hgt), if_pos hgt]
        rw [findDoc_of_lt (List.forall_mem_cons.2 ⟨hgt, fun p hp => lt_trans hgt
          (hsorted.1 _ (List.mem_map_of_mem hp))⟩)]
        rfl

/-! ### The skip entry -/

/-- Where a skip entry lets the decoder stand. -/
def SkipEntry.cursors (skip : SkipEntry) : Cursors :=
  ⟨skip.docIdsOffset.toNat, skip.frequenciesOffset.toNat, skip.positionsOffset.toNat,
    skip.previousDocId⟩

/-- The postings of a list increase from the document before. -/
theorem isChain_lastDocId {done postings : List Posting} (h : Increasing (done ++ postings)) :
    (lastDocId done :: postings.map Posting.docId).IsChain (· ≤ ·) := by
  have hchain : ((done ++ postings).map Posting.docId).IsChain (· ≤ ·) :=
    (h.1.imp fun hlt => UInt64.le_of_lt hlt).isChain
  rcases List.eq_nil_or_concat' done with rfl | ⟨first, last, rfl⟩
  · cases postings with
    | nil => exact List.IsChain.singleton _
    | cons posting postings => exact List.isChain_cons_cons.2 ⟨UInt64.zero_le, hchain⟩
  · rw [List.map_append, List.map_append, List.append_assoc] at hchain
    have hlast : lastDocId (first ++ [last]) = last.docId := by simp [lastDocId]
    rw [hlast]
    exact (List.isChain_append.1 hchain).2.1

/-- **A skip entry is where the decoder stands** when it has read the postings before. -/
theorem Before.of_split (skipStep : UInt64) {done postings : List Posting} {posting : Posting}
    (h : Increasing (done ++ posting :: postings))
    (hdoc : (docIdBytes (done ++ posting :: postings)).length < 2 ^ 64)
    (hfreq : (frequencyBytes (done ++ posting :: postings)).length < 2 ^ 64)
    (hpos : (positionBytes (done ++ posting :: postings)).length < 2 ^ 64) :
    Before (parsedOf skipStep (done ++ posting :: postings)) (skipBefore done posting).cursors
      (posting :: postings) := by
  have hdone := hdoc
  have hdone' := hfreq
  have hdone'' := hpos
  rw [docIdBytes_append, List.length_append] at hdone
  rw [frequencyBytes_append, List.length_append] at hdone'
  rw [positionBytes_append, List.length_append] at hdone''
  have hword : (skipBefore done posting).cursors = ⟨(docIdBytes done).length,
      (frequencyBytes done).length, (positionBytes done).length, lastDocId done⟩ := by
    rw [SkipEntry.cursors, skipBefore]
    simp only [toNat_ofNat (show (docIdBytes done).length < 2 ^ 64 by omega),
      toNat_ofNat (show (frequencyBytes done).length < 2 ^ 64 by omega),
      toNat_ofNat (show (positionBytes done).length < 2 ^ 64 by omega)]
  rw [hword]
  refine ⟨?_, ?_, ?_, isChain_lastDocId h⟩
  · have hat := at_mid (docIdBytes done) (Varint.encodeU64 (deltas (lastDocId done)
      ((posting :: postings).map Posting.docId))) []
    rwa [List.append_nil, ← docIdBytes_append] at hat
  · have hat := at_mid (frequencyBytes done) (frequencyBytes (posting :: postings)) []
    rwa [List.append_nil, ← frequencyBytes_append] at hat
  · have hat := at_mid (positionBytes done) (positionBytes (posting :: postings)) []
    rwa [List.append_nil, ← positionBytes_append] at hat

/-- The entry that a search starts from: the first document is behind the target, or the entry
splits the list at a document that is not. -/
theorem Tabulates.skipBeforeOrAt {skipStep : UInt64} {postings : List Posting}
    (hstep : skipStep ≠ 0) (hpostings : Increasing postings) (targetDocId : UInt64) :
    ((parsedOf skipStep postings).skipBeforeOrAt targetDocId = none ∧
      ∀ posting ∈ postings, targetDocId < posting.docId) ∨
    ∃ done posting rest, postings = done ++ posting :: rest ∧ posting.docId ≤ targetDocId ∧
      (parsedOf skipStep postings).skipBeforeOrAt targetDocId = some (skipBefore done posting) := by
  have hpos : 0 < skipStep.toNat := Nat.pos_of_ne_zero fun h => hstep (UInt64.toNat_inj.1 h)
  obtain ⟨-, -, -, -, htable⟩ := encodeSections_eq hstep postings
  generalize hskips : (encodeSections skipStep postings).skips = skips at htable
  have hsorted := htable.pairwise hpos hpostings
  have hpoint : partitionPoint (fun entry : SkipEntry => entry.firstDocId ≤ targetDocId) skips =
      (skips.takeWhile fun entry => entry.firstDocId ≤ targetDocId).length :=
    partitionPoint_eq (hsorted.imp fun hlt hle => by
      rw [decide_eq_true_eq] at hle ⊢
      exact le_trans (le_of_lt hlt) hle)
  simp only [ParsedPostingList.skipBeforeOrAt, parsedOf, hskips, hpoint]
  rcases Nat.eq_zero_or_pos (skips.takeWhile fun entry => entry.firstDocId ≤ targetDocId).length
    with hzero | hsome
  · -- no entry is at the target or before it, so the first document is behind it
    refine Or.inl ⟨by rw [hzero]; rfl, ?_⟩
    cases postings with
    | nil => simp
    | cons first postings =>
        have hlen : 0 < skips.length := (htable.length 0).2 (by simp)
        obtain ⟨p, hp, hentry⟩ := htable.getElem hlen
        have hfirst : skips[0].firstDocId = first.docId := by
          simp only [Nat.zero_mul, List.getElem?_cons_zero, Option.some.injEq] at hp
          rw [hentry, ← hp]
          rfl
        have hgt : targetDocId < first.docId := by
          by_contra hle
          rw [not_lt, ← hfirst] at hle
          cases skips with
          | nil => cases hlen
          | cons entry entries =>
              rw [List.takeWhile_cons_of_pos (by simpa using hle)] at hzero
              cases hzero
        have hsorted' := hpostings.1
        rw [List.map_cons, List.pairwise_cons] at hsorted'
        exact List.forall_mem_cons.2 ⟨hgt, fun p hp => lt_trans hgt
          (hsorted'.1 _ (List.mem_map_of_mem hp))⟩
  · right
    -- the last entry that is not behind the target
    obtain ⟨j, hj⟩ : ∃ j, (skips.takeWhile fun entry => entry.firstDocId ≤ targetDocId).length =
        1 + j := ⟨_, (Nat.add_sub_cancel' hsome).symm⟩
    have hlt : j < (skips.takeWhile fun entry => entry.firstDocId ≤ targetDocId).length := by omega
    have hinit := List.takeWhile_prefix (fun entry : SkipEntry => decide
      (entry.firstDocId ≤ targetDocId)) (l := skips)
    have hlt' : j < skips.length := lt_of_lt_of_le hlt hinit.length_le
    have hle : skips[j].firstDocId ≤ targetDocId := by
      have hmem := List.getElem_mem hlt
      rw [hinit.getElem hlt] at hmem
      simpa using List.mem_takeWhile_imp hmem
    obtain ⟨posting, hposting, hentry⟩ := htable.getElem hlt'
    obtain ⟨hplt, hpeq⟩ := List.getElem?_eq_some_iff.1 hposting
    refine ⟨postings.take (j * skipStep.toNat), posting, postings.drop (j * skipStep.toNat + 1), ?_,
      ?_, ?_⟩
    · rw [← hpeq, List.getElem_cons_drop, List.take_append_drop]
    · rw [hentry] at hle
      exact hle
    · rw [usizeSub_eq_some.2 hj, Option.bind_some, List.getElem?_eq_getElem hlt', hentry]

/-! ### A seek is a linear search -/

section

variable [Crc32Fast]

/-- A seek in an encoded list finds what a linear search finds. -/
theorem seekDoc_encoded {postings : List Posting} {skipStep : UInt64} {data : List UInt8}
    (h : encodePostings postings skipStep = .ok data) (hfit : Fits data)
    (hpositions : ∀ posting ∈ postings, posting.positions.length ≤ maxCollectionEntries)
    (targetDocId : UInt64) : seekDoc data targetDocId = .ok (findDoc postings targetDocId) := by
  obtain ⟨hstep, hpostings, hdata⟩ := encodePostings_ok.1 h
  have hparse := parse_encoded h hfit
  obtain ⟨hdoc, hfreq, hpos, -, -⟩ := encodeSections_eq hstep postings
  -- the sections are part of the data
  have hlen := hfit
  simp only [Fits, wordSize, hdata, postingBytes, Envelope.wrap, encodeBody, hdoc, hfreq, hpos,
    List.length_append] at hlen
  have hcount := length_docIdBytes_ge postings
  rw [seekDoc, hparse]
  simp only [bind, Except.bind, ParsedPostingList.seek]
  rcases Tabulates.skipBeforeOrAt hstep hpostings targetDocId with
    ⟨hnone, hbehind⟩ | ⟨done, posting, rest, hsplit, hle, hskip⟩
  · rw [hnone, findDoc_of_lt hbehind]
  · rw [hskip]
    subst hsplit
    have hbefore := Before.of_split skipStep hpostings (by omega) (by omega) (by omega)
    have hrest : (parsedOf skipStep (done ++ posting :: rest)).index.docCount.toNat -
        (skipBefore done posting).ordinal.toNat = (posting :: rest).length := by
      rw [List.length_append] at hcount
      have hall : (UInt64.ofNat (done ++ posting :: rest).length).toNat =
          done.length + (posting :: rest).length := by
        rw [toNat_ofNat (by rw [List.length_append]; omega), List.length_append]
      have hdone : (UInt64.ofNat done.length).toNat = done.length := toNat_ofNat (by omega)
      simp only [parsedOf, skipBefore, hall, hdone, Nat.add_sub_cancel_left]
    have hsorted := hpostings.1
    rw [List.map_append, List.pairwise_append] at hsorted
    have hread := seekFrom_before targetDocId hbefore
      (fun p hp => ⟨hpositions p (List.mem_append_right _ hp),
        hpostings.2 p (List.mem_append_right _ hp)⟩) hsorted.2.1
    -- the documents before the entry are not the target
    have hfind : findDoc (done ++ posting :: rest) targetDocId =
        findDoc (posting :: rest) targetDocId := by
      have hdone : done.find? (fun p => decide (p.docId = targetDocId)) = none := by
        rw [List.find?_eq_none]
        intro p hp
        have hlt := hsorted.2.2 _ (List.mem_map_of_mem hp) _ List.mem_cons_self
        simpa using ne_of_lt (lt_of_lt_of_le hlt hle)
      rw [findDoc, List.find?_append, hdone, Option.none_or, findDoc]
    rw [hfind]
    simp only [tryUsize_eq, hrest]
    exact hread

/-- **A seek is a linear search.**  Every posting list that increases has an encoding for every
step, in which a seek finds the documents of the list with their positions, and no other document,
whatever the step. -/
theorem seekDoc_linear (postings : List Posting) (skipStep : UInt64)
    (hpostings : Increasing postings) (hstep : skipStep ≠ 0)
    (hpositions : ∀ posting ∈ postings, posting.positions.length ≤ maxCollectionEntries) :
    ∃ data, encodePostings postings skipStep = .ok data ∧ (Fits data →
      (∀ posting ∈ postings, seekDoc data posting.docId = .ok (some posting)) ∧
      (∀ targetDocId, (∀ posting ∈ postings, posting.docId ≠ targetDocId) →
        seekDoc data targetDocId = .ok none) ∧
      ∀ skipStep' data' targetDocId, encodePostings postings skipStep' = .ok data' → Fits data' →
        seekDoc data' targetDocId = seekDoc data targetDocId) := by
  have hencode := encodePostings_ok.2 ⟨hstep, hpostings, rfl⟩
  refine ⟨_, hencode, fun hfit => ⟨fun posting hmem => ?_, fun targetDocId hnone => ?_,
    fun skipStep' data' targetDocId hencode' hfit' => ?_⟩⟩
  · rw [seekDoc_encoded hencode hfit hpositions, findDoc_eq_some hpostings hmem]
  · rw [seekDoc_encoded hencode hfit hpositions, findDoc_eq_none.2 hnone]
  · rw [seekDoc_encoded hencode hfit hpositions, seekDoc_encoded hencode' hfit' hpositions]

end

open scoped CompactCore.Reference

/-- Three documents, of which the first has the number zero. -/
def threePostings : List Posting := [⟨0, [5]⟩, ⟨7, []⟩, ⟨9, [1, 2]⟩]

theorem seekDoc_linear_three : ∃ data, encodePostings threePostings 2 = .ok data ∧
    seekDoc data 9 = .ok (some ⟨9, [1, 2]⟩) ∧ seekDoc data 8 = .ok none := by
  obtain ⟨data, hencode, hseek⟩ := seekDoc_linear threePostings 2 (by decide)
    (by decide) (by decide)
  obtain ⟨data', hencode', hfit⟩ : ∃ data, encodePostings threePostings 2 = .ok data ∧ Fits data :=
    Reference.exists_ok _ (by decide +kernel)
  rw [hencode, Except.ok.injEq] at hencode'
  subst hencode'
  obtain ⟨hmem, hother, -⟩ := hseek hfit
  exact ⟨data, hencode, hmem ⟨9, [1, 2]⟩ (by decide), hother 8 (by decide)⟩

end CompactCore.Search
