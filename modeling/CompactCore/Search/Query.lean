/-
**Queries.**

The query helpers answer from a dictionary block: which documents contain a term, or all of some
terms, where two terms are next to each other, and which documents have the most occurrences.

Main definitions:

* `CompactCore.Search.termDocIds`, `CompactCore.Search.andDocIds`,
  `CompactCore.Search.hasAdjacentPhrase`, `CompactCore.Search.topKByTermFrequency`,
  `CompactCore.Search.termContainsDoc` — the helpers;
* `CompactCore.Search.postingsOf`, `CompactCore.Search.scoreOf` — what they ask for, without an
  order;
* `CompactCore.Search.Tallies` — some hits add up the occurrences of every document.

Main results:

* `CompactCore.Search.andDocIds_encoded` — the documents of all terms;
* `CompactCore.Search.Tallies.foldl_countPosting` — the scoring loop adds up;
* `CompactCore.Search.queries_encoded` — **every helper answers as the entries do**.
-/

import CompactCore.Search.Dictionary
import CompactCore.Search.Seek
import Mathlib.Algebra.Order.BigOperators.Group.List

set_option relaxedAutoImplicit false
set_option autoImplicit false

namespace CompactCore.Search

open Wire CompactError
open scoped Wire.Words

/-! ### The helpers -/

section

variable [Crc32Fast]

/-- Find one document inside the posting list of one term. -/
def seekTermDoc (data : List UInt8) (term : String) (docId : UInt64) : Result (Option Posting) := do
  let parsed ← ParsedDictionary.parse data
  match parsed.findTerm term with
  | none => return none
  | some entry => seekDoc (parsed.postingPayload entry) docId

/-- `lookup_term(dictionary, term)?.unwrap_or_default()`. -/
def termPostings (dictionary : List UInt8) (term : String) : Result (List Posting) := do
  let postings ← lookupTerm dictionary term
  return postings.getD []

/-- Return the documents of one term. -/
def termDocIds (dictionary : List UInt8) (term : String) : Result (List UInt64) := do
  let postings ← termPostings dictionary term
  return postings.map Posting.docId

/-- The loop that collects the posting lists, until one is empty. -/
def collectLists (dictionary : List UInt8) : List String → Result (Option (List (List Posting)))
  | [] => .ok (some [])
  | term :: terms => do
      let postings ← termPostings dictionary term
      if postings = [] then return none
      else do
        let lists ← collectLists dictionary terms
        return lists.map (postings :: ·)

/-- `list.binary_search_by_key(&doc_id, |p| p.doc_id).is_ok()`. -/
def containsDoc (list : List Posting) (docId : UInt64) : Bool :=
  (binarySearchBy (fun posting => compare posting.docId docId) list).toOption.isSome

/-- The candidates of the shortest list that all other lists contain. -/
def intersect : List (List Posting) → List UInt64
  | [] => []
  | first :: rest =>
      (first.map Posting.docId).filter fun docId => rest.all fun list => containsDoc list docId

/-- Return the documents that appear in every requested term. -/
def andDocIds (dictionary : List UInt8) (terms : List String) : Result (List UInt64) :=
  if terms = [] then .ok []
  else do
    let lists ← collectLists dictionary terms
    match lists with
    | none => return []
    | some lists => return intersect (lists.mergeSort fun left right => left.length ≤ right.length)

def hasPositionGap (first second : Posting) (gap : UInt64) : Bool :=
  first.positions.any fun position => (checkedAdd position gap).any fun next =>
    (binarySearchBy (fun position => compare position next) second.positions).toOption.isSome

/-- Check whether two terms occur as an adjacent phrase in one document. -/
def hasAdjacentPhrase (dictionary : List UInt8) (firstTerm secondTerm : String) (docId : UInt64) :
    Result Bool := do
  let postings ← termPostings dictionary firstTerm
  match findDoc postings docId with
  | none => return false
  | some first => do
      let postings ← termPostings dictionary secondTerm
      match findDoc postings docId with
      | none => return false
      | some second => return hasPositionGap first second 1

/-- One scored document for simple term-frequency ranking. -/
structure TopKHit where
  docId : UInt64
  score : UInt64
  deriving DecidableEq, Repr

/-- Add to the score of a document, or start one. -/
def addScore (docId score : UInt64) : List TopKHit → List TopKHit
  | [] => [⟨docId, score⟩]
  | hit :: hits =>
      if hit.docId = docId then { hit with score := hit.score + score } :: hits
      else hit :: addScore docId score hits

def countPosting (scores : List TopKHit) (posting : Posting) : List TopKHit :=
  let score := UInt64.ofNat posting.positions.length
  if score = 0 then scores else addScore posting.docId score scores

def TopKHit.cmp (left right : TopKHit) : Ordering :=
  (compare right.score left.score).then (compare left.docId right.docId)

/-- Rank documents by summed term frequency across the requested terms. -/
def topKByTermFrequency (dictionary : List UInt8) (terms : List String) (k : ℕ) :
    Result (List TopKHit) :=
  if k = 0 ∨ terms = [] then .ok []
  else do
    let scores ← terms.foldlM (fun scores term => do
      let postings ← termPostings dictionary term
      return postings.foldl countPosting scores) []
    return (scores.mergeSort fun left right => (left.cmp right).isLE).take k

/-- Use a dictionary entry and the skip table of its postings to check one document quickly. -/
def termContainsDoc (dictionary : List UInt8) (term : String) (docId : UInt64) : Result Bool := do
  let posting ← seekTermDoc dictionary term docId
  return posting.isSome

end

/-! ### What the helpers ask for -/

/-- The postings that some entries have for a term. -/
def postingsOf (entries : List TermPostingList) (term : String) : List Posting :=
  (entries.filter fun entry => entry.term = term).flatMap TermPostingList.postings

/-- The document contains the term. -/
def Occurs (entries : List TermPostingList) (term : String) (docId : UInt64) : Prop :=
  ∃ entry ∈ entries, entry.term = term ∧ ∃ posting ∈ entry.postings, posting.docId = docId

/-- The document contains the term at a position. -/
def OccursAt (entries : List TermPostingList) (term : String) (docId position : UInt64) : Prop :=
  ∃ entry ∈ entries, entry.term = term ∧
    ∃ posting ∈ entry.postings, posting.docId = docId ∧ position ∈ posting.positions

/-- The number of positions that some postings have in a document. -/
def tally (postings : List Posting) (docId : UInt64) : ℕ :=
  ((postings.filter fun posting => posting.docId = docId).map (·.positions.length)).sum

/-- The number of positions of some terms in a document.  A term counts as often as it is named. -/
def scoreOf (entries : List TermPostingList) (terms : List String) (docId : UInt64) : ℕ :=
  (terms.map fun term => tally (postingsOf entries term) docId).sum

theorem mem_postingsOf {entries : List TermPostingList} {term : String} {posting : Posting} :
    posting ∈ postingsOf entries term ↔
      ∃ entry ∈ entries, entry.term = term ∧ posting ∈ entry.postings := by
  simp [postingsOf, and_assoc]

theorem occurs_iff {entries : List TermPostingList} {term : String} {docId : UInt64} :
    Occurs entries term docId ↔ docId ∈ (postingsOf entries term).map Posting.docId := by
  simp only [Occurs, List.mem_map, mem_postingsOf]
  constructor
  · rintro ⟨entry, hentry, hterm, posting, hposting, hdoc⟩
    exact ⟨posting, ⟨entry, hentry, hterm, hposting⟩, hdoc⟩
  · rintro ⟨posting, ⟨entry, hentry, hterm, hposting⟩, hdoc⟩
    exact ⟨entry, hentry, hterm, posting, hposting, hdoc⟩

theorem occursAt_iff {entries : List TermPostingList} {term : String} {docId position : UInt64} :
    OccursAt entries term docId position ↔
      ∃ posting ∈ postingsOf entries term,
        posting.docId = docId ∧ position ∈ posting.positions := by
  simp only [OccursAt, mem_postingsOf]
  constructor
  · rintro ⟨entry, hentry, hterm, posting, hposting, hrest⟩
    exact ⟨posting, ⟨entry, hentry, hterm, hposting⟩, hrest⟩
  · rintro ⟨posting, ⟨entry, hentry, hterm, hposting⟩, hrest⟩
    exact ⟨entry, hentry, hterm, posting, hposting, hrest⟩

/-- A term that increases is in one entry. -/
theorem postingsOf_mem {entries : List TermPostingList}
    (horder : TermsInOrder (entries.map TermPostingList.term)) {entry : TermPostingList}
    (hentry : entry ∈ entries) : postingsOf entries entry.term = entry.postings := by
  obtain ⟨before, after, rfl⟩ := List.append_of_mem hentry
  have hpair := horder.2
  rw [List.map_append, List.map_cons, List.pairwise_append, List.pairwise_cons] at hpair
  have hbefore : before.filter (fun e => decide (e.term = entry.term)) = [] := by
    rw [List.filter_eq_nil_iff]
    intro e he
    simpa using ne_of_lt (hpair.2.2 _ (List.mem_map_of_mem he) _ List.mem_cons_self)
  have hafter : after.filter (fun e => decide (e.term = entry.term)) = [] := by
    rw [List.filter_eq_nil_iff]
    intro e he
    simpa using ne_of_gt (hpair.2.1.1 _ (List.mem_map_of_mem he))
  rw [postingsOf, List.filter_append, hbefore, List.filter_cons_of_pos (by simp), hafter,
    List.nil_append, List.flatMap_singleton]

theorem postingsOf_not_mem {entries : List TermPostingList} {term : String}
    (hterm : ∀ entry ∈ entries, entry.term ≠ term) : postingsOf entries term = [] := by
  rw [postingsOf, List.filter_eq_nil_iff.2 (by simpa using hterm), List.flatMap_nil]

/-! ### Looking terms up -/

section

variable [Crc32Fast] {entries : List TermPostingList} {skipStep : UInt64} {block : List UInt8}

/-- The block of some entries, within the limits of the decoder. -/
structure Encodes (block : List UInt8) (entries : List TermPostingList) (skipStep : UInt64) :
    Prop where
  encode : encodeDictionary entries skipStep = .ok block
  fits : Fits block
  limits : WithinLimits entries

theorem Encodes.termPostings (h : Encodes block entries skipStep) (term : String) :
    termPostings block term = .ok (postingsOf entries term) := by
  by_cases hterm : ∃ entry ∈ entries, entry.term = term
  · obtain ⟨entry, hentry, rfl⟩ := hterm
    rw [Search.termPostings, lookupTerm_mem h.encode h.fits h.limits hentry,
      postingsOf_mem (encodeDictionary_ok.1 h.encode).1 hentry]
    rfl
  · have hnot : ∀ entry ∈ entries, entry.term ≠ term := fun entry hentry heq =>
      hterm ⟨entry, hentry, heq⟩
    rw [Search.termPostings, lookupTerm_not_mem h.encode h.fits h.limits.terms hnot,
      postingsOf_not_mem hnot]
    rfl

/-- The postings of a term increase, within the limit of positions. -/
theorem Encodes.acceptable (h : Encodes block entries skipStep) (term : String) :
    Increasing (postingsOf entries term) ∧
      ∀ posting ∈ postingsOf entries term, posting.positions.length ≤ maxCollectionEntries := by
  obtain ⟨horder, hall, -⟩ := encodeDictionary_ok.1 h.encode
  by_cases hterm : ∃ entry ∈ entries, entry.term = term
  · obtain ⟨entry, hentry, rfl⟩ := hterm
    rw [postingsOf_mem horder hentry]
    exact ⟨(hall entry hentry).2, h.limits.positions entry hentry⟩
  · rw [postingsOf_not_mem fun entry hentry heq => hterm ⟨entry, hentry, heq⟩]
    exact ⟨⟨List.Pairwise.nil, by simp⟩, by simp⟩

theorem termDocIds_encoded (h : Encodes block entries skipStep) (term : String) :
    termDocIds block term = .ok ((postingsOf entries term).map Posting.docId) := by
  rw [termDocIds, h.termPostings]
  rfl

/-! ### Documents of all terms -/

omit [Crc32Fast] in
theorem containsDoc_iff {list : List Posting} (hlist : Increasing list) (docId : UInt64) :
    containsDoc list docId = true ↔ docId ∈ list.map Posting.docId := by
  rw [containsDoc, isSome_binarySearchBy (List.pairwise_map.1 hlist.1), List.mem_map]

/-- The loop collects the posting lists of the terms, unless one is empty. -/
theorem collectLists_encoded (h : Encodes block entries skipStep) (terms : List String) :
    collectLists block terms = .ok (if ∀ term ∈ terms, postingsOf entries term ≠ [] then
      some (terms.map (postingsOf entries)) else none) := by
  induction terms with
  | nil => simp [collectLists]
  | cons term terms ih =>
      rw [collectLists, h.termPostings]
      simp only [bind, Except.bind, List.forall_mem_cons]
      by_cases hnil : postingsOf entries term = []
      · rw [if_pos hnil, if_neg (fun hall => hall.1 hnil)]
        rfl
      · rw [if_neg hnil, ih]
        by_cases hrest : ∀ term ∈ terms, postingsOf entries term ≠ []
        · rw [if_pos hrest, if_pos ⟨hnil, hrest⟩]
          rfl
        · rw [if_neg hrest, if_neg (fun hall => hrest hall.2)]
          rfl

omit [Crc32Fast] in
/-- The intersection does not depend on which list comes first. -/
theorem mem_intersect {lists : List (List Posting)} (hlists : ∀ list ∈ lists, Increasing list)
    (hne : lists ≠ []) (docId : UInt64) :
    docId ∈ intersect lists ↔ ∀ list ∈ lists, docId ∈ list.map Posting.docId := by
  cases lists with
  | nil => exact absurd rfl hne
  | cons first rest =>
      rw [intersect, List.mem_filter, List.all_eq_true, List.forall_mem_cons]
      refine and_congr_right fun _ => ?_
      constructor
      · intro hall list hlist
        have hincreasing := hlists list (List.mem_cons_of_mem _ hlist)
        exact (containsDoc_iff hincreasing docId).1 (hall list hlist)
      · intro hall list hlist
        have hincreasing := hlists list (List.mem_cons_of_mem _ hlist)
        exact (containsDoc_iff hincreasing docId).2 (hall list hlist)

omit [Crc32Fast] in
theorem pairwise_intersect {lists : List (List Posting)}
    (hlists : ∀ list ∈ lists, Increasing list) : (intersect lists).Pairwise (· < ·) := by
  cases lists with
  | nil => exact List.Pairwise.nil
  | cons first rest => exact (hlists first List.mem_cons_self).1.filter _

/-- **The documents of all terms**, in increasing order. -/
theorem andDocIds_encoded (h : Encodes block entries skipStep) {terms : List String}
    (hterms : terms ≠ []) : ∃ docIds, andDocIds block terms = .ok docIds ∧
      docIds.Pairwise (· < ·) ∧
        ∀ docId, docId ∈ docIds ↔ ∀ term ∈ terms, Occurs entries term docId := by
  rw [andDocIds, if_neg hterms, collectLists_encoded h]
  simp only [bind, Except.bind, occurs_iff]
  by_cases hall : ∀ term ∈ terms, postingsOf entries term ≠ []
  · rw [if_pos hall]
    -- sorting by length only reorders the lists
    have hperm := List.mergeSort_perm (terms.map (postingsOf entries))
      fun left right => decide (left.length ≤ right.length)
    have hlists : ∀ list ∈ (terms.map (postingsOf entries)).mergeSort
        (fun left right => decide (left.length ≤ right.length)), Increasing list := by
      intro list hlist
      obtain ⟨term, -, rfl⟩ := List.mem_map.1 (hperm.mem_iff.1 hlist)
      exact (h.acceptable term).1
    have hne : (terms.map (postingsOf entries)).mergeSort
        (fun left right => decide (left.length ≤ right.length)) ≠ [] := by
      intro hnil
      rw [hnil] at hperm
      exact hterms (List.map_eq_nil_iff.1 hperm.nil_eq.symm)
    refine ⟨_, rfl, pairwise_intersect hlists, fun docId => ?_⟩
    rw [mem_intersect hlists hne]
    simp only [hperm.mem_iff, List.forall_mem_map]
  · rw [if_neg hall]
    refine ⟨[], rfl, List.Pairwise.nil, fun docId => ?_⟩
    obtain ⟨term, hterm, hnil⟩ : ∃ term ∈ terms, postingsOf entries term = [] := by
      by_contra hnone
      exact hall fun term hterm hnil => hnone ⟨term, hterm, hnil⟩
    simp only [List.not_mem_nil, false_iff]
    intro hevery
    have hdoc := hevery term hterm
    rw [hnil] at hdoc
    cases hdoc

/-! ### Adjacent terms -/

omit [Crc32Fast] in
theorem hasPositionGap_iff {first second : Posting}
    (hsecond : second.positions.Pairwise (· < ·)) : hasPositionGap first second 1 = true ↔
      ∃ p ∈ first.positions, ∃ q ∈ second.positions, q.toNat = p.toNat + 1 := by
  simp only [hasPositionGap, List.any_eq_true, Option.any_eq_true, checkedAdd_eq_some,
    isSome_binarySearchBy hsecond, exists_eq_right]
  constructor
  · rintro ⟨p, hp, q, hq, hmem⟩
    exact ⟨p, hp, q, hmem, hq⟩
  · rintro ⟨p, hp, q, hmem, hq⟩
    exact ⟨p, hp, q, hq, hmem⟩

/-- **Adjacent terms**: a position of the first is followed by a position of the second. -/
theorem hasAdjacentPhrase_encoded (h : Encodes block entries skipStep)
    (firstTerm secondTerm : String) (docId : UInt64) :
    ∃ found, hasAdjacentPhrase block firstTerm secondTerm docId = .ok found ∧
      (found = true ↔ ∃ p q, OccursAt entries firstTerm docId p ∧
        OccursAt entries secondTerm docId q ∧ q.toNat = p.toNat + 1) := by
  have hfirst := (h.acceptable firstTerm).1
  have hsecond := (h.acceptable secondTerm).1
  simp only [hasAdjacentPhrase, h.termPostings, occursAt_iff, bind, Except.bind]
  cases hfind : findDoc (postingsOf entries firstTerm) docId with
  | none =>
      refine ⟨false, rfl, (by simp), ?_⟩
      rintro ⟨p, q, ⟨posting, hmem, hdoc, -⟩, -⟩
      exact absurd hdoc (findDoc_eq_none.1 hfind posting hmem)
  | some first =>
      obtain ⟨hmem, hdoc⟩ := (findDoc_iff hfirst).1 hfind
      cases hfind' : findDoc (postingsOf entries secondTerm) docId with
      | none =>
          refine ⟨false, rfl, (by simp), ?_⟩
          rintro ⟨p, q, -, ⟨posting, hmem', hdoc', -⟩, -⟩
          exact absurd hdoc' (findDoc_eq_none.1 hfind' posting hmem')
      | some second =>
          obtain ⟨hmem', hdoc'⟩ := (findDoc_iff hsecond).1 hfind'
          refine ⟨_, rfl, ?_⟩
          rw [hasPositionGap_iff (hsecond.2 second hmem')]
          constructor
          · rintro ⟨p, hp, q, hq, hnext⟩
            exact ⟨p, q, ⟨first, hmem, hdoc, hp⟩, ⟨second, hmem', hdoc', hq⟩, hnext⟩
          · rintro ⟨p, q, ⟨posting, hpost, hpdoc, hp⟩, ⟨posting', hpost', hpdoc', hq⟩, hnext⟩
            -- a document has one posting in a list
            have heq := (findDoc_iff hfirst).2 ⟨hpost, hpdoc⟩
            have heq' := (findDoc_iff hsecond).2 ⟨hpost', hpdoc'⟩
            rw [hfind, Option.some.injEq] at heq
            rw [hfind', Option.some.injEq] at heq'
            subst heq heq'
            exact ⟨p, hp, q, hq, hnext⟩

/-! ### Membership of one document -/

theorem seekTermDoc_encoded (h : Encodes block entries skipStep) (term : String) (docId : UInt64) :
    seekTermDoc block term docId = .ok (findDoc (postingsOf entries term) docId) := by
  obtain ⟨horder, hencode, -⟩ := encodeDictionary_ok.1 h.encode
  by_cases hterm : ∃ entry ∈ entries, entry.term = term
  · obtain ⟨entry, hentry, rfl⟩ := hterm
    obtain ⟨parsed, e, hparse, hfind, hpayload, hfit⟩ :=
      payload_mem h.encode h.fits h.limits.terms hentry
    have hseek := seekDoc_encoded
      (encodePostings_ok.2 ⟨(hencode entry hentry).1, (hencode entry hentry).2, rfl⟩) hfit
      (h.limits.positions entry hentry) docId
    rw [postingsOf_mem horder hentry]
    simp only [seekTermDoc, bind_ok, hparse, Except.ok.injEq, exists_eq_left', hfind, hpayload,
      hseek]
  · have hnot : ∀ entry ∈ entries, entry.term ≠ term := fun entry hentry heq =>
      hterm ⟨entry, hentry, heq⟩
    obtain ⟨parsed, hparse, hfind⟩ := findTerm_not_mem h.encode h.fits h.limits.terms hnot
    rw [postingsOf_not_mem hnot]
    simp only [seekTermDoc, bind_ok, hparse, Except.ok.injEq, exists_eq_left', hfind, pure_ok]
    rfl

/-- **The skip path and the full decode agree** on the documents of a term. -/
theorem termContainsDoc_encoded (h : Encodes block entries skipStep) (term : String)
    (docId : UInt64) : ∃ docIds, termDocIds block term = .ok docIds ∧
      termContainsDoc block term docId = .ok (decide (docId ∈ docIds)) ∧
      (docId ∈ docIds ↔ Occurs entries term docId) := by
  refine ⟨_, termDocIds_encoded h term, ?_, occurs_iff.symm⟩
  rw [termContainsDoc, seekTermDoc_encoded h]
  simp only [bind, Except.bind]
  have hiff : (findDoc (postingsOf entries term) docId).isSome = true ↔
      docId ∈ (postingsOf entries term).map Posting.docId := by
    simp [findDoc]
  exact congrArg Except.ok (Bool.eq_iff_iff.2 (by rw [hiff, decide_eq_true_eq]))

end

/-! ### Adding up scores -/

@[simp] theorem tally_nil (docId : UInt64) : tally [] docId = 0 := rfl

theorem tally_cons (posting : Posting) (postings : List Posting) (docId : UInt64) :
    tally (posting :: postings) docId =
      (if posting.docId = docId then posting.positions.length else 0) + tally postings docId := by
  rw [tally, List.filter_cons]
  by_cases hdoc : posting.docId = docId
  · simp [hdoc, tally]
  · simp [hdoc, tally]

theorem tally_append (postings postings' : List Posting) (docId : UInt64) :
    tally (postings ++ postings') docId = tally postings docId + tally postings' docId := by
  simp [tally]

theorem tally_flatMap (entries : List TermPostingList) (terms : List String) (docId : UInt64) :
    tally (terms.flatMap (postingsOf entries)) docId = scoreOf entries terms docId := by
  induction terms with
  | nil => rfl
  | cons term terms ih =>
      rw [List.flatMap_cons, tally_append, ih, scoreOf, scoreOf, List.map_cons, List.sum_cons]

/-- In a list that increases, a document has the positions of one posting. -/
theorem tally_le {postings : List Posting} (hpostings : Increasing postings) {limit : ℕ}
    (hlimit : ∀ posting ∈ postings, posting.positions.length ≤ limit) (docId : UInt64) :
    tally postings docId ≤ limit := by
  by_cases hdoc : ∃ posting ∈ postings, posting.docId = docId
  · obtain ⟨posting, hmem, rfl⟩ := hdoc
    have hle := hlimit posting hmem
    obtain ⟨before, after, rfl⟩ := List.append_of_mem hmem
    have hpair := hpostings.1
    rw [List.map_append, List.map_cons, List.pairwise_append, List.pairwise_cons] at hpair
    have hbefore : before.filter (fun p => decide (p.docId = posting.docId)) = [] := by
      rw [List.filter_eq_nil_iff]
      intro p hp
      simpa using ne_of_lt (hpair.2.2 _ (List.mem_map_of_mem hp) _ List.mem_cons_self)
    have hafter : after.filter (fun p => decide (p.docId = posting.docId)) = [] := by
      rw [List.filter_eq_nil_iff]
      intro p hp
      simpa using ne_of_gt (hpair.2.1.1 _ (List.mem_map_of_mem hp))
    rw [tally, List.filter_append, hbefore, List.filter_cons_of_pos (by simp), hafter]
    simpa using hle
  · have hnone : postings.filter (fun p => decide (p.docId = docId)) = [] := by
      rw [List.filter_eq_nil_iff]
      intro p hp
      simpa using fun heq => hdoc ⟨p, hp, heq⟩
    rw [tally, hnone]
    exact Nat.zero_le _

/-- The score of a document in some hits. -/
def scoreIn (hits : List TopKHit) (docId : UInt64) : Option UInt64 :=
  (hits.find? fun hit => hit.docId = docId).map TopKHit.score

theorem scoreIn_addScore (docId score : UInt64) (hits : List TopKHit) (other : UInt64) :
    scoreIn (addScore docId score hits) other =
      if other = docId then some ((scoreIn hits docId).getD 0 + score) else scoreIn hits other := by
  induction hits with
  | nil =>
      by_cases hother : other = docId
      · simp [scoreIn, addScore, hother]
      · simp [scoreIn, addScore, hother, Ne.symm hother]
  | cons hit hits ih =>
      by_cases hhit : hit.docId = docId
      · by_cases hother : other = docId
        · simp [scoreIn, addScore, hhit, hother]
        · simp [scoreIn, addScore, hhit, hother, Ne.symm hother]
      · rw [addScore, if_neg hhit]
        by_cases hhere : hit.docId = other
        · have hother : other ≠ docId := fun heq => hhit (by rw [hhere, heq])
          simp [scoreIn, hhere, hother]
        · rw [scoreIn, List.find?_cons_of_neg (by simpa using hhere)]
          have hskip : scoreIn (hit :: hits) docId = scoreIn hits docId := by
            rw [scoreIn, List.find?_cons_of_neg (by simpa using hhit), scoreIn]
          have hskip' : scoreIn (hit :: hits) other = scoreIn hits other := by
            rw [scoreIn, List.find?_cons_of_neg (by simpa using hhere), scoreIn]
          rw [hskip, hskip']
          exact ih

theorem docId_addScore (docId score : UInt64) (hits : List TopKHit) :
    (addScore docId score hits).map TopKHit.docId =
      if docId ∈ hits.map TopKHit.docId then hits.map TopKHit.docId
      else hits.map TopKHit.docId ++ [docId] := by
  induction hits with
  | nil => rfl
  | cons hit hits ih =>
      by_cases hhit : hit.docId = docId
      · simp [addScore, hhit]
      · rw [addScore, if_neg hhit, List.map_cons, ih]
        by_cases hmem : docId ∈ hits.map TopKHit.docId
        · simp [hmem]
        · simp [hmem, Ne.symm hhit]

/-- Some hits add up `f`: there is one for every document that has a positive score. -/
structure Tallies (hits : List TopKHit) (f : UInt64 → ℕ) : Prop where
  nodup : (hits.map TopKHit.docId).Nodup
  score : ∀ docId, scoreIn hits docId = if f docId = 0 then none else some (UInt64.ofNat (f docId))

theorem Tallies.mem_iff {hits : List TopKHit} {f : UInt64 → ℕ} (h : Tallies hits f)
    (hf : ∀ docId, f docId < 2 ^ 64) (hit : TopKHit) :
    hit ∈ hits ↔ 0 < f hit.docId ∧ hit.score.toNat = f hit.docId := by
  have hscore := h.score hit.docId
  constructor
  · intro hmem
    have hfind : hits.find? (fun other => decide (other.docId = hit.docId)) = some hit := by
      cases hfind : hits.find? (fun other => decide (other.docId = hit.docId)) with
      | none =>
          have hnot := List.find?_eq_none.1 hfind hit hmem
          simp at hnot
      | some other =>
          have hdoc : other.docId = hit.docId := by simpa using List.find?_some hfind
          rw [List.inj_on_of_nodup_map h.nodup (List.mem_of_find?_eq_some hfind) hmem hdoc]
    rw [scoreIn, hfind, Option.map_some] at hscore
    split at hscore
    · cases hscore
    · rename_i hne
      rw [Option.some.injEq] at hscore
      rw [hscore, toNat_ofNat (hf _)]
      exact ⟨Nat.pos_of_ne_zero hne, rfl⟩
  · rintro ⟨hpos, heq⟩
    rw [if_neg (Nat.ne_of_gt hpos), scoreIn, Option.map_eq_some_iff] at hscore
    obtain ⟨other, hfind, hsame⟩ := hscore
    have hdoc : other.docId = hit.docId := by simpa using List.find?_some hfind
    have hother : other = hit := by
      obtain ⟨otherDoc, otherScore⟩ := other
      obtain ⟨hitDoc, hitScore⟩ := hit
      simp only at hdoc hsame heq
      rw [hdoc, hsame, ← heq, UInt64.ofNat_toNat]
    rw [← hother]
    exact List.mem_of_find?_eq_some hfind

/-- One more posting adds its positions to the score of its document. -/
theorem Tallies.countPosting {hits : List TopKHit} {f : UInt64 → ℕ} (h : Tallies hits f)
    (posting : Posting) (hword : f posting.docId + posting.positions.length < 2 ^ 64) :
    Tallies (countPosting hits posting) fun docId =>
      f docId + if posting.docId = docId then posting.positions.length else 0 := by
  have hcount : (UInt64.ofNat posting.positions.length).toNat = posting.positions.length :=
    toNat_ofNat (by omega)
  rw [Search.countPosting]
  by_cases hzero : UInt64.ofNat posting.positions.length = 0
  · -- a posting without positions counts nothing
    have hnil : posting.positions.length = 0 := by
      rw [← hcount, hzero]
      rfl
    simp only [hnil, ite_self, Nat.add_zero]
    exact h
  · have hne : posting.positions.length ≠ 0 := fun hnil => hzero (by rw [hnil]; rfl)
    simp only [if_neg hzero]
    refine ⟨?_, fun docId => ?_⟩
    · rw [docId_addScore]
      split
      · exact h.nodup
      · rename_i hnew
        exact List.nodup_append.2 ⟨h.nodup, List.nodup_singleton _, by
          rintro a ha b hb rfl
          exact hnew (List.mem_singleton.1 hb ▸ ha)⟩
    · rw [scoreIn_addScore]
      by_cases hdoc : docId = posting.docId
      · subst hdoc
        rw [if_pos rfl, if_pos rfl, if_neg (by omega), h.score]
        congr 1
        rw [← UInt64.toNat_inj, UInt64.toNat_add, hcount, toNat_ofNat hword]
        split
        · rename_i hf
          rw [hf, Option.getD_none]
          exact Nat.mod_eq_of_lt (by rw [show (0 : UInt64).toNat = 0 from rfl]; omega)
        · rw [Option.getD_some, toNat_ofNat (by omega)]
          exact Nat.mod_eq_of_lt hword
      · rw [if_neg hdoc, if_neg (Ne.symm hdoc), Nat.add_zero]
        exact h.score docId

/-- **The scoring loop adds up** the positions of the postings. -/
theorem Tallies.foldl_countPosting {hits : List TopKHit} {f : UInt64 → ℕ} (h : Tallies hits f)
    (postings : List Posting) (hword : ∀ docId, f docId + tally postings docId < 2 ^ 64) :
    Tallies (postings.foldl Search.countPosting hits) fun docId =>
      f docId + tally postings docId := by
  induction postings generalizing hits f with
  | nil => exact h
  | cons posting postings ih =>
      have hfirst := hword posting.docId
      rw [tally_cons, if_pos rfl] at hfirst
      have hstep := h.countPosting posting (by omega)
      have hrest := ih hstep fun docId => by
        have hdoc := hword docId
        rw [tally_cons] at hdoc
        omega
      simp only [Nat.add_assoc, ← tally_cons] at hrest
      exact hrest

theorem tallies_nil : Tallies [] fun _ => 0 := ⟨List.nodup_nil, fun _ => rfl⟩

/-! ### Ranking -/

/-- A hit ranks before another: by a higher score, or the same score and a lower document. -/
def TopKHit.RanksBefore (left right : TopKHit) : Prop :=
  right.score < left.score ∨ left.score = right.score ∧ left.docId < right.docId

theorem TopKHit.isLE_cmp {left right : TopKHit} : (left.cmp right).isLE = true ↔
    right.score < left.score ∨ left.score = right.score ∧ left.docId ≤ right.docId := by
  rw [TopKHit.cmp]
  rcases lt_trichotomy right.score left.score with hlt | heq | hgt
  · rw [compare_lt_iff_lt.2 hlt]
    simp [hlt]
  · rw [compare_eq_iff_eq.2 heq]
    simp [heq, Ordering.isLE_iff_ne_gt, compare_le_iff_le]
  · rw [compare_gt_iff_gt.2 hgt]
    simp [not_lt_of_gt hgt, ne_of_lt hgt]

/-- **Sorted hits are ranked**, if there is one for a document. -/
theorem pairwise_ranked {hits : List TopKHit} (hnodup : (hits.map TopKHit.docId).Nodup) :
    (hits.mergeSort fun left right => (left.cmp right).isLE).Pairwise TopKHit.RanksBefore := by
  have hperm := List.mergeSort_perm hits fun left right => (left.cmp right).isLE
  have hsorted : (hits.mergeSort fun left right => (left.cmp right).isLE).Pairwise
      fun left right => (left.cmp right).isLE = true := by
    refine List.pairwise_mergeSort ?_ ?_ hits
    · intro a b c hab hbc
      rw [TopKHit.isLE_cmp] at hab hbc ⊢
      rcases hab with hab | ⟨hab, hdoc⟩
      · rcases hbc with hbc | ⟨hbc, -⟩
        · exact Or.inl (lt_trans hbc hab)
        · exact Or.inl (hbc ▸ hab)
      · rcases hbc with hbc | ⟨hbc, hdoc'⟩
        · exact Or.inl (hab ▸ hbc)
        · exact Or.inr ⟨hab.trans hbc, le_trans hdoc hdoc'⟩
    · intro a b
      rw [Bool.or_eq_true, TopKHit.isLE_cmp, TopKHit.isLE_cmp]
      rcases lt_trichotomy a.score b.score with hlt | heq | hgt
      · exact Or.inr (Or.inl hlt)
      · rcases le_total a.docId b.docId with hle | hle
        · exact Or.inl (Or.inr ⟨heq, hle⟩)
        · exact Or.inr (Or.inr ⟨heq.symm, hle⟩)
      · exact Or.inl (Or.inl hgt)
  have hne : (hits.mergeSort fun left right => (left.cmp right).isLE).Pairwise
      fun left right => left.docId ≠ right.docId :=
    List.pairwise_map.1 ((hperm.map TopKHit.docId).nodup_iff.2 hnodup)
  refine (hsorted.and hne).imp fun {left right} h => ?_
  rcases TopKHit.isLE_cmp.1 h.1 with hlt | ⟨heq, hle⟩
  · exact Or.inl hlt
  · exact Or.inr ⟨heq, lt_of_le_of_ne hle h.2⟩

/-- A slice of `&str` has sixteen bytes for every element, and lies in an address space of 48
bits. -/
def TermsFit (terms : List String) : Prop := 16 * terms.length ≤ 2 ^ 48

section

variable [Crc32Fast] {entries : List TermPostingList} {skipStep : UInt64} {block : List UInt8}

/-- The scores of terms that fit in memory fit in a word. -/
theorem Encodes.scoreOf_lt (h : Encodes block entries skipStep) {terms : List String}
    (hterms : TermsFit terms) (docId : UInt64) : scoreOf entries terms docId < 2 ^ 64 := by
  have hle : scoreOf entries terms docId ≤ terms.length * maxCollectionEntries := by
    rw [scoreOf]
    refine (List.sum_le_card_nsmul _ maxCollectionEntries ?_).trans ?_
    · intro n hn
      obtain ⟨term, -, rfl⟩ := List.mem_map.1 hn
      obtain ⟨hincreasing, hlimit⟩ := h.acceptable term
      exact tally_le hincreasing hlimit docId
    · simp
  rw [TermsFit] at hterms
  rw [maxCollectionEntries] at hle
  omega

/-- **The ranking**: the documents with a positive score, in order, cut off behind `k`. -/
theorem topKByTermFrequency_encoded (h : Encodes block entries skipStep) {terms : List String}
    (hterms : TermsFit terms) (k : ℕ) : ∃ ranking : List TopKHit,
      topKByTermFrequency block terms k = .ok (ranking.take k) ∧
        ranking.Pairwise TopKHit.RanksBefore ∧
      ∀ hit : TopKHit, hit ∈ ranking ↔ 0 < scoreOf entries terms hit.docId ∧
        hit.score.toNat = scoreOf entries terms hit.docId := by
  have hword := h.scoreOf_lt hterms
  have htallies := tallies_nil.foldl_countPosting
    (terms.flatMap (postingsOf entries)) fun docId => by
      rw [tally_flatMap, Nat.zero_add]
      exact hword docId
  simp only [tally_flatMap, Nat.zero_add] at htallies
  have hloop : ∀ (terms : List String) (scores : List TopKHit),
      terms.foldlM (fun scores term => do
        let postings ← termPostings block term
        return postings.foldl countPosting scores) scores =
        Except.ok ((terms.flatMap (postingsOf entries)).foldl countPosting scores) := by
    intro terms
    induction terms with
    | nil =>
        intro scores
        rfl
    | cons term terms ih =>
        intro scores
        rw [List.foldlM_cons, h.termPostings, List.flatMap_cons, List.foldl_append]
        exact ih _
  refine ⟨((terms.flatMap (postingsOf entries)).foldl countPosting []).mergeSort
    fun left right => (left.cmp right).isLE, ?_, pairwise_ranked htallies.nodup, fun hit => ?_⟩
  · rw [topKByTermFrequency]
    split
    · rename_i hnone
      rcases hnone with rfl | rfl
      · rw [List.take_zero]
      · simp
    · rw [hloop]
      rfl
  · rw [List.mem_mergeSort]
    exact htallies.mem_iff hword hit

/-- **Every helper answers as the entries do**: the intersection has the documents that contain
every term, the ranking has those with a positive score, a phrase is two positions in a row, and
the membership of a document is that of the list of documents. -/
theorem queries_encoded (hencode : encodeDictionary entries skipStep = .ok block)
    (hfit : Fits block) (hlimits : WithinLimits entries) :
    (∀ terms, terms ≠ [] → ∃ docIds, andDocIds block terms = .ok docIds ∧
      docIds.Pairwise (· < ·) ∧
        ∀ docId, docId ∈ docIds ↔ ∀ term ∈ terms, Occurs entries term docId) ∧
    (∀ terms k, TermsFit terms → ∃ ranking : List TopKHit, topKByTermFrequency block terms k =
        .ok (ranking.take k) ∧ ranking.Pairwise TopKHit.RanksBefore ∧
      ∀ hit : TopKHit, hit ∈ ranking ↔ 0 < scoreOf entries terms hit.docId ∧
        hit.score.toNat = scoreOf entries terms hit.docId) ∧
    (∀ firstTerm secondTerm docId, ∃ found,
      hasAdjacentPhrase block firstTerm secondTerm docId = .ok found ∧
        (found = true ↔ ∃ p q, OccursAt entries firstTerm docId p ∧
          OccursAt entries secondTerm docId q ∧ q.toNat = p.toNat + 1)) ∧
    ∀ term docId, ∃ docIds, termDocIds block term = .ok docIds ∧
      termContainsDoc block term docId = .ok (decide (docId ∈ docIds)) ∧
        (docId ∈ docIds ↔ Occurs entries term docId) := by
  have h : Encodes block entries skipStep := ⟨hencode, hfit, hlimits⟩
  refine ⟨fun terms hterms => ?_, fun terms k hterms => ?_, fun first second docId => ?_,
    fun term docId => ?_⟩
  · exact andDocIds_encoded h hterms
  · exact topKByTermFrequency_encoded h hterms k
  · exact hasAdjacentPhrase_encoded h first second docId
  · exact termContainsDoc_encoded h term docId

end

open scoped CompactCore.Reference

/-- Two terms that share a document. -/
def sharedTerms : List TermPostingList :=
  [⟨"ab", [⟨1, [0, 4]⟩, ⟨3, [2]⟩]⟩, ⟨"b", [⟨1, [5]⟩]⟩]

theorem queries_encoded_shared : ∃ block docIds found, ∃ ranking : List TopKHit,
    encodeDictionary sharedTerms 2 = .ok block ∧
      andDocIds block ["ab", "b"] = .ok docIds ∧ 1 ∈ docIds ∧
        hasAdjacentPhrase block "ab" "b" 1 = .ok found ∧ found = true ∧
          topKByTermFrequency block ["ab", "b", "b"] 2 = .ok (ranking.take 2) ∧
            ⟨1, 4⟩ ∈ ranking := by
  obtain ⟨block, hblock, hfit⟩ : ∃ block, encodeDictionary sharedTerms 2 = .ok block ∧ Fits block :=
    Reference.exists_ok _ (by decide +kernel)
  have hlimits : WithinLimits sharedTerms := by
    constructor <;> decide +kernel
  obtain ⟨hand, htop, hphrase, -⟩ := queries_encoded hblock hfit hlimits
  obtain ⟨docIds, hdocs, -, hmem⟩ := hand ["ab", "b"] (by simp)
  obtain ⟨found, hfound, hiff⟩ := hphrase "ab" "b" 1
  obtain ⟨ranking, hranking, -, hrank⟩ := htop ["ab", "b", "b"] 2 (by rw [TermsFit]; decide)
  refine ⟨block, docIds, found, ranking, hblock, hdocs, (hmem 1).2 ?_, hfound, hiff.2 ?_,
    hranking, (hrank ⟨1, 4⟩).2 (by decide +kernel)⟩
  · intro term hterm
    rw [List.mem_cons, List.mem_singleton] at hterm
    rcases hterm with rfl | rfl
    · exact ⟨_, List.mem_cons_self, rfl, _, List.mem_cons_self, rfl⟩
    · exact ⟨_, List.mem_cons_of_mem _ List.mem_cons_self, rfl, _, List.mem_cons_self, rfl⟩
  · refine ⟨4, 5, ⟨_, List.mem_cons_self, rfl, _, List.mem_cons_self, rfl, by simp⟩,
      ⟨_, List.mem_cons_of_mem _ List.mem_cons_self, rfl, _, List.mem_cons_self, rfl, by simp⟩, rfl⟩

end CompactCore.Search
