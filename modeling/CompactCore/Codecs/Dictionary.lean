/-
**Dictionaries of strings.**

A dictionary codec gives every distinct string a number, in order of first occurrence, and stores
the numbers.  Two codecs do this; they differ in when they refuse a new entry, and in error texts.

Main definitions:

* `CompactCore.Dictionary.Interner` — the encoder's state: the entries, the numbers written so far
  and the index of the entries;
* `CompactCore.Dictionary.internAll` — the encoder's loop;
* `CompactCore.Dictionary.lookupAll` — the decoder's loop;
* `CompactCore.Dictionary.payload` — the stored form of a dictionary and its numbers.

Main results:

* `CompactCore.Dictionary.lookupAll_internAll` — looking the numbers up gives the strings back;
* `CompactCore.Dictionary.payload_read` — the stored form is read back.
-/

import CompactCore.Codecs.Strings
import Mathlib.Data.List.Dedup
import Mathlib.Data.List.Perm.Subperm

set_option relaxedAutoImplicit false
set_option autoImplicit false

namespace CompactCore.Dictionary

open Wire CompactError

/-- The state of the encoder's loop. -/
structure Interner where
  dictionary : List String
  ids : List UInt64
  indexByValue : List (String × UInt64)

def Interner.empty : Interner := ⟨[], [], []⟩

/-- Write the number of `value`; a new value is entered under the number that `newId` gives. -/
def Interner.push (newId : ℕ → Result UInt64) (s : Interner) (value : String) : Result Interner :=
  match s.indexByValue.lookup value with
  | some id => .ok { s with ids := s.ids ++ [id] }
  | none => do
      let id ← newId s.dictionary.length
      return ⟨s.dictionary ++ [value], s.ids ++ [id], (value, id) :: s.indexByValue⟩

def internAll (newId : ℕ → Result UInt64) (values : List String) : Result Interner :=
  values.foldlM (Interner.push newId) Interner.empty

/-- The strings with the given numbers. -/
def lookupAll (tooLarge outOfRange : String) (dictionary : List String) (ids : List UInt64) :
    Result (List String) :=
  ids.mapM fun id => do
    let index ← tryUsize id tooLarge
    okOr (invalidInput outOfRange) dictionary[index]?

/-! ### Round trip -/

/-- `Holds s values`: the state after writing `values`. -/
structure Interner.Holds (s : Interner) (values : List String) : Prop where
  ids_eq : List.Forall₂ (fun (id : UInt64) value => s.dictionary[id.toNat]? = some value)
    s.ids values
  index_eq : ∀ value (id : UInt64), (value, id) ∈ s.indexByValue →
    s.dictionary[id.toNat]? = some value

theorem Interner.Holds.empty : Interner.empty.Holds [] :=
  ⟨List.Forall₂.nil, fun _ _ h => by cases h⟩

theorem mem_of_lookup {index : List (String × UInt64)} {value : String} {id : UInt64}
    (h : index.lookup value = some id) : (value, id) ∈ index := by
  induction index with
  | nil => cases h
  | cons entry index ih =>
      obtain ⟨key, id'⟩ := entry
      rw [List.lookup_cons] at h
      split at h
      · rename_i heq
        cases h
        rw [eq_of_beq heq]
        exact List.mem_cons_self ..
      · exact List.mem_cons_of_mem _ (ih h)

/-- **A push writes one string.** -/
theorem Interner.Holds.push {newId : ℕ → Result UInt64}
    (hnew : ∀ n id, newId n = .ok id → id.toNat = n) (values : List String) (value : String)
    (s s' : Interner) (h : s.Holds values) (hpush : s.push newId value = .ok s') :
    s'.Holds (values ++ [value]) := by
  unfold Interner.push at hpush
  split at hpush
  · rename_i id hid
    cases hpush
    have hmem := mem_of_lookup hid
    have hget := h.index_eq value id hmem
    exact ⟨List.rel_append h.ids_eq (List.Forall₂.cons hget List.Forall₂.nil), h.index_eq⟩
  · simp only [bind_ok, pure_ok] at hpush
    obtain ⟨id, hid, rfl⟩ := hpush
    have hn := hnew _ _ hid
    -- an entry keeps its number when the dictionary grows
    have hkeep : ∀ (n : ℕ) (v : String), s.dictionary[n]? = some v →
        (s.dictionary ++ [value])[n]? = some v := by
      intro n v hv
      rw [List.getElem?_append_left (List.getElem?_eq_some_iff.1 hv).1]
      exact hv
    have hget : (s.dictionary ++ [value])[id.toNat]? = some value := by
      rw [hn, List.getElem?_append_right (le_refl _), Nat.sub_self]
      rfl
    refine ⟨List.rel_append (h.ids_eq.imp fun _ _ => hkeep _ _)
      (List.Forall₂.cons hget List.Forall₂.nil), ?_⟩
    intro v i hmem
    rcases List.mem_cons.1 hmem with heq | hmem
    · cases heq
      exact hget
    · exact hkeep _ _ (h.index_eq v i hmem)

theorem internAll_holds {newId : ℕ → Result UInt64}
    (hnew : ∀ n id, newId n = .ok id → id.toNat = n) {values : List String} {s : Interner}
    (h : internAll newId values = .ok s) : s.Holds values := by
  have := foldlM_invariant (P := fun done s => s.Holds done)
    (fun done value s s' => Interner.Holds.push hnew done value s s') Interner.Holds.empty h
  simpa using this

/-- A bound that every new number respects bounds the dictionary. -/
theorem internAll_length_le {newId : ℕ → Result UInt64} {limit : ℕ}
    (hlimit : ∀ n id, newId n = .ok id → n < limit) {values : List String} {s : Interner}
    (h : internAll newId values = .ok s) : s.dictionary.length ≤ limit := by
  refine foldlM_invariant (P := fun _ (s : Interner) => s.dictionary.length ≤ limit) ?_
    (Nat.zero_le _) h
  intro done value s s' hle hpush
  unfold Interner.push at hpush
  split at hpush
  · cases hpush
    exact hle
  · simp only [bind_ok, pure_ok] at hpush
    obtain ⟨id, hid, rfl⟩ := hpush
    rw [List.length_append, List.length_singleton]
    exact hlimit _ _ hid

/-- The dictionary has strings of the input only, in the order in which they first occur. -/
theorem internAll_sublist {newId : ℕ → Result UInt64} {values : List String} {s : Interner}
    (h : internAll newId values = .ok s) : s.dictionary.Sublist values := by
  refine foldlM_invariant (P := fun done (s : Interner) => s.dictionary.Sublist done) ?_
    (List.Sublist.refl _) h
  intro done value s s' hsub hpush
  unfold Interner.push at hpush
  split at hpush
  · cases hpush
    exact hsub.trans (List.sublist_append_left ..)
  · simp only [bind_ok, pure_ok] at hpush
    obtain ⟨id, -, rfl⟩ := hpush
    exact hsub.append (List.Sublist.refl _)

/-- Strings are entered as long as there are numbers for them. -/
theorem exists_internAll {newId : ℕ → Result UInt64} {values : List String}
    (hnew : ∀ n < values.length, ∃ id, newId n = .ok id) :
    ∃ s, internAll newId values = .ok s := by
  refine (exists_foldlM (P := fun done (s : Interner) => s.dictionary.length ≤ done.length) ?_
    (Nat.zero_le _)).imp fun _ h => h.1
  intro done value rest s hvalues hle
  unfold Interner.push
  rw [List.length_append, List.length_singleton]
  split
  · exact ⟨_, rfl, Nat.le_succ_of_le hle⟩
  · have hlt : s.dictionary.length < values.length := by
      rw [hvalues, List.length_append, List.length_cons]
      omega
    obtain ⟨id, hid⟩ := hnew _ hlt
    refine ⟨⟨s.dictionary ++ [value], s.ids ++ [id], (value, id) :: s.indexByValue⟩, ?_, ?_⟩
    · simp only [bind_ok, pure_ok]
      exact ⟨id, hid, rfl⟩
    · rw [List.length_append, List.length_singleton]
      exact Nat.succ_le_succ hle

/-! ### Distinct strings -/

/-- The dictionary has the strings that were pushed, each of them once and under its own key. -/
structure Interner.Distinct (s : Interner) (values : List String) : Prop where
  nodup : s.dictionary.Nodup
  mem_iff : ∀ value, value ∈ s.dictionary ↔ value ∈ values
  lookup_iff : ∀ value, (s.indexByValue.lookup value).isSome = true ↔ value ∈ s.dictionary

theorem Interner.Distinct.empty : Interner.empty.Distinct [] :=
  ⟨List.nodup_nil, fun _ => Iff.rfl, fun _ => by simp [Interner.empty]⟩

/-- A string without a key is new. -/
theorem Interner.Distinct.append {values : List String} {value : String} {s : Interner}
    (h : s.Distinct values) (hnew : s.indexByValue.lookup value = none) (id : UInt64) :
    Interner.Distinct ⟨s.dictionary ++ [value], s.ids ++ [id], (value, id) :: s.indexByValue⟩
      (values ++ [value]) := by
  have hnot : value ∉ s.dictionary := by
    intro hmem
    rw [← h.lookup_iff, hnew] at hmem
    cases hmem
  refine ⟨?_, fun v => ?_, fun v => ?_⟩
  · refine List.nodup_append.2 ⟨h.nodup, List.nodup_singleton _, ?_⟩
    rintro a ha b hb rfl
    exact hnot (List.mem_singleton.1 hb ▸ ha)
  · rw [List.mem_append, List.mem_append, h.mem_iff]
  · rw [List.lookup_cons, List.mem_append, List.mem_singleton]
    by_cases heq : v = value
    · simp [heq]
    · rw [beq_false_of_ne heq]
      simp [h.lookup_iff, heq]

theorem Interner.Distinct.push {newId : ℕ → Result UInt64} (values : List String) (value : String)
    (s s' : Interner) (h : s.Distinct values) (hpush : s.push newId value = .ok s') :
    s'.Distinct (values ++ [value]) := by
  unfold Interner.push at hpush
  split at hpush
  · rename_i id hid
    cases hpush
    have hmem : value ∈ s.dictionary := by
      rw [← h.lookup_iff, hid]
      rfl
    refine ⟨h.nodup, fun v => ?_, h.lookup_iff⟩
    rw [List.mem_append, List.mem_singleton, ← h.mem_iff]
    constructor
    · exact Or.inl
    · rintro (hv | rfl)
      · exact hv
      · exact hmem
  · rename_i hnew
    simp only [bind_ok, pure_ok] at hpush
    obtain ⟨id, -, rfl⟩ := hpush
    exact h.append hnew id

theorem internAll_distinct {newId : ℕ → Result UInt64} {values : List String} {s : Interner}
    (h : internAll newId values = .ok s) : s.Distinct values := by
  have hinv := foldlM_invariant (P := fun done s => s.Distinct done)
    Interner.Distinct.push Interner.Distinct.empty h
  simpa using hinv

/-- The strings of a dictionary are counted among any that contain them. -/
theorem Interner.Distinct.length_le {values values' : List String} {s : Interner}
    (h : s.Distinct values) (hsub : values ⊆ values') :
    s.dictionary.length ≤ values'.dedup.length := by
  refine (List.Nodup.subperm h.nodup fun v hv => ?_).length_le
  exact List.mem_dedup.2 (hsub ((h.mem_iff v).1 hv))

/-- A dictionary has as many strings as there are distinct ones. -/
theorem Interner.Distinct.length_eq {values : List String} {s : Interner} (h : s.Distinct values) :
    s.dictionary.length = values.dedup.length := by
  refine le_antisymm (h.length_le (List.Subset.refl _)) ?_
  refine (List.Nodup.subperm (List.nodup_dedup values) fun v hv => ?_).length_le
  exact (h.mem_iff v).2 (List.mem_dedup.1 hv)

/-- **Strings are entered exactly when there are numbers for the distinct ones.** -/
theorem exists_internAll_iff {newId : ℕ → Result UInt64} {limit : ℕ}
    (hnew : ∀ n, (∃ id, newId n = .ok id) ↔ n < limit) {values : List String} :
    (∃ s, internAll newId values = .ok s) ↔ values.dedup.length ≤ limit := by
  constructor
  · rintro ⟨s, hs⟩
    rw [← (internAll_distinct hs).length_eq]
    exact internAll_length_le (fun n id hid => (hnew n).1 ⟨id, hid⟩) hs
  · intro hlimit
    refine (exists_foldlM (P := fun done (s : Interner) => s.Distinct done) ?_
      Interner.Distinct.empty).imp fun _ h => h.1
    intro done value rest s hvalues h
    unfold Interner.push
    split
    · rename_i id hid
      have hpush : s.push newId value = .ok ⟨s.dictionary, s.ids ++ [id], s.indexByValue⟩ := by
        rw [Interner.push, hid]
      exact ⟨_, rfl, Interner.Distinct.push done value s _ h hpush⟩
    · rename_i hnone
      -- the dictionary with the new string is one of distinct strings of the input
      have hsub : done ++ [value] ⊆ values := by simp [hvalues]
      have hle := (h.append hnone 0).length_le hsub
      rw [List.length_append, List.length_singleton] at hle
      obtain ⟨id, hid⟩ := (hnew s.dictionary.length).2 (by omega)
      refine ⟨_, ?_, h.append hnone id⟩
      simp only [bind_ok, pure_ok]
      exact ⟨id, hid, rfl⟩

theorem lookupAll_ok {tooLarge outOfRange : String} {dictionary values : List String}
    {ids : List UInt64} : lookupAll tooLarge outOfRange dictionary ids = .ok values ↔
      List.Forall₂ (fun (id : UInt64) value => dictionary[id.toNat]? = some value) ids values := by
  rw [lookupAll, mapM_ok]
  simp

/-- **Looking the numbers up gives the strings back.** -/
theorem lookupAll_internAll {newId : ℕ → Result UInt64}
    (hnew : ∀ n id, newId n = .ok id → id.toNat = n) {values : List String} {s : Interner}
    (h : internAll newId values = .ok s) (tooLarge outOfRange : String) :
    lookupAll tooLarge outOfRange s.dictionary s.ids = .ok values :=
  lookupAll_ok.2 (internAll_holds hnew h).ids_eq

/-! ### The stored form -/

/-- A stored dictionary: its length, its strings and the numbers. -/
def payload (dictionary : List String) (ids : List UInt64) : List UInt8 :=
  Varint.encodeU64 [UInt64.ofNat dictionary.length] ++ dictionary.flatMap Strings.lenPrefixed ++
    Varint.encodeU64 ids

/-- **A stored dictionary is read back** in three steps: the length, the strings and, from there to
the end, the numbers. -/
theorem payload_read (texts : Strings.Texts) {dictionary : List String} {ids : List UInt64}
    (hfit : Fits (payload dictionary ids)) :
    (UInt64.ofNat dictionary.length).toNat = dictionary.length ∧
      ∃ k k', Varint.readU64 (payload dictionary ids) 0 = .ok (UInt64.ofNat dictionary.length, k) ∧
        Strings.readCount texts dictionary.length (payload dictionary ids) k =
          .ok (dictionary, k') ∧
        (payload dictionary ids).drop k' = Varint.encodeU64 ids := by
  have hlen : dictionary.length < wordSize := by
    have hge := Strings.length_flatMap_lenPrefixed_ge dictionary
    have hlt : (payload dictionary ids).length < wordSize := hfit
    simp only [payload, List.length_append] at hlt
    omega
  have hn : (UInt64.ofNat dictionary.length).toNat = dictionary.length := by
    exact toNat_ofNat hlen
  have hat : At (payload dictionary ids) 0 (Varint.encodeU64 [UInt64.ofNat dictionary.length] ++
      dictionary.flatMap Strings.lenPrefixed ++ Varint.encodeU64 ids) := at_self _
  rw [at_append, at_append, Varint.encodeU64_singleton, Nat.zero_add] at hat
  obtain ⟨⟨hhead, hentries⟩, -⟩ := hat
  have hle := hentries.le
  have hread := (@Strings.readCount_ok texts _ _ _ _ _ hfit (by omega)).2 ⟨rfl, hentries, rfl⟩
  refine ⟨hn, _, _, Varint.readU64_ok.2 ⟨hhead, (Nat.zero_add _).symm⟩, hread, ?_⟩
  rw [payload, Varint.encodeU64_singleton, ← List.length_append, List.drop_left]

end CompactCore.Dictionary
