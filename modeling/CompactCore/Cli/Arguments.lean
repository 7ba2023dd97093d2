/-
**Arguments of the command line.**

Numbers are read as the standard library reads them: an optional sign, then digits, and no overflow.
`metadata-migrate` is told the identifiers of columns as `name=number`.

Main definitions:

* `CompactCore.Cli.parseU64`, `CompactCore.Cli.parseU32` — numbers;
* `CompactCore.Cli.parseMigrationAssignments` — the identifiers of columns.

Main results:

* `CompactCore.Cli.parseU64_toString` — a number that is printed is read again;
* `CompactCore.Cli.parseMigrationAssignments_ok` — the identifiers are those of the arguments.
-/

import CompactCore.Cli.AtomicWrite
import CompactCore.Storage.Migration
import Mathlib.Data.String.Basic

set_option relaxedAutoImplicit false
set_option autoImplicit false

namespace CompactCore.Cli

open Wire Storage.Migration

/-! ### Numbers -/

def digit (c : Char) : Option ℕ := if c.isDigit then some (c.toNat - 48) else none

/-- The digits of a number below a limit, behind what has been read of it. -/
def parseDigits (limit : ℕ) : ℕ → List Char → Except Failure ℕ
  | n, [] => .ok n
  | n, c :: cs =>
      match digit c with
      | none => .error (.message "invalid digit found in string")
      | some d =>
          if n * 10 + d < limit then parseDigits limit (n * 10 + d) cs
          else .error (.message "number too large to fit in target type")

/-- `str::parse` of an unsigned integer type. -/
def parseUnsigned (limit : ℕ) (text : String) : Except Failure ℕ :=
  match text.toList with
  | [] => .error (.message "cannot parse integer from empty string")
  | ['+'] => .error (.message "invalid digit found in string")
  | '+' :: digits => parseDigits limit 0 digits
  | digits => parseDigits limit 0 digits

/-- `str::parse::<u64>`. -/
def parseU64 (text : String) : Except Failure UInt64 :=
  (parseUnsigned (2 ^ 64) text).map UInt64.ofNat

/-- `str::parse::<u32>`. -/
def parseU32 (text : String) : Except Failure UInt32 :=
  (parseUnsigned (2 ^ 32) text).map UInt32.ofNat

/-- `Context::with_context`. -/
def withContext {α : Type} (text : String) : Except Failure α → Except Failure α
  | .error e => .error (.context text e)
  | .ok a => .ok a

/-! ### Numbers come back -/

theorem digit_digitChar {d : ℕ} (hd : d < 10) : digit (Nat.digitChar d) = some d := by
  rw [digit, if_pos (by simpa using hd), Nat.toNat_digitChar_sub_48_of_lt_ten hd]

theorem parseDigits_toDigits {limit : ℕ} (n : ℕ) (hn : n < limit) (rest : List Char) :
    parseDigits limit 0 (Nat.toDigits 10 n ++ rest) = parseDigits limit n rest := by
  induction n using Nat.strong_induction_on generalizing rest with
  | _ n ih =>
      rw [Nat.toDigits_eq_if (by decide)]
      split
      next hlt =>
        rw [List.singleton_append, parseDigits, digit_digitChar hlt]
        simp only [Nat.zero_mul, Nat.zero_add, if_pos hn]
      next hge =>
        have hmod : n % 10 < 10 := Nat.mod_lt _ (by decide)
        have hdiv : n / 10 * 10 + n % 10 = n := Nat.div_add_mod' n 10
        rw [List.append_assoc, ih (n / 10) (by omega) (by omega), List.singleton_append,
          parseDigits, digit_digitChar hmod]
        simp only [hdiv, if_pos hn]

/-- A number that is printed is read again. -/
theorem parseUnsigned_repr {limit n : ℕ} (hn : n < limit) :
    parseUnsigned limit (toString n) = .ok n := by
  have hchars : (toString n).toList = Nat.toDigits 10 n := by
    rw [Nat.toString_eq_repr, Nat.toList_repr]
  have hdigits : parseDigits limit 0 (toString n).toList = .ok n := by
    rw [hchars, ← List.append_nil (Nat.toDigits 10 n), parseDigits_toDigits n hn, parseDigits]
  have hplus : '+' ∉ (toString n).toList := by
    intro hmem
    rw [hchars] at hmem
    exact absurd (Nat.isDigit_of_mem_toDigits (by decide) (by decide) hmem) (by decide)
  rw [parseUnsigned]
  split
  next hnil => exact absurd (hchars ▸ hnil) Nat.toDigits_ne_nil
  next heq => exact absurd (by rw [heq]; exact List.mem_cons_self) hplus
  next heq => exact absurd (by rw [heq]; exact List.mem_cons_self) hplus
  next => exact hdigits

theorem parseU64_toString (v : UInt64) : parseU64 (toString v) = .ok v := by
  have h := parseUnsigned_repr v.toNat_lt
  rw [parseU64]
  show (parseUnsigned (2 ^ 64) (toString v.toNat)).map UInt64.ofNat = _
  rw [h, Except.map, UInt64.ofNat_toNat]

theorem parseU32_toString (v : UInt32) : parseU32 (toString v) = .ok v := by
  have h := parseUnsigned_repr v.toNat_lt
  rw [parseU32]
  show (parseUnsigned (2 ^ 32) (toString v.toNat)).map UInt32.ofNat = _
  rw [h, Except.map, UInt32.ofNat_toNat]

theorem toString_toList (v : UInt64) : (toString v).toList = Nat.toDigits 10 v.toNat := by
  show (toString v.toNat).toList = _
  rw [Nat.toString_eq_repr, Nat.toList_repr]

theorem isDigit_of_mem_toString {v : UInt64} {c : Char} (hc : c ∈ (toString v).toList) :
    c.isDigit = true := by
  rw [toString_toList] at hc
  exact Nat.isDigit_of_mem_toDigits (by decide) (by decide) hc

theorem toString_ne_nil (v : UInt64) : (toString v).toList ≠ [] := by
  rw [toString_toList]
  exact Nat.toDigits_ne_nil

/-! ### Identifiers of columns -/

/-- `str::split_once`. -/
def splitOnce (c : Char) (text : String) : Option (String × String) :=
  if c ∈ text.toList then
    let before := text.toList.takeWhile (· ≠ c)
    some (String.ofList before, String.ofList (text.toList.drop (before.length + 1)))
  else none

/-- `BTreeMap::insert` of a key that the map does not have yet. -/
def insertKey (name : String) (id : UInt32) : List (String × UInt32) → List (String × UInt32)
  | [] => [(name, id)]
  | entry :: rest =>
      if name < entry.1 then (name, id) :: entry :: rest else entry :: insertKey name id rest

theorem perm_insertKey (name : String) (id : UInt32) (ids : List (String × UInt32)) :
    (insertKey name id ids).Perm ((name, id) :: ids) := by
  induction ids with
  | nil => exact List.Perm.refl _
  | cons first rest ih =>
      rw [insertKey]
      split
      · exact List.Perm.refl _
      · exact (ih.cons first).trans (List.Perm.swap ..)

theorem pairwise_insertKey {name : String} {id : UInt32} {ids : List (String × UInt32)}
    (hids : (ids.map Prod.fst).Pairwise (· < ·)) (hname : name ∉ ids.map Prod.fst) :
    ((insertKey name id ids).map Prod.fst).Pairwise (· < ·) := by
  induction ids with
  | nil => exact List.pairwise_singleton _ _
  | cons first rest ih =>
      rw [List.map_cons, List.pairwise_cons] at hids
      rw [List.map_cons, List.mem_cons, not_or] at hname
      rw [insertKey]
      split
      next hlt =>
        simp only [List.map_cons, List.pairwise_cons]
        refine ⟨?_, hids⟩
        intro other hother
        rcases List.mem_cons.1 hother with rfl | hother
        · exact hlt
        · exact lt_trans hlt (hids.1 other hother)
      next hge =>
        rw [List.map_cons, List.pairwise_cons]
        refine ⟨?_, ih hids.2 hname.2⟩
        intro other hother
        obtain ⟨entry, hentry, rfl⟩ := List.mem_map.1 hother
        rcases List.mem_cons.1 ((perm_insertKey ..).mem_iff.1 hentry) with rfl | hentry
        · exact lt_of_le_of_ne (not_lt.1 hge) (Ne.symm hname.1)
        · exact hids.1 entry.1 (List.mem_map_of_mem hentry)

/-- A name is inserted once. -/
def insertAssignment (assignments : MigrationAssignments) (name : String) (id : UInt32) :
    Except Failure MigrationAssignments :=
  if h : name ∈ assignments.names then
    .error (.message "--column-id contains a duplicate column name")
  else .ok ⟨insertKey name id assignments.stableIds, pairwise_insertKey assignments.sorted h⟩

def parseAssignment (value : String) : Except Failure (String × UInt32) :=
  match splitOnce '=' value with
  | none => .error (.message "--column-id must use name=positive_integer")
  | some (name, stableId) =>
      if name = "" then .error (.message "--column-id name must not be empty")
      else (withContext "--column-id must use name=positive_integer" (parseU32 stableId)).map
        (name, ·)

/-- One turn of the loop of `parse_migration_assignments`. -/
def addAssignment (assignments : MigrationAssignments) (value : String) :
    Except Failure MigrationAssignments := do
  let pair ← parseAssignment value
  insertAssignment assignments pair.1 pair.2

def parseMigrationAssignments (values : List String) : Except Failure MigrationAssignments :=
  values.foldlM addAssignment .empty

/-- A pair is inserted precisely when its name is new. -/
theorem insertAssignment_ok {assignments result : MigrationAssignments} {name : String}
    {id : UInt32} :
    insertAssignment assignments name id = .ok result ↔
      name ∉ assignments.names ∧ result.stableIds = insertKey name id assignments.stableIds := by
  rw [insertAssignment]
  split
  next h => exact ⟨nofun, fun hnew => absurd h hnew.1⟩
  next h =>
    constructor
    · intro heq
      cases heq
      exact ⟨h, rfl⟩
    · rintro ⟨-, heq⟩
      rcases result with ⟨ids, hsorted⟩
      subst heq
      rfl

/-- The turns for some arguments, from the pairs that the map has on. -/
theorem foldlM_assignments {values : List String} {pairs : List (String × UInt32)}
    (hread : List.Forall₂ (fun value pair => parseAssignment value = .ok pair) values pairs)
    (start : MigrationAssignments) :
    (∃ result, values.foldlM addAssignment start = .ok result ∧
        result.stableIds.Perm (pairs ++ start.stableIds)) ↔
      ((pairs ++ start.stableIds).map Prod.fst).Nodup := by
  induction hread generalizing start with
  | nil =>
      have hnodup : ((([] : List (String × UInt32)) ++ start.stableIds).map Prod.fst).Nodup :=
        start.sorted.imp ne_of_lt
      exact ⟨fun _ => hnodup, fun _ => ⟨start, rfl, List.Perm.refl _⟩⟩
  | @cons value pair values pairs hvalue hread ih =>
      rw [List.foldlM_cons, addAssignment, hvalue]
      by_cases hold : pair.1 ∈ start.names
      · have hfails : insertAssignment start pair.1 pair.2
            = .error (.message "--column-id contains a duplicate column name") := dif_pos hold
        constructor
        · rintro ⟨result, hresult, -⟩
          simp only [bind, Except.bind, hfails] at hresult
          cases hresult
        · intro hnodup
          rw [List.cons_append, List.map_cons, List.nodup_cons, List.map_append] at hnodup
          exact absurd (List.mem_append_right _ hold) hnodup.1
      · obtain ⟨next, hnext⟩ : ∃ next, insertAssignment start pair.1 pair.2 = .ok next :=
          ⟨_, dif_neg hold⟩
        have hperm : (pairs ++ next.stableIds).Perm (pair :: pairs ++ start.stableIds) := by
          rw [(insertAssignment_ok.1 hnext).2]
          exact ((perm_insertKey ..).append_left pairs).trans List.perm_middle
        have hih := ih next
        simp only [bind, Except.bind, hnext]
        rw [(hperm.map Prod.fst).nodup_iff] at hih
        rw [← hih]
        exact exists_congr fun result =>
          and_congr_right' ⟨fun h => h.trans hperm.symm, fun h => h.trans hperm⟩

/-- **Identifiers are read in any order**: if every argument is a pair of a name and a number, they
are accepted precisely when no name comes twice, and the map then has these pairs. -/
theorem parseMigrationAssignments_ok {values : List String} {pairs : List (String × UInt32)}
    (hpairs : values.mapM parseAssignment = .ok pairs) :
    (∃ assignments, parseMigrationAssignments values = .ok assignments ∧
        assignments.stableIds.Perm pairs) ↔ (pairs.map Prod.fst).Nodup := by
  have h := foldlM_assignments (mapM_ok.1 hpairs) .empty
  rwa [show MigrationAssignments.empty.stableIds = [] from rfl, List.append_nil] at h

end CompactCore.Cli
