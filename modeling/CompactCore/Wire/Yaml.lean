/-
**YAML documents as trees.**

A document is read into a tree, edited in place, and printed again; and typed values are read off
the same tree.  The two views must agree: an edit of one member changes what is read from its field,
and nothing else.  Accessors and edits see through tags; typed reading finds a field by the text of
its key, and fails on a field that is there twice.

Main definitions:

* `Wire.Yaml` — trees; `Wire.Yaml.untag`, `Wire.Yaml.retag` — what is under the tags of a value, and
  putting something else there;
* `Wire.Yaml.get`, `Wire.Yaml.insert` — members by their keys;
* `Wire.Yaml.editMapping`, `Wire.Yaml.editSequence` — edits in place;
* `Wire.Yaml.fields`, `Wire.Yaml.required`, `Wire.Yaml.optional` — the fields of typed values.

Main results:

* `Wire.Yaml.get_insert`, `Wire.Yaml.others_insert` — an insertion changes one member;
* `Wire.Yaml.field_of_others` — **a change of some members changes their fields only**;
* `Wire.Yaml.field_of_get` — the two views see the same value.
-/

import CompactCore.Wire.Reader
import Mathlib.Data.List.Basic

set_option relaxedAutoImplicit false
set_option autoImplicit false

namespace Wire

inductive YamlNumber
  | posInt (value : UInt64)
  | negInt (value : Int64)
  | float (bits : UInt64)
  deriving DecidableEq, Repr

/-- A document tree.  A mapping is its list of members, in the order of the document. -/
inductive Yaml
  | null
  | bool (value : Bool)
  | number (value : YamlNumber)
  | string (value : String)
  | sequence (items : List Yaml)
  | mapping (members : List (Yaml × Yaml))
  | tagged (tag : String) (value : Yaml)

namespace Yaml

/-! ### Tags -/

/-- What is under the tags of a value. -/
def untag : Yaml → Yaml
  | tagged _ value => value.untag
  | value => value

/-- Something else under the tags of a value. -/
def retag : Yaml → Yaml → Yaml
  | tagged tag value, content => tagged tag (value.retag content)
  | _, content => content

@[simp] theorem untag_retag (value content : Yaml) :
    (value.retag content).untag = content.untag := by
  induction value using untag.induct with
  | case1 tag value ih => rw [retag, untag, ih]
  | case2 value h => rw [retag.eq_2 _ _ h]

theorem retag_retag (value content content' : Yaml) :
    (value.retag content).retag content' = value.retag (content.retag content') := by
  induction value using untag.induct with
  | case1 tag value ih => rw [retag, retag, retag, ih]
  | case2 value h => rw [retag.eq_2 _ _ h, retag.eq_2 _ _ h]

/-- `as_u64`. -/
def asU64 (value : Yaml) : Option UInt64 :=
  match value.untag with
  | number (.posInt n) => some n
  | _ => none

/-- `as_bool`. -/
def asBool (value : Yaml) : Option Bool :=
  match value.untag with
  | bool b => some b
  | _ => none

/-- `as_str`. -/
def asStr (value : Yaml) : Option String :=
  match value.untag with
  | string s => some s
  | _ => none

/-- `as_sequence`. -/
def asSequence (value : Yaml) : Option (List Yaml) :=
  match value.untag with
  | sequence items => some items
  | _ => none

/-- `as_mapping`. -/
def asMapping (value : Yaml) : Option (List (Yaml × Yaml)) :=
  match value.untag with
  | mapping members => some members
  | _ => none

theorem asMapping_eq_some {value : Yaml} {members : List (Yaml × Yaml)} :
    value.asMapping = some members ↔ value.untag = mapping members := by
  unfold asMapping
  split <;> simp_all

theorem asSequence_eq_some {value : Yaml} {items : List Yaml} :
    value.asSequence = some items ↔ value.untag = sequence items := by
  unfold asSequence
  split <;> simp_all

theorem asStr_eq_some {value : Yaml} {s : String} :
    value.asStr = some s ↔ value.untag = string s := by
  unfold asStr
  split <;> simp_all

mutual

/-- No tag stands anywhere in a value. -/
def untagged : Yaml → Bool
  | sequence items => untaggedItems items
  | mapping members => untaggedMembers members
  | tagged _ _ => false
  | _ => true

def untaggedItems : List Yaml → Bool
  | [] => true
  | item :: items => item.untagged && untaggedItems items

def untaggedMembers : List (Yaml × Yaml) → Bool
  | [] => true
  | (key, value) :: members => key.untagged && value.untagged && untaggedMembers members

end

/-! ### Members -/

/-- The key is this string. -/
def isKey (key : String) : Yaml → Bool
  | string s => s == key
  | _ => false

theorem isKey_string {key s : String} : isKey key (string s) = true ↔ s = key := beq_iff_eq

theorem isKey_eq_true {key : String} {value : Yaml} :
    isKey key value = true ↔ value = string key := by
  cases value with
  | string s => rw [isKey_string, Yaml.string.injEq]
  | _ => simp [isKey]

/-- `Mapping::get`. -/
def get (members : List (Yaml × Yaml)) (key : String) : Option Yaml :=
  (members.find? fun member => isKey key member.1).map Prod.snd

/-- `Mapping::insert`: a key that is there gets a new value, at its place. -/
def insert (key : String) (value : Yaml) : List (Yaml × Yaml) → List (Yaml × Yaml)
  | [] => [(string key, value)]
  | (k, v) :: members =>
      if isKey key k then (k, value) :: members else (k, v) :: insert key value members

/-- The members with other keys. -/
def others (keys : List String) (members : List (Yaml × Yaml)) : List (Yaml × Yaml) :=
  members.filter fun member => keys.all fun key => !isKey key member.1

theorem get_cons (k v : Yaml) (members : List (Yaml × Yaml)) (key : String) :
    get ((k, v) :: members) key = if isKey key k then some v else get members key := by
  rw [get, List.find?_cons]
  cases isKey key k <;> rfl

/-- What is found after an insertion. -/
theorem get_insert (key : String) (value : Yaml) (members : List (Yaml × Yaml)) (k : String) :
    get (insert key value members) k = if key = k then some value else get members k := by
  induction members with
  | nil =>
      rw [insert, get_cons]
      exact if_congr isKey_string rfl rfl
  | cons member members ih =>
      obtain ⟨k', v⟩ := member
      rw [insert]
      split
      · rename_i hkey
        obtain rfl := isKey_eq_true.1 hkey
        rw [get_cons, get_cons]
        by_cases hk : key = k
        · rw [if_pos (isKey_string.2 hk), if_pos hk]
        · rw [if_neg (mt isKey_string.1 hk), if_neg (mt isKey_string.1 hk), if_neg hk]
      · rename_i hkey
        rw [get_cons, get_cons, ih]
        split
        · rename_i hk
          rw [if_neg]
          rintro rfl
          exact hkey hk
        · rfl

theorem others_cons (keys : List String) (k v : Yaml) (members : List (Yaml × Yaml)) :
    others keys ((k, v) :: members) =
      if (keys.all fun key => !isKey key k) = true then (k, v) :: others keys members
      else others keys members := List.filter_cons

/-- A member with one of the keys is not among the others. -/
theorem others_cons_of_mem {keys : List String} {key : String} (h : key ∈ keys) (value : Yaml)
    (members : List (Yaml × Yaml)) :
    others keys ((string key, value) :: members) = others keys members := by
  rw [others_cons, if_neg]
  intro hall
  have hkey := List.all_eq_true.1 hall key h
  rw [isKey_string.2 rfl] at hkey
  cases hkey

/-- An insertion keeps the other members, in their order. -/
theorem others_insert {keys : List String} {key : String} (h : key ∈ keys) (value : Yaml)
    (members : List (Yaml × Yaml)) :
    others keys (insert key value members) = others keys members := by
  induction members with
  | nil => exact others_cons_of_mem h value []
  | cons member members ih =>
      obtain ⟨k, v⟩ := member
      rw [insert]
      split
      · rename_i hkey
        obtain rfl := isKey_eq_true.1 hkey
        rw [others_cons_of_mem h, others_cons_of_mem h]
      · rw [others_cons, others_cons, ih]

/-- Inserting under a key that is there keeps the keys. -/
theorem keys_insert {key : String} {members : List (Yaml × Yaml)} {old : Yaml}
    (h : get members key = some old) (value : Yaml) :
    (insert key value members).map Prod.fst = members.map Prod.fst := by
  induction members with
  | nil => cases h
  | cons member members ih =>
      obtain ⟨k, v⟩ := member
      rw [get_cons] at h
      rw [insert]
      split
      · rfl
      · rename_i hkey
        rw [if_neg hkey] at h
        rw [List.map_cons, List.map_cons, ih h]

/-! ### Edits -/

section

variable {ε : Type}

/-- Edit a mapping, under its tags. -/
def editMapping (e : ε) (f : List (Yaml × Yaml) → Except ε (List (Yaml × Yaml))) (value : Yaml) :
    Except ε Yaml :=
  match value.untag with
  | mapping members => do
      let members ← f members
      return value.retag (mapping members)
  | _ => .error e

/-- Edit a sequence, under its tags. -/
def editSequence (e : ε) (f : List Yaml → Except ε (List Yaml)) (value : Yaml) : Except ε Yaml :=
  match value.untag with
  | sequence items => do
      let items ← f items
      return value.retag (sequence items)
  | _ => .error e

theorem editMapping_ok {e : ε} {f : List (Yaml × Yaml) → Except ε (List (Yaml × Yaml))}
    {value value' : Yaml} : editMapping e f value = .ok value' ↔
      ∃ members members', value.untag = mapping members ∧ f members = .ok members' ∧
        value' = value.retag (mapping members') := by
  unfold editMapping
  split
  · rename_i members h
    rw [h]
    simp only [bind_ok, pure_ok, mapping.injEq, exists_and_left, exists_eq_left']
    exact exists_congr fun _ => and_congr_right fun _ => eq_comm
  · rename_i h
    simp only [reduceCtorEq, false_iff, not_exists, not_and]
    intro members members' hmapping
    exact absurd hmapping (h members)

theorem editSequence_ok {e : ε} {f : List Yaml → Except ε (List Yaml)} {value value' : Yaml} :
    editSequence e f value = .ok value' ↔
      ∃ items items', value.untag = sequence items ∧ f items = .ok items' ∧
        value' = value.retag (sequence items') := by
  unfold editSequence
  split
  · rename_i items h
    rw [h]
    simp only [bind_ok, pure_ok, sequence.injEq, exists_and_left, exists_eq_left']
    exact exists_congr fun _ => and_congr_right fun _ => eq_comm
  · rename_i h
    simp only [reduceCtorEq, false_iff, not_exists, not_and]
    intro items items' hsequence
    exact absurd hsequence (h items)

end

/-! ### Typed reading -/

/-- Reading a list succeeds where reading every item does. -/
theorem mapM_eq_some {α β : Type} {read : α → Option β} {xs : List α} {ys : List β} :
    xs.mapM read = some ys ↔ List.Forall₂ (fun x y => read x = some y) xs ys := by
  induction xs generalizing ys with
  | nil =>
    rw [List.mapM_nil, Option.pure_def, Option.some.injEq, List.forall₂_nil_left_iff, eq_comm]
  | cons x xs ih =>
      simp only [List.mapM_cons, Option.bind_eq_bind, Option.bind_eq_some_iff, Option.pure_def,
        Option.some.injEq, ih, List.forall₂_cons_left_iff]
      constructor
      · rintro ⟨y, hy, ys', hys, rfl⟩
        exact ⟨y, ys', hy, hys, rfl⟩
      · rintro ⟨y, ys', hy, hys, rfl⟩
        exact ⟨y, hy, ys', hys, rfl⟩

/-- The text of a scalar, which is how a number is printed. -/
def text (display : YamlNumber → String) (value : Yaml) : Option String :=
  match value.untag with
  | null => some "null"
  | bool b => some (if b then "true" else "false")
  | number n => some (display n)
  | string s => some s
  | _ => none

/-- The fields of a mapping: its values, under the texts of their keys. -/
def fields (display : YamlNumber → String) (members : List (Yaml × Yaml)) :
    Option (List (String × Yaml)) :=
  members.mapM fun member => (member.1.text display).map (·, member.2)

/-- A field, if it is there.  There is no reading a field that is there twice. -/
def field (name : String) (fields : List (String × Yaml)) : Option (Option Yaml) :=
  match fields.filter (·.1 == name) with
  | [] => some none
  | [found] => some (some found.2)
  | _ => none

/-- A field that has to be there. -/
def required {α : Type} (read : Yaml → Option α) (name : String) (fields : List (String × Yaml)) :
    Option α := do
  let value ← field name fields
  read (← value)

/-- A field with a default. -/
def optional {α : Type} (read : Yaml → Option α) (default : α) (name : String)
    (fields : List (String × Yaml)) : Option α := do
  match ← field name fields with
  | some value => read value
  | none => some default

theorem text_of_asStr {display : YamlNumber → String} {value : Yaml} {s : String}
    (h : value.asStr = some s) : value.text display = some s := by
  rw [text, asStr_eq_some.1 h]

theorem fields_cons {display : YamlNumber → String} {k v : Yaml} {members : List (Yaml × Yaml)}
    {fs : List (String × Yaml)} : fields display ((k, v) :: members) = some fs ↔
      ∃ name rest, k.text display = some name ∧ fields display members = some rest ∧
        fs = (name, v) :: rest := by
  rw [fields, List.mapM_cons]
  simp only [Option.bind_eq_bind, Option.bind_eq_some_iff, Option.map_eq_some_iff, Option.pure_def,
    Option.some.injEq]
  constructor
  · rintro ⟨_, ⟨name, hname, rfl⟩, rest, hrest, rfl⟩
    exact ⟨name, rest, hname, hrest, rfl⟩
  · rintro ⟨name, rest, hname, hrest, rfl⟩
    exact ⟨_, ⟨name, hname, rfl⟩, rest, hrest, rfl⟩

/-- The fields with a name are among the members with other keys, if it is none of the keys. -/
theorem exists_fields_others {display : YamlNumber → String} {keys : List String} {name : String}
    {members : List (Yaml × Yaml)} {fs : List (String × Yaml)} (hname : name ∉ keys)
    (h : fields display members = some fs) :
    ∃ rest, fields display (others keys members) = some rest ∧
      rest.filter (·.1 == name) = fs.filter (·.1 == name) := by
  induction members generalizing fs with
  | nil => exact ⟨fs, h, rfl⟩
  | cons member members ih =>
      obtain ⟨k, v⟩ := member
      obtain ⟨n, tail, hk, htail, rfl⟩ := fields_cons.1 h
      obtain ⟨rest, hrest, hfilter⟩ := ih htail
      rw [others_cons]
      by_cases hall : (keys.all fun key => !isKey key k) = true
      · rw [if_pos hall]
        refine ⟨(n, v) :: rest, fields_cons.2 ⟨n, rest, hk, hrest, rfl⟩, ?_⟩
        rw [List.filter_cons, List.filter_cons, hfilter]
      · rw [if_neg hall]
        refine ⟨rest, hrest, ?_⟩
        -- the key of the member is one of the keys, and not the name
        simp only [List.all_eq_true, Bool.not_eq_true', not_forall, Bool.not_eq_false] at hall
        obtain ⟨key, hkey, heq⟩ := hall
        obtain rfl := isKey_eq_true.1 heq
        have hkey' : key = n := Option.some.inj hk
        have hne : ¬((n == name) = true) := by
          rw [beq_iff_eq, ← hkey']
          rintro rfl
          exact hname hkey
        rw [hfilter, List.filter_cons, if_neg hne]

/-- **A change of some members changes their fields only.** -/
theorem field_of_others {display : YamlNumber → String} {keys : List String} {name : String}
    {members members' : List (Yaml × Yaml)} {fs fs' : List (String × Yaml)}
    (hothers : others keys members' = others keys members) (hname : name ∉ keys)
    (h : fields display members = some fs) (h' : fields display members' = some fs') :
    field name fs' = field name fs := by
  obtain ⟨rest, hrest, hfilter⟩ := exists_fields_others hname h
  obtain ⟨rest', hrest', hfilter'⟩ := exists_fields_others hname h'
  rw [hothers, hrest] at hrest'
  cases hrest'
  rw [field, field, ← hfilter, ← hfilter']

/-- What a key finds is among the fields. -/
theorem mem_fields {display : YamlNumber → String} {name : String} {value : Yaml}
    {members : List (Yaml × Yaml)} {fs : List (String × Yaml)}
    (h : fields display members = some fs)
    (hget : get members name = some value) : (name, value) ∈ fs := by
  induction members generalizing fs with
  | nil => cases hget
  | cons member members ih =>
      obtain ⟨k, v⟩ := member
      obtain ⟨n, rest, hk, hrest, rfl⟩ := fields_cons.1 h
      rw [get_cons] at hget
      split at hget
      · rename_i hkey
        obtain rfl := isKey_eq_true.1 hkey
        cases hk
        cases hget
        exact List.mem_cons_self
      · exact List.mem_cons_of_mem _ (ih hrest hget)

/-- **The two views see the same value.** -/
theorem field_of_get {display : YamlNumber → String} {name : String} {value : Yaml}
    {members : List (Yaml × Yaml)} {fs : List (String × Yaml)} {found : Option Yaml}
    (h : fields display members = some fs) (hfound : field name fs = some found)
    (hget : get members name = some value) : found = some value := by
  have hmem : (name, value) ∈ fs.filter (·.1 == name) :=
    List.mem_filter.2 ⟨mem_fields h hget, beq_self_eq_true name⟩
  unfold field at hfound
  split at hfound
  · rename_i hnil
    rw [hnil] at hmem
    cases hmem
  · rename_i one hone
    rw [hone, List.mem_singleton] at hmem
    cases hfound
    rw [← hmem]
  · cases hfound

section

variable {α : Type} {display : YamlNumber → String} {members members' : List (Yaml × Yaml)}
  {fs fs' : List (String × Yaml)} {keys : List String} {name : String} {value : Yaml}

theorem required_of_others {read : Yaml → Option α}
    (hothers : others keys members' = others keys members) (hname : name ∉ keys)
    (h : fields display members = some fs) (h' : fields display members' = some fs') :
    required read name fs' = required read name fs := by
  rw [required, required, field_of_others hothers hname h h']

theorem optional_of_others {read : Yaml → Option α} {default : α}
    (hothers : others keys members' = others keys members) (hname : name ∉ keys)
    (h : fields display members = some fs) (h' : fields display members' = some fs') :
    optional read default name fs' = optional read default name fs := by
  rw [optional, optional, field_of_others hothers hname h h']

/-- A field that has to be there is read off what its key finds. -/
theorem required_of_get {read : Yaml → Option α} {a : α} (h : fields display members = some fs)
    (hget : get members name = some value) (hread : required read name fs = some a) :
    read value = some a := by
  simp only [required, Option.bind_eq_bind, Option.bind_eq_some_iff] at hread
  obtain ⟨found, hfound, hread⟩ := hread
  rw [field_of_get h hfound hget] at hread
  obtain ⟨_, hsome, hread⟩ := hread
  cases hsome
  exact hread

end

end Yaml

end Wire
