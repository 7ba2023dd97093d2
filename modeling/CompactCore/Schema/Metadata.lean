/-
**Schema metadata documents.**

Schema revisions are kept outside of the files that they describe, in YAML documents.  A revision is
read off the tree of its document: a mapping gives its members as fields, members with other names
are left alone, and a string may be written as any scalar.

Main definitions:

* `CompactCore.SerdeYaml` — the library that reads and prints documents;
* `CompactCore.readFields`, `CompactCore.readVec`, `CompactCore.readVariant` — reading typed values;
* `CompactCore.Evolution.SchemaRevision.fromYaml` — parsing and validating a revision.

Main results:

* `CompactCore.Evolution.SchemaRevision.fromYaml_ok` — what is parsed is a valid revision.
-/

import CompactCore.Schema.Evolution
import CompactCore.Wire.Yaml

set_option relaxedAutoImplicit false
set_option autoImplicit false

namespace CompactCore

open Wire CompactError

/-- The `serde_yaml` crate: reading a document, printing one, the text of a number, and reading a
JSON value off a tree. -/
class SerdeYaml where
  fromStr : String → Option Yaml
  toString : Yaml → Option String
  display : YamlNumber → String
  toJson : Yaml → Option Value

/-- What is printed is read back as the same tree. -/
def SerdeYaml.Inverse [SerdeYaml] : Prop :=
  ∀ tree text, SerdeYaml.toString tree = some text → SerdeYaml.fromStr text = some tree

section

variable [SerdeYaml]

/-! ### Reading typed values -/

def readFields (value : Yaml) : Option (List (String × Yaml)) :=
  value.asMapping.bind (Yaml.fields SerdeYaml.display)

def readString (value : Yaml) : Option String := value.text SerdeYaml.display

omit [SerdeYaml] in
def readU32 (value : Yaml) : Option UInt32 :=
  value.asU64.bind fun n => if n.toNat < 2 ^ 32 then some n.toUInt32 else none

def readVec {α : Type} (read : Yaml → Option α) (value : Yaml) : Option (List α) :=
  value.asSequence.bind fun items => items.mapM read

/-- A variant without fields, as a string or as the tag of nothing. -/
def readVariant {α : Type} (variant : String → Option α) : Yaml → Option α
  | .tagged tag .null => variant tag
  | .string s => variant s
  | _ => none

/-- The names of the value types in documents. -/
def SchemaValueType.variant : String → Option SchemaValueType
  | "bool" => some .bool
  | "string" => some .string
  | "u64" => some .u64
  | _ => none

/-- The names of the codecs in documents. -/
def SchemaCodec.variant : String → Option SchemaCodec
  | "auto" => some .auto
  | "bitmap" => some .bitmap
  | "bitpack" => some .bitpack
  | "delta_bitpack" => some .deltaBitpack
  | "dictionary" => some .dictionary
  | "delta_varint_u64" => some .deltaVarintU64
  | "prefix" => some .prefixCodec
  | "rle" => some .rle
  | "stored" => some .stored
  | _ => none

/-- `Option<Value>`. -/
def readDefault : Yaml → Option (Option Value)
  | .null => some none
  | value => (SerdeYaml.toJson value).map some

theorem readFields_eq_some {value : Yaml} {fields : List (String × Yaml)} :
    readFields value = some fields ↔ ∃ members, value.untag = .mapping members ∧
      Yaml.fields SerdeYaml.display members = some fields := by
  simp only [readFields, Option.bind_eq_some_iff, Yaml.asMapping_eq_some]

omit [SerdeYaml] in
theorem readU32_posInt (n : UInt32) : readU32 (.number (.posInt n.toUInt64)) = some n := by
  have hlt : n.toUInt64.toNat < 2 ^ 32 := by
    rw [UInt32.toNat_toUInt64]
    exact n.toNat_lt
  rw [readU32]
  show (if n.toUInt64.toNat < 2 ^ 32 then some n.toUInt64.toUInt32 else none) = some n
  rw [if_pos hlt, UInt32.toUInt32_toUInt64]

omit [SerdeYaml] in
theorem readVec_eq_some {α : Type} {read : Yaml → Option α} {value : Yaml} {out : List α} :
    readVec read value = some out ↔ ∃ items, value.untag = .sequence items ∧
      List.Forall₂ (fun item a => read item = some a) items out := by
  simp only [readVec, Option.bind_eq_some_iff, Yaml.asSequence_eq_some, Yaml.mapM_eq_some]

namespace Evolution

/-! ### Revisions -/

def EvolvedColumn.ofYaml (value : Yaml) : Option EvolvedColumn := do
  let fields ← readFields value
  let stableId ← Yaml.required readU32 "stable_id" fields
  let name ← Yaml.required readString "name" fields
  let valueType ← Yaml.required (readVariant SchemaValueType.variant) "type" fields
  let codec ← Yaml.required (readVariant SchemaCodec.variant) "codec" fields
  let nullable ← Yaml.optional Yaml.asBool false "nullable" fields
  let aliases ← Yaml.optional (readVec readString) [] "aliases" fields
  let defaultValue ← Yaml.optional readDefault none "default" fields
  return ⟨stableId, name, valueType, codec, nullable, aliases, defaultValue⟩

def SchemaRevision.ofYaml (value : Yaml) : Option SchemaRevision := do
  let fields ← readFields value
  let revision ← Yaml.required Yaml.asU64 "revision" fields
  let columns ← Yaml.required (readVec EvolvedColumn.ofYaml) "columns" fields
  return ⟨revision, columns⟩

/-- Parse and validate an evolution schema from YAML. -/
def SchemaRevision.fromYaml (input : String) : Result SchemaRevision := do
  let revision ← okOr (invalidInput "invalid schema revision")
    ((SerdeYaml.fromStr input).bind SchemaRevision.ofYaml)
  revision.validate
  return revision

/-- **What is parsed is a valid revision.** -/
theorem SchemaRevision.fromYaml_ok {input : String} {revision : SchemaRevision} :
    SchemaRevision.fromYaml input = .ok revision ↔
      (∃ tree, SerdeYaml.fromStr input = some tree ∧ SchemaRevision.ofYaml tree = some revision) ∧
        revision.validate = .ok () := by
  simp only [fromYaml, bind_ok, okOr_ok, Option.bind_eq_some_iff, pure_ok]
  constructor
  · rintro ⟨_, htree, _, hvalid, rfl⟩
    exact ⟨htree, hvalid⟩
  · rintro ⟨htree, hvalid⟩
    exact ⟨revision, htree, (), hvalid, rfl⟩

end Evolution

end

end CompactCore
