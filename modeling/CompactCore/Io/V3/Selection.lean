/-
**The codec that is selected.**

A column without a codec of its own is encoded with every candidate of its type.  Some of them fail:
numbers may decrease, strings may be too many for a dictionary.  Of the others, the first of the
smallest is kept, where the metadata counts as well as the payload.

Main definitions:

* `CompactCore.Io.V3.encodedLen` — what a chunk takes in a row group;
* `CompactCore.Io.V3.measured` — what a candidate gives, with its length.

Main results:

* `CompactCore.Io.V3.tryCandidate_firstLeast` — the loop keeps the first of the smallest;
* `CompactCore.Io.V3.encodeColumn_auto` — **selection is optimal and lossless**.
-/

import CompactCore.Io.V3.Encodable
import CompactCore.Wire.Checked
import CompactCore.Wire.Select

set_option relaxedAutoImplicit false
set_option autoImplicit false

namespace CompactCore.Io.V3

open Wire CompactError Format.V3 Codecs.V3

/-! ### Measuring candidates -/

/-- The length of a chunk in a row group: its metadata and its payload. -/
def encodedLen (chunk : EncodedColumnChunk) : Result ℕ := do
  let metadata ← encodeColumnMetadata chunk.metadata
  return metadata.length + chunk.payload.length

/-- What a candidate gives, with its length. -/
def measured (column : ColumnSchema) (rows : List Map) (codec : SchemaCodec) :
    Option (ℕ × EncodedColumnChunk) := do
  let chunk ← (encodeExplicit { column with codec := codec } rows).toOption
  let size ← (encodedLen chunk).toOption
  return (size, chunk)

theorem measured_eq_some {column : ColumnSchema} {rows : List Map} {codec : SchemaCodec}
    {size : ℕ} {chunk : EncodedColumnChunk} : measured column rows codec = some (size, chunk) ↔
      encodeExplicit { column with codec := codec } rows = .ok chunk ∧
        encodedLen chunk = .ok size := by
  simp only [measured, Option.bind_eq_bind, Option.bind_eq_some_iff, toOption_eq_some,
    Option.pure_def, Option.some.injEq, Prod.mk.injEq]
  constructor
  · rintro ⟨_, henc, _, hlen, rfl, rfl⟩
    exact ⟨henc, hlen⟩
  · rintro ⟨henc, hlen⟩
    exact ⟨chunk, henc, size, hlen, rfl, rfl⟩

/-- What a column with a name that fits is encoded to can be measured. -/
theorem exists_encodedLen {column : ColumnSchema} {rows : List Map} {chunk : EncodedColumnChunk}
    (h : encodeExplicit column rows = .ok chunk) (hname : NameFits column) :
    ∃ record, encodeColumnMetadata chunk.metadata = .ok record ∧ record.length < 2 ^ 17 ∧
      encodedLen chunk = .ok (record.length + chunk.payload.length) := by
  obtain ⟨record, hrecord, hlen⟩ := exists_record h hname
  refine ⟨record, hrecord, hlen, ?_⟩
  rw [encodedLen, hrecord]
  rfl

theorem measured_isSome {column : ColumnSchema} {rows : List Map} {codec : SchemaCodec}
    (hname : NameFits column) : (measured column rows codec).isSome = true ↔
      ∃ chunk, encodeExplicit { column with codec := codec } rows = .ok chunk := by
  constructor
  · intro h
    obtain ⟨⟨size, chunk⟩, hsome⟩ := Option.isSome_iff_exists.1 h
    exact ⟨chunk, (measured_eq_some.1 hsome).1⟩
  · rintro ⟨chunk, henc⟩
    obtain ⟨record, -, -, hlen⟩ := exists_encodedLen henc hname
    exact Option.isSome_iff_exists.2 ⟨_, measured_eq_some.2 ⟨henc, hlen⟩⟩

/-- The payloads that the candidates of a column give are vectors: none has more than `isize::MAX`
bytes. -/
def PayloadsFit (column : ColumnSchema) (rows : List Map) : Prop :=
  ∀ codec ∈ candidates column.valueType, ∀ chunk,
    encodeExplicit { column with codec := codec } rows = .ok chunk → IsSlice chunk.payload

/-- The payloads of rows that a decoder takes are vectors. -/
theorem payloadsFit_of_le {column : ColumnSchema} {rows : List Map}
    (hmax : rows.length ≤ maxDecodedValues)
    (hmem : StringColumn.totalBytes (columnStrings column rows) < 2 ^ 61) :
    PayloadsFit column rows := by
  intro codec _ chunk henc
  have hpayload := (encodeExplicit_small henc).payload_le
  change chunk.payload.length ≤
    2 * StringColumn.totalBytes (columnStrings column rows) + 21 * rows.length + 11 at hpayload
  rw [maxDecodedValues] at hmax
  rw [IsSlice, maxAllocation]
  omega

/-! ### The loop -/

/-- **The loop keeps the first of the smallest** of the candidates it has tried. -/
theorem tryCandidate_firstLeast {column : ColumnSchema} {rows : List Map} (hname : NameFits column)
    (hfit : PayloadsFit column rows) {done : List SchemaCodec} {s : Selection} {codec : SchemaCodec}
    (hcodec : codec ∈ candidates column.valueType)
    (h : FirstLeast (measured column rows) done s.best) :
    ∃ s', tryCandidate column rows s codec = .ok s' ∧
      FirstLeast (measured column rows) (done ++ [codec]) s'.best := by
  unfold tryCandidate
  cases henc : encodeExplicit { column with codec := codec } rows with
  | error e =>
      refine ⟨_, rfl, h.skip ?_⟩
      rw [measured, henc]
      rfl
  | ok chunk =>
      obtain ⟨record, hrecord, hshort, hlen⟩ := exists_encodedLen henc hname
      have hpayload : chunk.payload.length ≤ 2 ^ 63 - 1 := hfit codec hcodec chunk henc
      have hsize : usizeAdd record.length chunk.payload.length =
          some (record.length + chunk.payload.length) := by
        refine usizeAdd_eq_some.2 ⟨?_, rfl⟩
        rw [wordSize]
        omega
      have hnext := h.snoc (measured_eq_some.2 ⟨henc, hlen⟩)
      simp only [hrecord, hsize, okOr, bind, Except.bind]
      refine ⟨_, rfl, ?_⟩
      split at hnext
      · rename_i hsmaller
        rwa [if_pos hsmaller]
      · rename_i hlarger
        rwa [if_neg hlarger]

/-- What the loop has kept when all candidates were tried. -/
theorem exists_selection {column : ColumnSchema} {rows : List Map} (hname : NameFits column)
    (hfit : PayloadsFit column rows) :
    ∃ s, (candidates column.valueType).foldlM (tryCandidate column rows) ⟨none, none⟩ = .ok s ∧
      FirstLeast (measured column rows) (candidates column.valueType) s.best := by
  refine exists_foldlM
    (P := fun done (s : Selection) => FirstLeast (measured column rows) done s.best) ?_ .nil
  intro done codec rest s hsplit h
  refine tryCandidate_firstLeast hname hfit ?_ h
  rw [hsplit]
  exact List.mem_append_right _ List.mem_cons_self

/-! ### What is selected -/

/-- **Selection is optimal and lossless.**  A column without a codec is encoded where one of the
candidates encodes it; and then with a candidate that no other is smaller than, and none before it
as small. -/
theorem encodeColumn_auto {column : ColumnSchema} {rows : List Map} (hauto : column.codec = .auto)
    (hname : NameFits column) (hfit : PayloadsFit column rows) :
    ((∃ chunk, encodeColumn column rows = .ok chunk) ↔
      ∃ codec ∈ candidates column.valueType, ∃ chunk,
        encodeColumn { column with codec := codec } rows = .ok chunk) ∧
    ∀ chunk, encodeColumn column rows = .ok chunk →
      ∃ before codec after size, candidates column.valueType = before ++ codec :: after ∧
        encodeColumn { column with codec := codec } rows = .ok chunk ∧
        encodedLen chunk = .ok size ∧ chunk.metadata.codec = codec ∧ codec ≠ .auto ∧
        (∀ codec' ∈ candidates column.valueType, ∀ chunk',
          encodeColumn { column with codec := codec' } rows = .ok chunk' →
            ∃ size', encodedLen chunk' = .ok size' ∧ size ≤ size' ∧
              (codec' ∈ before → size < size')) ∧
        (rows.length ≤ maxDecodedValues →
          (codec = .rle →
            ((columnStrings column rows).flatMap Strings.lenPrefixed).length ≤ maxDecodedBytes) →
          decodeColumn chunk.metadata chunk.payload = .ok (DecodedColumn.ofRows column rows)) := by
  obtain ⟨s, hfold, hleast⟩ := exists_selection hname hfit
  have hselect : encodeColumn column rows =
      okOr (s.firstError.getD (unsupported "no cmp3 codec candidate")) (s.best.map (·.2)) := by
    rw [encodeColumn, if_pos hauto, selectAutoColumn, hfold]
    rfl
  have hexplicit : ∀ codec ∈ candidates column.valueType,
      encodeColumn { column with codec := codec } rows =
        encodeExplicit { column with codec := codec } rows := by
    intro codec hcodec
    exact if_neg (implemented_candidate hcodec).2
  constructor
  · have hsome : (∃ chunk, encodeColumn column rows = .ok chunk) ↔ s.best.isSome = true := by
      rw [hselect]
      cases s.best <;> simp [okOr]
    rw [hsome, hleast.isSome_iff]
    refine exists_congr fun codec => and_congr_right fun hcodec => ?_
    rw [measured_isSome hname, hexplicit codec hcodec]
  · intro chunk hchunk
    have hdecode := decodeColumn_rows hchunk
    rw [hselect, okOr_ok, Option.map_eq_some_iff] at hchunk
    obtain ⟨⟨size, _⟩, hbest, rfl⟩ := hchunk
    rw [hbest] at hleast
    obtain ⟨before, codec, after, hsplit, hvalue, hfirst, hall⟩ := hleast.exists_split
    obtain ⟨henc, hlen⟩ := measured_eq_some.1 hvalue
    have hmem : codec ∈ candidates column.valueType := by
      rw [hsplit]
      exact List.mem_append_right _ List.mem_cons_self
    have hcodec := (encodeExplicit_describes henc).codec_eq
    refine ⟨before, codec, after, size, hsplit, (hexplicit codec hmem).trans henc, hlen, hcodec,
      (implemented_candidate hmem).2, ?_, fun hmax hrle => ?_⟩
    · intro codec' hmem' chunk' henc'
      rw [hexplicit codec' hmem'] at henc'
      obtain ⟨record, -, -, hlen'⟩ := exists_encodedLen henc' hname
      have hvalue' := measured_eq_some.2 ⟨henc', hlen'⟩
      exact ⟨_, hlen', hall codec' hmem' _ _ hvalue', fun hb => hfirst codec' hb _ _ hvalue'⟩
    · exact (hdecode hmax fun hc => hrle (hcodec.symm.trans hc)).1

/-- Rows with two numbers that increase. -/
def twoNumbers : List Map := [[("id", .number (.posInt 5))], [("id", .number (.posInt 9))]]

theorem encodeColumn_auto_two_numbers :
    ∃ codec ∈ candidates .u64, codec ≠ .auto ∧ ∃ chunk,
      encodeColumn (autoColumn "id") twoNumbers = .ok chunk ∧
        encodeColumn { autoColumn "id" with codec := codec } twoNumbers = .ok chunk ∧
        decodeColumn chunk.metadata chunk.payload = .ok (.u64 [some 5, some 9]) := by
  have hname : NameFits (autoColumn "id") := ⟨by decide, by decide⟩
  have hfit : PayloadsFit (autoColumn "id") twoNumbers := payloadsFit_of_le (by decide) (by decide)
  obtain ⟨hiff, hselected⟩ := encodeColumn_auto rfl hname hfit
  have hstored : ∃ chunk, encodeColumn { autoColumn "id" with codec := .stored } twoNumbers =
      .ok chunk := ⟨_, rfl⟩
  obtain ⟨chunk, hchunk⟩ := hiff.2 ⟨.stored, by decide, hstored⟩
  obtain ⟨before, codec, after, _, hsplit, henc, -, -, hne, -, hdecode⟩ := hselected chunk hchunk
  have hmem : codec ∈ candidates .u64 := by
    rw [show candidates .u64 = before ++ codec :: after from hsplit]
    exact List.mem_append_right _ List.mem_cons_self
  refine ⟨codec, hmem, hne, chunk, hchunk, henc, ?_⟩
  exact hdecode (by decide) fun _ => Nat.zero_le _

end CompactCore.Io.V3
