/-
**What a log keeps of its rows.**

A log grows by appends, each of which goes on behind the blocks that recovery finds, and a crash may
cut it off at any byte.  This module follows the rows through such a history: behind every append
the log consists of the row groups that it still had, and those of the lines that have been
appended.  Replaying the log gives the rows of the groups whose blocks are still whole, if the
decoder takes each of these blocks, and otherwise nothing.

Main definitions:

* `CompactCore.Streaming.WholeLog` — a log with nothing cut off;
* `CompactCore.Streaming.Written` — the histories of a log, with the row groups that it was given.

Main results:

* `CompactCore.Streaming.WholeLog.append` — an append to such a log keeps all of it;
* `CompactCore.Streaming.Written.exists_log` — the invariant of a history;
* `CompactCore.Streaming.replayJsonlAppendStream_written` — **what a log replays to, after any
  number of appends and crashes**.
-/

import CompactCore.Streaming.Calls
import CompactCore.Streaming.Recovery
import CompactCore.Streaming.RoundTrip
import Mathlib.Algebra.Order.BigOperators.Group.List
import Mathlib.Algebra.Group.Action.Defs

set_option relaxedAutoImplicit false
set_option autoImplicit false

namespace CompactCore.Streaming

open Wire CompactError Io

section

variable [Crc32Fast]

/-! ### Logs with nothing cut off -/

/-- A byte string is the log of some blocks, all of it. -/
structure WholeLog (data : List UInt8) (blocks : List Block) : Prop where
  torn : Torn data blocks
  whole : data = [] ∧ blocks = [] ∨ data = writeStreamHeader ++ blockLog.flat blocks

theorem WholeLog.nil : WholeLog [] [] := by
  have hend : streamEnd [] < 2 ^ 64 := by
    show streamHeaderLen + 0 < 2 ^ 64
    decide
  exact ⟨⟨trivial, by decide, by decide, by decide, hend, 0, rfl⟩, Or.inl ⟨rfl, rfl⟩⟩

/-- A log in which recovery finds no torn tail. -/
theorem WholeLog.of_recover {data : List UInt8} {r : AppendRecovery} (hfit : Fits data)
    (hr : recoverAppendStream data = .ok r) (htail : r.truncatedOrCorruptTail = false) :
    ∃ blocks, WholeLog data blocks ∧ r.blocks = metadataFrom streamHeaderLen blocks := by
  rcases (recoverAppendStream_ok hfit).1 hr with ⟨rfl, rfl⟩ | ⟨-, -, rfl⟩ |
    ⟨hheader, blocks, hlog, hrows, hraw, rfl⟩
  · exact ⟨[], .nil, rfl⟩
  · cases htail
  · obtain ⟨hholds, hcount⟩ := LogFormat.capped_holds.1 hlog.1
    have hle : streamEnd blocks ≤ data.length := hholds.le
    have hge : data.length ≤ streamEnd blocks := by
      rw [appendRecoveryOf, decide_eq_false_iff_not] at htail
      exact Nat.le_of_not_lt htail
    have hdata : data = writeStreamHeader ++ blockLog.flat blocks := by
      rw [← take_streamEnd hheader hholds, List.take_of_length_le hge]
    refine ⟨blocks, ⟨⟨hholds.1, hcount, hrows, hraw, lt_of_le_of_lt hle hfit, ?_⟩, Or.inr hdata⟩,
      rfl⟩
    exact ⟨data.length, by rw [← hdata, List.take_length]⟩

/-- What recovery finds in a log with nothing cut off is all of it. -/
theorem WholeLog.recovered {data : List UInt8} {blocks : List Block} (h : WholeLog data blocks) :
    Recovered data blocks := by
  rcases h.whole with ⟨rfl, rfl⟩ | hdata
  · refine Or.inl ⟨fun hat => ?_, rfl⟩
    exact absurd (header_le hat) (by decide)
  · rw [hdata]
    exact Or.inr ⟨at_mid [] writeStreamHeader _,
      (complete_full h.torn.chain).capped h.torn.count_le⟩

theorem WholeLog.recover {data : List UInt8} {blocks : List Block} (h : WholeLog data blocks) :
    ∃ r, recoverAppendStream data = .ok r ∧ r.blocks = metadataFrom streamHeaderLen blocks ∧
      r.truncatedOrCorruptTail = false ∧ r.validLen.toNat = data.length := by
  obtain ⟨r, hr, hblocks, hvalid, htail⟩ :=
    h.recovered.recover h.torn.fit.2 h.torn.rows_lt h.torn.raw_lt
  have hlen : r.validLen.toNat = data.length := by
    rw [hvalid]
    rcases h.whole with ⟨rfl, rfl⟩ | hdata
    · rw [if_neg fun hat => absurd (header_le hat) (by decide)]
      rfl
    · have hheader : At (writeStreamHeader ++ blockLog.flat blocks) 0 writeStreamHeader :=
        at_mid [] writeStreamHeader _
      rw [hdata, if_pos hheader, length_header_append]
  refine ⟨r, hr, hblocks, ?_, hlen⟩
  rw [← Bool.not_eq_true, htail, hlen]
  exact lt_irrefl _

variable [SerdeJson]

omit [Crc32Fast] [SerdeJson] in
/-- Accepted rows are cut into row groups within the options. -/
theorem cutRows_within {options : BlockOptions} {rows : List String}
    (hvalid : options.validate = .ok options)
    (hrows : ∀ row ∈ rows, IsRow options.maxUncompressedBytesPerBlock row) :
    ∀ group ∈ cutRows options rows,
      (group.map String.utf8ByteSize).sum ≤ options.maxUncompressedBytesPerBlock := by
  obtain ⟨hmaxRows, hmaxBytes, -⟩ := BlockOptions.validate_ok.1 hvalid
  suffices h : ∀ cut : Cut, cut.Bounded options → (∀ row ∈ cut.current, 0 < row.utf8ByteSize) →
      ∀ group ∈ (rows.foldl (Cut.add options) cut).finish,
        (group.map String.utf8ByteSize).sum ≤ options.maxUncompressedBytesPerBlock from
    h .empty (Cut.bounded_empty hmaxRows hmaxBytes) (by simp [Cut.empty])
  induction rows with
  | nil =>
      intro cut hcut _ group hgroup
      rw [List.foldl_nil, Cut.finish] at hgroup
      split at hgroup
      · exact (hcut.groups group hgroup).2.2
      · rcases List.mem_append.1 hgroup with hgroup | hgroup
        · exact (hcut.groups group hgroup).2.2
        · rw [List.mem_singleton.1 hgroup]
          exact hcut.current_bytes.le
  | cons row rows ih =>
      intro cut hcut hpos
      have hrow := hrows row List.mem_cons_self
      refine ih (fun r hr => hrows r (List.mem_cons_of_mem _ hr)) _ (hcut.add hrow hpos) ?_
      intro row' hmem
      rcases List.mem_append.1 (Cut.current_flushIf hmem) with hmem | hmem
      · exact hpos row' (Cut.current_flushIf hmem)
      · rw [List.mem_singleton.1 hmem]
        exact hrow.size_pos

/-- The row groups of some rows are small enough for the readers. -/
def GroupsReadable (schema : Schema) (options : BlockOptions) (rows : List String) : Prop :=
  ∀ group ∈ cutRows options rows, ∀ encoded,
    encodeJsonlRowGroup (String.join group) schema = .ok encoded →
      blockHeaderLen + encoded.payload.length ≤ maxEncodedBlockBytes

/-- **An append to a log with nothing cut off keeps all of it.**  The blocks hold at most `maxRaw`
raw bytes each, so that the readers can count those of all. -/
theorem WholeLog.append {log log' : List UInt8} {blocks : List Block} {maxRaw : ℕ} {input : BufRead}
    {schema : Schema} {options : BlockOptions} (h : WholeLog log blocks)
    (hmax : maxStreamBlocks * maxRaw < 2 ^ 64)
    (hblocks : ∀ block ∈ blocks, block.rawSize.toNat ≤ maxRaw)
    (hvalid : options.validate = .ok options)
    (hoptions : options.maxUncompressedBytesPerBlock ≤ maxRaw)
    (hrun : appendJsonlStream log input schema options = .ok log')
    (hreadable : ∀ lines rows, InputLines options.maxUncompressedBytesPerBlock input.bytes lines →
      acceptLines options.maxUncompressedBytesPerBlock lines = .ok rows →
        GroupsReadable schema options rows) :
    ∃ new, WholeLog log' (blocks ++ new) ∧
      ∀ block ∈ blocks ++ new, block.rawSize.toNat ≤ maxRaw := by
  obtain ⟨metadata, hwrites⟩ := exists_appendedBlocks hrun
  obtain ⟨lines, rows, old, new, hlines, haccept, hold, hencoded, hlog', hfit', -, hrows, hcount⟩ :=
    appendJsonlStream_ok h.torn.fit.2 hrun hwrites
  rw [← h.recovered.unique hold] at hencoded hlog' hrows hcount
  have hmem : ∀ block ∈ new, block.payload.length ≤ maxEncodedBlockBytes ∧
      block.rawSize.toNat ≤ maxRaw := by
    intro block hblock
    obtain ⟨group, hgroup, encoded, done, hencode, hnext⟩ := hencoded.mem hblock
    have hrow := isRow_of_cutRows options haccept group hgroup
    refine ⟨?_, ?_⟩
    · rw [Block.length_payload, hnext.columnBlock_eq]
      exact hreadable lines rows hlines haccept group hgroup encoded hencode
    · rw [hnext.rawSize_eq, (encodeJsonlRowGroup_counts hencode hrow).2]
      exact (cutRows_within hvalid (isRow_of_acceptLines haccept) group hgroup).trans hoptions
  have hall : ∀ block ∈ blocks ++ new, block.rawSize.toNat ≤ maxRaw := fun block hblock =>
    (List.mem_append.1 hblock).elim (hblocks block) fun h => (hmem block h).2
  have hraw : blockRaw (blocks ++ new) < 2 ^ 64 := by
    have hle := List.sum_le_card_nsmul ((blocks ++ new).map fun block => block.rawSize.toNat) maxRaw
      (List.forall_mem_map.2 hall)
    rw [List.length_map, smul_eq_mul] at hle
    exact lt_of_le_of_lt hle (lt_of_le_of_lt (Nat.mul_le_mul_right _ hcount) hmax)
  have hend : streamEnd (blocks ++ new) < 2 ^ 64 := by
    rw [hlog', Fits, length_header_append] at hfit'
    exact hfit'
  have hchain : blockLog.Chain [] (blocks ++ new) :=
    LogFormat.chain_append.2
      ⟨h.torn.chain, hencoded.chain fun block hblock => (hmem block hblock).1⟩
  refine ⟨new, ⟨⟨hchain, hcount, hrows, hraw, hend, ?_⟩, Or.inr hlog'⟩, hall⟩
  exact ⟨log'.length, by rw [← hlog', List.take_length]⟩

/-! ### The rows of a log -/

/-- A log after some appends and crashes, with the row groups that it was given: of the groups
before an append only those stay whose blocks are still whole. -/
inductive Written (schema : Schema) : List UInt8 → List (List String) → Prop
  | empty : Written schema [] []
  | append {log log' : List UInt8} {groups : List (List String)} {input : BufRead}
      {options : BlockOptions} {lines rows : List String} {r : AppendRecovery}
      {blocks : List BlockMetadata} (h : Written schema log groups)
      (recover : recoverAppendStream log = .ok r)
      (run : appendJsonlStream log input schema options = .ok log')
      (writes : appendedBlocks log input schema options = .ok blocks)
      (limits : AppendLimits r.blocks blocks)
      (input_lines : InputLines options.maxUncompressedBytesPerBlock input.bytes lines)
      (accept : acceptLines options.maxUncompressedBytesPerBlock lines = .ok rows) :
      Written schema log' (groups.take r.blocks.length ++ cutRows options rows)
  | crash {log : List UInt8} {groups : List (List String)} (h : Written schema log groups) (n : ℕ) :
      Written schema (log.take n) groups

omit [Crc32Fast] [SerdeJson] in
theorem IsRow.mono {maxRowLen maxRowLen' : ℕ} {row : String} (h : IsRow maxRowLen row)
    (hle : maxRowLen ≤ maxRowLen') : IsRow maxRowLen' row := ⟨h.line, h.size.trans hle⟩

omit [SerdeJson] in
/-- The blocks that recovery keeps are the first ones. -/
theorem Recovered.take {log : List UInt8} {before after : List Block} {r : AppendRecovery}
    (h : Recovered log before) (htorn : Torn log (before ++ after))
    (hr : recoverAppendStream log = .ok r) : r.blocks = metadataFrom streamHeaderLen before := by
  have hrows := htorn.rows_lt
  have hraw := htorn.raw_lt
  rw [blockRows_append] at hrows
  rw [blockRaw_append] at hraw
  obtain ⟨r', hr', hblocks, -⟩ := h.recover htorn.fit.2 (by omega) (by omega)
  rw [hr, Except.ok.injEq] at hr'
  rw [hr', hblocks]

/-- Blocks within the limits of recovery make a log. -/
theorem Encoded.chain_of_limits {schema : Schema} {old new : List Block}
    {groups : List (List String)} (h : Encoded schema old groups new)
    (hend : streamEnd (old ++ new) < 2 ^ 64)
    (hframes : ∀ block ∈ metadataFrom (streamEnd old) new,
      block.compressedSize.toNat ≤ frameHeaderLen + maxEncodedBlockBytes) :
    blockLog.Chain old new := by
  refine h.chain fun block hblock => ?_
  obtain ⟨pre, post, rfl⟩ := List.append_of_mem hblock
  have hle := hframes _ (mem_metadataFrom.2 ⟨pre, block, post, rfl, rfl⟩)
  have hlen : block.frame.length < 2 ^ 64 := by
    rw [streamEnd, LogFormat.flat_append, LogFormat.flat_append, LogFormat.flat_cons,
      List.length_append, List.length_append, List.length_append, blockLog_bytes] at hend
    omega
  rw [Block.metadata_size hlen, block.length_frame] at hle
  omega

/-- **The invariant of a history**: the log is what a crash has left of the blocks of its groups. -/
theorem Written.exists_log {schema : Schema} {log : List UInt8} {groups : List (List String)}
    (h : Written schema log groups) :
    ∃ all maxRowLen, Torn log all ∧ List.Forall₂ (Block.Holds schema) groups all ∧
      ∀ rows ∈ groups, ∀ row ∈ rows, IsRow maxRowLen row := by
  induction h with
  | empty => exact ⟨[], 0, WholeLog.nil.torn, .nil, by simp⟩
  | @append log log' groups input options lines rows r blocks _ hrecover hrun hwrites hlimits hlines
      haccept ih =>
      obtain ⟨all, maxRowLen, htorn, hholds, hrows⟩ := ih
      obtain ⟨before, after, rfl, hold, hwhole⟩ := htorn.recovered
      obtain ⟨lines', rows', old, new, hlines', haccept', hold', hencoded, hlog', hfit', rfl,
        hrows', hcount⟩ := appendJsonlStream_ok htorn.fit.2 hrun hwrites
      rw [hlines.unique hlines', haccept', Except.ok.injEq] at haccept
      subst haccept
      rw [← hold.unique hold'] at hencoded hlog' hrows' hcount hlimits
      have hkept := hold.take htorn hrecover
      rw [hkept] at hlimits ⊢
      have hend : streamEnd (before ++ new) < 2 ^ 64 := by
        rw [hlog', Fits, length_header_append] at hfit'
        exact hfit'
      have hnew := hencoded.chain_of_limits hend hlimits.frame_le
      have hraw := hlimits.raw_lt
      rw [streamEnd, ← metadataFrom_append, blockSum_uncompressedSize] at hraw
      have hchain := (LogFormat.chain_append.1 htorn.chain).1
      refine ⟨before ++ new, max maxRowLen options.maxUncompressedBytesPerBlock,
        ⟨LogFormat.chain_append.2 ⟨hchain, hnew⟩, hcount, hrows', hraw, hend,
          ⟨log'.length, by rw [← hlog', List.take_length]⟩⟩, ?_, ?_⟩
      · refine List.rel_append ?_ hencoded.forall₂
        rw [length_metadataFrom]
        have htake := List.forall₂_take before.length hholds
        rwa [List.take_left] at htake
      · intro group hgroup row hrow
        rcases List.mem_append.1 hgroup with hgroup | hgroup
        · exact (hrows group (List.mem_of_mem_take hgroup) row hrow).mono (Nat.le_max_left _ _)
        · exact (isRow_of_cutRows options haccept' group hgroup row hrow).mono
            (Nat.le_max_right _ _)
  | @crash log groups _ n ih =>
      obtain ⟨all, maxRowLen, htorn, hrest⟩ := ih
      exact ⟨all, maxRowLen, htorn.take n, hrest⟩

omit [SerdeJson] in
/-- The readers accept the frames of the blocks of a log. -/
theorem payload_le_of_chain {done blocks : List Block} (h : blockLog.Chain done blocks) :
    ∀ block ∈ blocks, block.payload.length ≤ maxEncodedBlockBytes := by
  induction blocks generalizing done with
  | nil => exact List.forall_mem_nil _
  | cons block blocks ih => exact List.forall_mem_cons.2 ⟨h.1.1, ih h.2⟩

/-- **What a log replays to.**  After any number of appends and crashes, with the header still
there, replaying gives the rows of the groups that recovery finds, rendered, precisely when the
run-length encoded columns of each of them are within the limit of the decoder, and its lines as
long as its rows rendered. -/
theorem replayJsonlAppendStream_written {schema : Schema} {log : List UInt8}
    {groups : List (List String)} (h : OneLine) (hwritten : Written schema log groups)
    (hheader : streamHeaderLen ≤ log.length) :
    ∃ r objects, recoverAppendStream log = .ok r ∧
      (groups.take r.blocks.length).flatten.mapM rowObject = .ok objects ∧
      ∀ text, replayJsonlAppendStream log schema = .ok text ↔
        (∀ rows ∈ groups.take r.blocks.length,
          ColumnsWithin schema rows ∧ RawSizeKept schema rows) ∧
          text = asBytes (renderRows schema.columns objects) := by
  obtain ⟨all, maxRowLen, htorn, hholds, hrows⟩ := hwritten.exists_log
  have hat := htorn.header_iff.2 (Nat.not_lt.2 hheader)
  obtain ⟨before, after, rfl, hold, -⟩ := htorn.recovered
  rcases hold with ⟨hbad, -⟩ | ⟨-, hlog⟩
  · exact absurd hat hbad
  have hrowsLt := htorn.rows_lt
  have hrawLt := htorn.raw_lt
  rw [blockRows_append] at hrowsLt
  rw [blockRaw_append] at hrawLt
  have hbounds : blockRows before < 2 ^ 64 ∧ blockRaw before < 2 ^ 64 := ⟨by omega, by omega⟩
  have hrecover := (recoverAppendStream_complete htorn.fit.2 hat hlog).1 hbounds
  have hcount : (appendRecoveryOf log before).blocks.length = before.length :=
    length_metadataFrom ..
  have hkept : List.Forall₂ (Block.Holds schema) (groups.take before.length) before := by
    have htake := List.forall₂_take before.length hholds
    rwa [List.take_left] at htake
  have hchain := (LogFormat.chain_append.1 htorn.chain).1
  obtain ⟨objects, hobjects, hdecodes, htexts⟩ := decodesTo_holds h hkept
    (fun rows hmem => hrows rows (List.mem_of_mem_take hmem)) (payload_le_of_chain hchain)
  refine ⟨_, objects, hrecover, by rw [hcount]; exact hobjects, fun text => ?_⟩
  rw [replayJsonlAppendStream_ok htorn.fit.2, hcount, ← hdecodes]
  constructor
  · rintro ⟨-, blocks, texts, hlog', -, -, hdecode, rfl⟩
    rw [LogFormat.complete_unique hlog' hlog] at hdecode
    exact ⟨⟨texts, hdecode⟩, htexts texts hdecode⟩
  · rintro ⟨⟨texts, hdecode⟩, rfl⟩
    exact ⟨hat, before, texts, hlog, hbounds.1, hbounds.2, hdecode, (htexts texts hdecode).symm⟩

end

open scoped CompactCore.Reference

/-- The text of three rows. -/
def threeRows : String := "\x7b\"id\":1\x7d\n" ++ Reference.idLines

/-- Two appends, with a crash between them that leaves one block of the first one. -/
def crashedAppends : Result (List UInt8 × List BlockMetadata × AppendRecovery × List UInt8 ×
    List BlockMetadata × AppendRecovery) := do
  let schema := Reference.idSchema .deltaVarintU64
  let log ← appendJsonlStream [] idInput schema ⟨1, 64⟩
  let blocks ← appendedBlocks [] idInput schema ⟨1, 64⟩
  let r ← recoverAppendStream (log.take 150)
  let log' ← appendJsonlStream (log.take 150) idInput schema ⟨8, 64⟩
  let blocks' ← appendedBlocks (log.take 150) idInput schema ⟨8, 64⟩
  let r' ← recoverAppendStream log'
  return (log, blocks, r, log', blocks', r')

set_option maxRecDepth 8192 in
/-- Two rows, a crash that cuts off the second one, and two more rows: the log replays to three. -/
theorem replayJsonlAppendStream_written_crash : ∃ log log' groups,
    appendJsonlStream [] idInput (Reference.idSchema .deltaVarintU64) ⟨1, 64⟩ = .ok log ∧
      appendJsonlStream (log.take 150) idInput (Reference.idSchema .deltaVarintU64) ⟨8, 64⟩ =
        .ok log' ∧
      Written (Reference.idSchema .deltaVarintU64) log' groups ∧
      replayJsonlAppendStream log' (Reference.idSchema .deltaVarintU64) =
        .ok (asBytes threeRows) := by
  obtain ⟨⟨log, blocks, r, log', blocks', r'⟩, hrun, ⟨hframe, hraw⟩, ⟨hframe', hraw'⟩, hkept,
      hkept', hheader⟩ :=
    Reference.exists_ok (x := crashedAppends) (fun (log, blocks, r, log', blocks', r') =>
      ((∀ block ∈ blocks, block.compressedSize.toNat ≤ frameHeaderLen + maxEncodedBlockBytes) ∧
        blockSum (·.uncompressedSize) ([] ++ blocks) < 2 ^ 64) ∧
      ((∀ block ∈ blocks', block.compressedSize.toNat ≤ frameHeaderLen + maxEncodedBlockBytes) ∧
        blockSum (·.uncompressedSize) (r.blocks ++ blocks') < 2 ^ 64) ∧
      r.blocks.length = 1 ∧ r'.blocks.length = 2 ∧ streamHeaderLen ≤ log'.length)
        (by decide +kernel)
  simp only [crashedAppends, bind_ok, pure_ok, Prod.mk.injEq] at hrun
  obtain ⟨log, hlog, blocks, hblocks, r, hr, log', hlog', blocks', hblocks', r', hr', rfl, rfl, rfl,
    rfl, rfl, rfl⟩ := hrun
  have haccept : acceptLines 64 idRows = .ok idRows := by decide +kernel
  have hlines : InputLines 64 idInput.bytes idRows := inputLines_idInput (by decide) (by decide)
  have hfirst : Written (Reference.idSchema .deltaVarintU64) log (cutRows ⟨1, 64⟩ idRows) :=
    .append .empty rfl hlog hblocks ⟨hframe, hraw⟩ hlines haccept
  have hwritten :=
    Written.append (hfirst.crash 150) hr hlog' hblocks' ⟨hframe', hraw'⟩ hlines haccept
  have hgroups : (cutRows ⟨1, 64⟩ idRows).take 1 ++ cutRows ⟨8, 64⟩ idRows =
      [["\x7b\"id\":1\x7d\n"], idRows] := by decide +kernel
  rw [hkept, hgroups] at hwritten
  obtain ⟨r'', objects, hr'', hobjects, hreplay⟩ :=
    replayJsonlAppendStream_written oneLine_reference hwritten hheader
  rw [hr', Except.ok.injEq] at hr''
  subst hr''
  rw [hkept'] at hobjects hreplay
  obtain rfl : [[("id", .number (.posInt 1))], [("id", .number (.posInt 1))],
      [("id", .number (.posInt 2))]] = objects := Except.ok.inj hobjects
  refine ⟨log, log', _, hlog, hlog', hwritten, (hreplay _).2 ⟨by decide +kernel, ?_⟩⟩
  decide +kernel

end CompactCore.Streaming
