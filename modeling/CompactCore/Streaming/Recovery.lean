/-
**Crashes and recovery of append logs.**

An append log is written by appends, and a crash may cut it off at any byte.  Whatever the order of
appends and crashes, recovery finds the blocks whose frames are still whole, and the next append
goes on behind them.  Recovery also agrees with the strict inspector, which reads the same log with
other code.

Main definitions:

* `CompactCore.Streaming.Reachable` — the logs that appends and crashes lead to, with the blocks
  written.

Main results:

* `CompactCore.Streaming.Reachable.exists_log` — the invariant of these logs;
* `CompactCore.Streaming.recoverAppendStream_reachable` — **recovery after appends and crashes**;
* `CompactCore.Streaming.recoverAppendStream_longest` — **recovery returns the longest prefix that
  the inspector accepts**.
-/

import CompactCore.Streaming.Append
import CompactCore.Reference

set_option relaxedAutoImplicit false
set_option autoImplicit false

namespace CompactCore.Streaming

open Wire CompactError Io

section

variable [Crc32Fast] {data : List UInt8} {blocks : List Block}

/-! ### Recovery and the inspector -/

/-- The valid prefix is an unsealed stream of the blocks recovered. -/
theorem stream_take_streamEnd (hheader : At data 0 writeStreamHeader)
    (hlog : blockLog.Holds data streamHeaderLen blocks) :
    Stream (data.take (streamEnd blocks)) blocks false where
  chain := hlog.1
  data_eq := by
    rw [take_streamEnd hheader hlog, footerOf, if_neg (by decide), List.append_nil]
  length_le h := by cases h

/-- An unsealed stream ends behind its blocks. -/
theorem Stream.length_eq (h : Stream data blocks false) : data.length = streamEnd blocks := by
  rw [h.data_eq, footerOf, if_neg (by decide), List.append_nil, length_header_append]

/-- **Recovery returns the longest prefix that the strict inspector accepts.** -/
theorem recoverAppendStream_longest {r : AppendRecovery} (hfit : Fits data)
    (h : recoverAppendStream data = .ok r) (hvalid : streamHeaderLen ≤ r.validLen.toNat) :
    inspectJsonlStream (data.take r.validLen.toNat) =
        .ok ⟨r.blocks, none, r.totalRows, r.totalUncompressedSize, r.totalCompressedSize⟩ ∧
      (r.blocks.length < maxStreamBlocks →
        ∀ m report, r.validLen.toNat < m → m ≤ data.length →
          inspectJsonlStream (data.take m) = .ok report → report.footerIndex ≠ none) := by
  rcases (recoverAppendStream_ok hfit).1 h with ⟨-, rfl⟩ | ⟨-, -, rfl⟩ |
    ⟨hheader, blocks, hlog, hrows, hraw, rfl⟩
  · exact absurd hvalid (by decide)
  · exact absurd hvalid (by decide)
  · have hholds := (LogFormat.capped_holds.1 hlog.1).1
    have hend : (appendRecoveryOf data blocks).validLen.toNat = streamEnd blocks :=
      toNat_ofNat (lt_of_le_of_lt hholds.le hfit)
    have htake : ∀ m, Fits (data.take m) := fun m =>
      lt_of_le_of_lt (List.length_take_le' m data) hfit
    rw [hend]
    constructor
    · exact (inspectJsonlStream_ok (htake _)).2
        ⟨blocks, false, stream_take_streamEnd hheader hholds, hrows, hraw, rfl⟩
    · intro hcount m report hlt hm hinspect hnone
      rw [appendRecoveryOf, length_metadataFrom] at hcount
      have hcomplete := hlog.of_capped hcount
      obtain ⟨blocks', sealed, hstream, -, -, rfl⟩ := (inspectJsonlStream_ok (htake _)).1 hinspect
      cases sealed with
      | true => cases hnone
      | false =>
          -- a longer unsealed stream would hold a longer log
          have hlen := hstream.length_eq
          rw [List.length_take, Nat.min_eq_left hm] at hlen
          have hholds' := ((LogFormat.holds_take hm).1 hstream.holds).1
          obtain ⟨rest, rfl⟩ := hholds'.isPrefix_complete hcomplete
          rw [hlen, streamEnd, streamEnd, LogFormat.flat_append, List.length_append] at hlt
          omega

/-! ### The blocks of a log lie where their metadata says -/

/-- Where the frame of a block ends. -/
def BlockMetadata.endOffset (block : BlockMetadata) : ℕ :=
  block.encodedOffset.toNat + block.compressedSize.toNat

/-- The blocks are numbered, and their frames lie in the log without gaps in bytes or rows. -/
def Contiguous (log : List UInt8) (blocks : List BlockMetadata) : Prop :=
  ∀ i block, blocks[i]? = some block →
    block.blockIndex.toNat = i ∧
    block.encodedOffset.toNat =
      streamHeaderLen + blockSum (·.compressedSize) (blocks.take i) ∧
    ∃ payload parsed,
      openFrame ((log.drop block.encodedOffset.toNat).take block.compressedSize.toNat) =
        .ok (payload, parsed) ∧
      parsed.blockIndex = block.blockIndex ∧ parsed.rowCount = block.rowCount.toNat ∧
      parsed.firstRowIndex.toNat = blockSum (·.rowCount) (blocks.take i)

/-- The blocks that have been written and whose frames lie completely inside a log. -/
def whole (log : List UInt8) (written : List BlockMetadata) : List BlockMetadata :=
  written.filter fun block => block.endOffset ≤ log.length

theorem contiguous_nil (log : List UInt8) : Contiguous log [] := by
  intro i block h
  cases h

theorem Block.metadata_offset {block : Block} {offset : ℕ} (h : offset < 2 ^ 64) :
    (block.metadata offset).encodedOffset.toNat = offset := toNat_ofNat h

theorem Block.metadata_size {block : Block} {offset : ℕ} (h : block.frame.length < 2 ^ 64) :
    (block.metadata offset).compressedSize.toNat = block.frame.length := toNat_ofNat h

theorem contiguous_metadata (hfit : Fits data) (hlog : blockLog.Holds data streamHeaderLen blocks) :
    Contiguous data (metadataFrom streamHeaderLen blocks) := by
  intro i entry hentry
  -- the block with this number, and the blocks before it
  obtain ⟨before, block, after, rfl, rfl⟩ :
      ∃ before block after, blocks = before ++ block :: after ∧
      before.length = i := by
    have hi : i < blocks.length := by
      rw [← length_metadataFrom streamHeaderLen blocks]
      exact (List.getElem?_eq_some_iff.1 hentry).1
    exact ⟨blocks.take i, blocks[i], blocks.drop (i + 1), by simp, by simp; omega⟩
  have hsnoc : blockLog.Holds data streamHeaderLen (before ++ [block]) := by
    rw [List.append_cons] at hlog
    exact hlog.of_append
  obtain ⟨hbefore, ⟨-, hindex, hfirst⟩, hat⟩ := LogFormat.holds_snoc.1 hsnoc
  have hlen := length_metadataFrom streamHeaderLen before
  rw [metadataFrom_append, metadataFrom, List.getElem?_append_right (by omega), hlen,
    Nat.sub_self, List.getElem?_cons_zero, Option.some.injEq] at hentry
  subst hentry
  have htake : (metadataFrom streamHeaderLen (before ++ block :: after)).take before.length =
      metadataFrom streamHeaderLen before := by
    rw [metadataFrom_append, List.take_left' hlen]
  have hend := hat.le
  rw [blockLog_bytes] at hend
  have hword : data.length < 2 ^ 64 := hfit
  rw [htake, blockSum_compressedSize (by omega), blockSum_rowCount,
    Block.metadata_offset (by omega), Block.metadata_size (by omega)]
  refine ⟨hindex, rfl, block.payload, block.parsed, ?_, rfl, rfl, hfirst⟩
  have hslice := hat.slice
  rw [blockLog_bytes] at hslice
  rw [hslice]
  exact (record_block hfit hsnoc).2.1

theorem mem_metadataFrom {offset : ℕ} {entry : BlockMetadata} :
    entry ∈ metadataFrom offset blocks ↔ ∃ before block after, blocks = before ++ block :: after ∧
      entry = block.metadata (offset + (blockLog.flat before).length) := by
  induction blocks generalizing offset with
  | nil => simp [metadataFrom]
  | cons block blocks ih =>
      rw [metadataFrom, List.mem_cons, ih]
      constructor
      · intro h
        rcases h with rfl | ⟨before, block', after, rfl, rfl⟩
        · exact ⟨[], block, blocks, rfl, rfl⟩
        · refine ⟨block :: before, block', after, rfl, ?_⟩
          rw [LogFormat.flat_cons, List.length_append, ← Nat.add_assoc, blockLog_bytes]
      · intro h
        obtain ⟨before, block', after, heq, rfl⟩ := h
        cases before with
        | nil =>
            obtain ⟨rfl, -⟩ := List.cons_eq_cons.1 heq
            exact Or.inl rfl
        | cons first before =>
            obtain ⟨rfl, rfl⟩ := List.cons_eq_cons.1 heq
            refine Or.inr ⟨before, block', after, rfl, ?_⟩
            rw [LogFormat.flat_cons, List.length_append, ← Nat.add_assoc, blockLog_bytes]

/-- Of the blocks of a log that has been cut off, those before the cut are whole. -/
theorem whole_metadata {log : List UInt8} {before after : List Block}
    (hfit : streamEnd (before ++ after) < 2 ^ 64)
    (hbefore : before = [] ∨ streamEnd before ≤ log.length)
    (hafter : ∀ block rest, after = block :: rest →
      log.length < streamEnd before + block.frame.length) :
    whole log (metadataFrom streamHeaderLen (before ++ after)) =
      metadataFrom streamHeaderLen before := by
  have hword := hfit
  rw [streamEnd, LogFormat.flat_append, List.length_append] at hword
  rw [whole, metadataFrom_append, List.filter_append]
  have hkeep : (metadataFrom streamHeaderLen before).filter
      (fun block => block.endOffset ≤ log.length) = metadataFrom streamHeaderLen before := by
    rw [List.filter_eq_self]
    intro entry hentry
    obtain ⟨pre, block, post, rfl, rfl⟩ := mem_metadataFrom.1 hentry
    rcases hbefore with hnil | hle
    · simp at hnil
    · rw [streamEnd, LogFormat.flat_append, LogFormat.flat_cons, List.length_append,
        List.length_append, blockLog_bytes] at hle
      rw [LogFormat.flat_append, LogFormat.flat_cons, List.length_append, List.length_append,
        blockLog_bytes] at hword
      rw [decide_eq_true_eq, BlockMetadata.endOffset, Block.metadata_offset (by omega),
        Block.metadata_size (by omega)]
      omega
  have hdrop : (metadataFrom (streamHeaderLen + (blockLog.flat before).length) after).filter
      (fun block => block.endOffset ≤ log.length) = [] := by
    rw [List.filter_eq_nil_iff]
    intro entry hentry hle
    obtain ⟨pre, block, post, rfl, rfl⟩ := mem_metadataFrom.1 hentry
    rw [LogFormat.flat_append, LogFormat.flat_cons, List.length_append, List.length_append,
      blockLog_bytes] at hword
    rw [decide_eq_true_eq, BlockMetadata.endOffset, Block.metadata_offset (by omega),
      Block.metadata_size (by omega)] at hle
    cases pre with
    | nil =>
        have hlt := hafter block post rfl
        rw [streamEnd] at hlt
        omega
    | cons first pre =>
        have hlt := hafter first _ rfl
        rw [streamEnd] at hlt
        rw [LogFormat.flat_cons, List.length_append, blockLog_bytes] at hle
        omega
  rw [hkeep, hdrop, List.append_nil]

/-! ### What recovery finds in a log that has been cut off -/

/-- A byte string is what a crash has left of the log of some blocks. -/
structure Torn (log : List UInt8) (all : List Block) : Prop where
  chain : blockLog.Chain [] all
  count_le : all.length ≤ maxStreamBlocks
  rows_lt : blockRows all < 2 ^ 64
  raw_lt : blockRaw all < 2 ^ 64
  fits : streamEnd all < 2 ^ 64
  eq_take : ∃ n, log = (writeStreamHeader ++ blockLog.flat all).take n

theorem Torn.take {log : List UInt8} {all : List Block} (h : Torn log all) (n : ℕ) :
    Torn (log.take n) all := by
  obtain ⟨m, hm⟩ := h.eq_take
  refine ⟨h.chain, h.count_le, h.rows_lt, h.raw_lt, h.fits, min n m, ?_⟩
  rw [hm, List.take_take]

theorem Torn.fit {log : List UInt8} {all : List Block} (h : Torn log all) :
    log.length ≤ streamEnd all ∧ Fits log := by
  obtain ⟨n, hn⟩ := h.eq_take
  have hle := List.length_take_le' n (writeStreamHeader ++ blockLog.flat all)
  rw [← hn, length_header_append] at hle
  exact ⟨hle, lt_of_le_of_lt hle h.fits⟩

/-- A log that has been cut off has its header, unless the cut is in it. -/
theorem Torn.header_iff {log : List UInt8} {all : List Block} (h : Torn log all) :
    At log 0 writeStreamHeader ↔ ¬log.length < streamHeaderLen := by
  constructor
  · intro hat
    exact Nat.not_lt.2 (header_le hat)
  · intro hlen
    obtain ⟨n, rfl⟩ := h.eq_take
    have hfull : At (writeStreamHeader ++ blockLog.flat all) 0 writeStreamHeader :=
      at_mid [] writeStreamHeader _
    refine hfull.take ?_
    rw [List.length_take] at hlen
    rw [length_writeStreamHeader, Nat.zero_add]
    omega

/-- The log of some blocks, with nothing cut off. -/
theorem complete_full {all : List Block} (h : blockLog.Chain [] all) :
    blockLog.Complete (writeStreamHeader ++ blockLog.flat all) streamHeaderLen all := by
  have hholds : blockLog.Holds (writeStreamHeader ++ blockLog.flat all) streamHeaderLen all := by
    refine ⟨h, ?_⟩
    have hat := at_mid writeStreamHeader (blockLog.flat all) []
    rwa [List.append_nil, length_writeStreamHeader] at hat
  refine hholds.complete ?_
  rw [length_header_append, streamEnd]

/-- **Recovery finds the blocks before the cut.** -/
theorem Torn.recovered {log : List UInt8} {all : List Block} (h : Torn log all) :
    ∃ before after, all = before ++ after ∧ Recovered log before ∧
      whole log (metadataFrom streamHeaderLen all) = metadataFrom streamHeaderLen before := by
  obtain ⟨n, hn⟩ := h.eq_take
  have hfull : At (writeStreamHeader ++ blockLog.flat all) 0 writeStreamHeader :=
    at_mid [] writeStreamHeader _
  have hlen := h.fit.1
  have hlog : log = (writeStreamHeader ++ blockLog.flat all).take log.length := by
    conv_lhs => rw [hn]
    rw [hn, List.length_take, List.take_eq_take_iff]
    simp
  by_cases hshort : log.length < streamHeaderLen
  · refine ⟨[], all, rfl, Or.inl ⟨fun hat => ?_, rfl⟩,
      @whole_metadata _ log [] all h.fits (Or.inl rfl) ?_⟩
    · have := header_le hat
      omega
    · intro block rest _
      exact lt_of_lt_of_le hshort (Nat.le_add_right _ _ |>.trans (Nat.le_add_right _ _))
  · obtain ⟨before, after, rfl, hbefore, hafter⟩ := LogFormat.exists_cut blockLog all
      (Nat.le_of_not_lt hshort)
    refine ⟨before, after, rfl, Or.inr ⟨?_, ?_⟩, whole_metadata h.fits (Or.inr hbefore) hafter⟩
    · rw [hlog]
      exact hfull.take (by rw [length_writeStreamHeader, Nat.zero_add]; omega)
    · have hcut := (complete_full h.chain).take (n := log.length)
        (by rwa [length_header_append]) hbefore hafter
      rw [← hlog] at hcut
      refine hcut.capped ?_
      have hcount := h.count_le
      rw [List.length_append] at hcount
      omega

/-- What recovery reports of the blocks that it finds. -/
theorem Recovered.recover {log : List UInt8} {old : List Block} (h : Recovered log old)
    (hfit : Fits log) (hrows : blockRows old < 2 ^ 64) (hraw : blockRaw old < 2 ^ 64) :
    ∃ r, recoverAppendStream log = .ok r ∧ r.blocks = metadataFrom streamHeaderLen old ∧
      r.validLen.toNat = (if At log 0 writeStreamHeader then streamEnd old else 0) ∧
      (r.truncatedOrCorruptTail = true ↔ r.validLen.toNat < log.length) := by
  rcases h with ⟨hheader, rfl⟩ | ⟨hheader, hlog⟩
  · rw [if_neg hheader]
    by_cases hnil : log = []
    · subst hnil
      exact ⟨_, (recoverAppendStream_ok hfit).2 (Or.inl ⟨rfl, rfl⟩), rfl, rfl, by simp⟩
    · refine ⟨_, recoverAppendStream_corrupt hnil hheader, rfl, rfl, ?_⟩
      simpa [emptyCorruptRecovery] using List.length_pos_of_ne_nil hnil
  · have hend : streamEnd old < 2 ^ 64 :=
      lt_of_le_of_lt (LogFormat.capped_holds.1 hlog.1).1.le hfit
    refine ⟨_, (recoverAppendStream_complete hfit hheader hlog).1 ⟨hrows, hraw⟩, rfl, ?_, ?_⟩
    · rw [if_pos hheader]
      exact toNat_ofNat hend
    · rw [appendRecoveryOf, decide_eq_true_eq, toNat_ofNat hend]

theorem Recovered.unique {log : List UInt8} {old old' : List Block} (h : Recovered log old)
    (h' : Recovered log old') : old = old' := by
  rcases h with ⟨hheader, rfl⟩ | ⟨hheader, hlog⟩ <;>
    rcases h' with ⟨hheader', rfl⟩ | ⟨hheader', hlog'⟩
  · rfl
  · exact absurd hheader' hheader
  · exact absurd hheader hheader'
  · exact LogFormat.complete_unique hlog hlog'

/-! ### Appends and crashes -/

variable [SerdeJson]

/-- The limits that an append keeps: no frame payload is larger than what recovery accepts, and the
raw bytes of the log stay below `2 ^ 64`. -/
structure AppendLimits (kept blocks : List BlockMetadata) : Prop where
  frame_le : ∀ block ∈ blocks,
    block.compressedSize.toNat ≤ frameHeaderLen + maxEncodedBlockBytes
  raw_lt : blockSum (·.uncompressedSize) (kept ++ blocks) < 2 ^ 64

/-- The logs that appends and crashes lead to, with the blocks that have been written.  A block
whose frame a crash has cut off is gone once an append has gone on in its place. -/
inductive Reachable : List UInt8 → List BlockMetadata → Prop
  | empty : Reachable [] []
  | append {log log' : List UInt8} {written blocks : List BlockMetadata} {input : BufRead}
      {schema : Schema} {options : BlockOptions} (h : Reachable log written)
      (run : appendJsonlStream log input schema options = .ok log')
      (writes : appendedBlocks log input schema options = .ok blocks)
      (limits : AppendLimits (whole log written) blocks) :
      Reachable log' (whole log written ++ blocks)
  | crash {log : List UInt8} {written : List BlockMetadata} (h : Reachable log written) (n : ℕ) :
      Reachable (log.take n) written

/-- What an append makes of a log that has been cut off. -/
theorem Torn.append {log log' : List UInt8} {all : List Block} {blocks : List BlockMetadata}
    {input : BufRead} {schema : Schema} {options : BlockOptions} (h : Torn log all)
    (hrun : appendJsonlStream log input schema options = .ok log')
    (hblocks : appendedBlocks log input schema options = .ok blocks)
    (hlimits : AppendLimits (whole log (metadataFrom streamHeaderLen all)) blocks) :
    ∃ old new, Recovered log old ∧ Torn log' (old ++ new) ∧
      log' = writeStreamHeader ++ blockLog.flat (old ++ new) ∧
      whole log (metadataFrom streamHeaderLen all) = metadataFrom streamHeaderLen old ∧
      blocks = metadataFrom (streamEnd old) new := by
  obtain ⟨old, after, hall, hold, hwhole⟩ := h.recovered
  have hfit := h.fit.2
  obtain ⟨lines, rows, old', new, -, -, hold', hencoded, hlog', hfit', rfl, hrows, hcount⟩ :=
    appendJsonlStream_ok hfit hrun hblocks
  rw [← hold.unique hold'] at hencoded hlog' hrows hcount hlimits ⊢
  have hend : streamEnd (old ++ new) < 2 ^ 64 := by
    rw [hlog', Fits, length_header_append] at hfit'
    exact hfit'
  have hmax : ∀ block ∈ new, block.payload.length ≤ maxEncodedBlockBytes := by
    intro block hblock
    obtain ⟨pre, post, rfl⟩ := List.append_of_mem hblock
    have hle := hlimits.frame_le _ (mem_metadataFrom.2 ⟨pre, block, post, rfl, rfl⟩)
    have hlen : block.frame.length < 2 ^ 64 := by
      rw [streamEnd, LogFormat.flat_append, LogFormat.flat_append, LogFormat.flat_cons,
        List.length_append, List.length_append, List.length_append, blockLog_bytes] at hend
      omega
    rw [Block.metadata_size hlen, block.length_frame] at hle
    omega
  have hraw := hlimits.raw_lt
  rw [hwhole, streamEnd, ← metadataFrom_append, blockSum_uncompressedSize] at hraw
  have hchain : blockLog.Chain [] (old ++ new) := by
    refine LogFormat.chain_append.2 ⟨?_, hencoded.chain hmax⟩
    have hchain := h.chain
    rw [hall] at hchain
    exact (LogFormat.chain_append.1 hchain).1
  refine ⟨old, new, hold, ⟨hchain, hcount, hrows, hraw, hend, ?_⟩, hlog', hwhole, rfl⟩
  exact ⟨log'.length, by rw [← hlog', List.take_length]⟩

/-- **The invariant of appends and crashes.** -/
theorem Reachable.exists_log {log : List UInt8} {written : List BlockMetadata}
    (h : Reachable log written) :
    ∃ all, Torn log all ∧ written = metadataFrom streamHeaderLen all := by
  induction h with
  | empty =>
      have hend : streamEnd [] < 2 ^ 64 := by
        show streamHeaderLen + 0 < 2 ^ 64
        decide
      exact ⟨[], ⟨trivial, by decide, by decide, by decide, hend, 0, rfl⟩, rfl⟩
  | append _ hrun hblocks hlimits ih =>
      obtain ⟨all, htorn, rfl⟩ := ih
      obtain ⟨old, new, -, htorn', -, hwhole, rfl⟩ := htorn.append hrun hblocks hlimits
      refine ⟨old ++ new, htorn', ?_⟩
      rw [hwhole, metadataFrom_append, streamEnd]
  | crash _ n ih =>
      obtain ⟨all, htorn, hwritten⟩ := ih
      exact ⟨all, htorn.take n, hwritten⟩

/-- Every append that succeeds writes some blocks. -/
theorem exists_appendedBlocks {log log' : List UInt8} {input : BufRead} {schema : Schema}
    {options : BlockOptions} (h : appendJsonlStream log input schema options = .ok log') :
    ∃ blocks, appendedBlocks log input schema options = .ok blocks := by
  simp only [appendJsonlStream, JsonlBlockWriter.finishWithoutFooter, bind_ok, pure_ok] at h
  obtain ⟨w, hw, w', hflush, -⟩ := h
  exact ⟨w'.metadata, by simp only [appendedBlocks, hw, hflush, bind_ok, pure_ok, Except.ok.injEq,
    exists_eq_left']⟩

omit [SerdeJson] in
/-- The last block of a log ends where the log does. -/
theorem endOffset_getLast? (h : streamEnd blocks < 2 ^ 64) :
    ((metadataFrom streamHeaderLen blocks).getLast?.map BlockMetadata.endOffset).getD
      streamHeaderLen = streamEnd blocks := by
  induction blocks using List.reverseRecOn with
  | nil => rfl
  | append_singleton blocks block _ =>
      have hend := streamEnd_snoc blocks block
      rw [metadataFrom_append, metadataFrom, metadataFrom, List.getLast?_concat, Option.map_some,
        Option.getD_some, BlockMetadata.endOffset,
        show streamHeaderLen + (blockLog.flat blocks).length = streamEnd blocks from rfl,
        Block.metadata_offset (by omega), Block.metadata_size (by omega), hend]

/-- **Append-log crash safety.** -/
theorem recoverAppendStream_reachable {log : List UInt8} {written : List BlockMetadata}
    (h : Reachable log written) :
    ∃ r, recoverAppendStream log = .ok r ∧ r.blocks = whole log written ∧
      Contiguous log r.blocks ∧
      r.validLen.toNat =
        (if log.length < streamHeaderLen then 0
          else (r.blocks.getLast?.map BlockMetadata.endOffset).getD streamHeaderLen) ∧
      (r.truncatedOrCorruptTail = true ↔ r.validLen.toNat < log.length) ∧
      ∀ input schema options log', appendJsonlStream log input schema options = .ok log' →
        ∃ blocks, appendedBlocks log input schema options = .ok blocks ∧
          (AppendLimits r.blocks blocks →
            log.take r.validLen.toNat <+: log' ∧
            ∃ r', recoverAppendStream log' = .ok r' ∧ r'.blocks = r.blocks ++ blocks ∧
              r'.truncatedOrCorruptTail = false) := by
  obtain ⟨all, htorn, rfl⟩ := h.exists_log
  obtain ⟨old, after, hall, hold, hwhole⟩ := htorn.recovered
  have hfit := htorn.fit.2
  have hrows := htorn.rows_lt
  have hraw := htorn.raw_lt
  have hend := htorn.fits
  rw [hall, blockRows_append] at hrows
  rw [hall, blockRaw_append] at hraw
  rw [hall, streamEnd, LogFormat.flat_append, List.length_append, ← Nat.add_assoc,
    ← streamEnd] at hend
  obtain ⟨r, hr, hblocks, hvalid, htail⟩ := hold.recover hfit (by omega) (by omega)
  refine ⟨r, hr, by rw [hblocks, hwhole], ?_, ?_, htail, ?_⟩
  · rw [hblocks]
    rcases hold with ⟨-, rfl⟩ | ⟨-, hlog⟩
    · exact contiguous_nil log
    · exact contiguous_metadata hfit (LogFormat.capped_holds.1 hlog.1).1
  · rw [hvalid, hblocks, endOffset_getLast? (by omega)]
    by_cases hshort : log.length < streamHeaderLen
    · rw [if_pos hshort, if_neg fun hat => htorn.header_iff.1 hat hshort]
    · rw [if_neg hshort, if_pos (htorn.header_iff.2 hshort)]
  · intro input schema options log' hrun
    obtain ⟨blocks, hwrites⟩ := exists_appendedBlocks hrun
    refine ⟨blocks, hwrites, fun hlimits => ?_⟩
    rw [hblocks, ← hwhole] at hlimits
    obtain ⟨old', new, hold', htorn', hlog', -, hnew⟩ := htorn.append hrun hwrites hlimits
    rw [← hold.unique hold'] at htorn' hlog' hnew
    constructor
    · -- the kept bytes are the header and the old blocks
      rw [hvalid]
      split
      · rename_i hheader
        rcases hold with ⟨hbad, -⟩ | ⟨-, hlog⟩
        · exact absurd hheader hbad
        · rw [take_streamEnd hheader (LogFormat.capped_holds.1 hlog.1).1, hlog',
            LogFormat.flat_append, ← List.append_assoc]
          exact List.prefix_append ..
      · exact List.nil_prefix
    · have hheader' : At log' 0 writeStreamHeader := by
        rw [hlog']
        exact at_mid [] writeStreamHeader _
      have hfull : Recovered log' (old ++ new) := by
        have hcomplete := complete_full htorn'.chain
        rw [← hlog'] at hcomplete
        exact Or.inr ⟨hheader', hcomplete.capped htorn'.count_le⟩
      obtain ⟨r', hr', hblocks', hvalid', htail'⟩ :=
        hfull.recover htorn'.fit.2 htorn'.rows_lt htorn'.raw_lt
      refine ⟨r', hr', ?_, ?_⟩
      · rw [hblocks', hblocks, hnew, metadataFrom_append, streamEnd]
      · rw [← Bool.not_eq_true, htail', hvalid', if_pos hheader', hlog', length_header_append]
        exact lt_irrefl _

/-- **Replaying a log gives the texts of the blocks that are recovered.** -/
theorem replayJsonlAppendStream_ok {schema : Schema} {output : List UInt8} (hfit : Fits data) :
    replayJsonlAppendStream data schema = .ok output ↔
      At data 0 writeStreamHeader ∧ ∃ blocks texts,
        appendLog.Complete data streamHeaderLen blocks ∧ blockRows blocks < 2 ^ 64 ∧
        blockRaw blocks < 2 ^ 64 ∧ DecodesTo schema blocks texts ∧
        output = texts.flatMap asBytes := by
  simp only [replayJsonlAppendStream, JsonlBlockReader.newWithMode, bind_ok, Prod.exists, pure_ok]
  constructor
  · intro h
    obtain ⟨r, hr, _, ⟨_, _, hcheck, rfl⟩, final, hrun, hout⟩ := h
    have hfit' : Fits (data.take r.validLen.toNat) :=
      lt_of_le_of_lt (List.length_take_le' _ data) hfit
    have hheader := ((validateStreamHeader_ok hfit').1 hcheck).1
    rcases (recoverAppendStream_ok hfit).1 hr with ⟨rfl, rfl⟩ | ⟨-, -, rfl⟩ |
      ⟨hheader', blocks, hlog, hrows, hraw, rfl⟩
    · exact absurd (header_le hheader) (by decide)
    · exact absurd (header_le hheader) (by simp [emptyCorruptRecovery, streamHeaderLen])
    · have hholds := (LogFormat.capped_holds.1 hlog.1).1
      have hvalid : (appendRecoveryOf data blocks).validLen.toNat = streamEnd blocks :=
        toNat_ofNat (lt_of_le_of_lt hholds.le hfit)
      obtain ⟨blocks', sealed, texts, hstream, -, -, htexts, hout⟩ :=
        (decodeLoop_ok hfit' hheader).1 ⟨final, hrun, hout⟩
      rw [hvalid] at hstream hfit'
      have heq := LogFormat.complete_unique (hstream.complete hfit')
        ((stream_take_streamEnd hheader' hholds).complete hfit')
      rw [heq] at htexts
      exact ⟨hheader', blocks, texts, hlog, hrows, hraw, htexts, hout⟩
  · intro h
    obtain ⟨hheader, blocks, texts, hlog, hrows, hraw, htexts, rfl⟩ := h
    have hholds := (LogFormat.capped_holds.1 hlog.1).1
    have hvalid : (appendRecoveryOf data blocks).validLen.toNat = streamEnd blocks :=
      toNat_ofNat (lt_of_le_of_lt hholds.le hfit)
    have hstream := stream_take_streamEnd hheader hholds
    have hfit' : Fits (data.take (streamEnd blocks)) :=
      lt_of_le_of_lt (List.length_take_le' _ data) hfit
    obtain ⟨final, hrun, hout⟩ := (decodeLoop_ok hfit' hstream.header).2
      ⟨blocks, false, texts, hstream, fun h => h.symm ▸ rfl, hrows, htexts, rfl⟩
    refine ⟨_, (recoverAppendStream_complete hfit hheader hlog).1 ⟨hrows, hraw⟩, ?_⟩
    rw [hvalid]
    exact ⟨_, ⟨(), _, (validateStreamHeader_ok hfit').2 ⟨hstream.header, rfl⟩, rfl⟩, final, hrun,
      hout⟩

end

open scoped CompactCore.Reference

/-- A block, and a few bytes of the next one. -/
def tornLog : List UInt8 := writeStreamHeader ++ (Block.frame ⟨0, 0, 7, 0, []⟩ ++ magicV1)

theorem recoverAppendStream_longest_one_block : ∃ r, recoverAppendStream tornLog = .ok r ∧
    r.blocks.length = 1 ∧ r.validLen.toNat < tornLog.length ∧
    inspectJsonlStream (tornLog.take r.validLen.toNat) =
      .ok ⟨r.blocks, none, r.totalRows, r.totalUncompressedSize, r.totalCompressedSize⟩ ∧
    ∀ m report, r.validLen.toNat < m → m ≤ tornLog.length →
      inspectJsonlStream (tornLog.take m) = .ok report → report.footerIndex ≠ none := by
  obtain ⟨r, hr, hvalid, hlt, hlen⟩ := Reference.exists_ok (x := recoverAppendStream tornLog)
    (fun r => streamHeaderLen ≤ r.validLen.toNat ∧ r.validLen.toNat < tornLog.length ∧
      r.blocks.length = 1) (by decide +kernel)
  obtain ⟨hinspect, hlonger⟩ := recoverAppendStream_longest (by decide +kernel) hr hvalid
  have hcount : r.blocks.length < maxStreamBlocks := by
    rw [hlen]
    decide
  exact ⟨r, hr, hlen, hlt, hinspect, hlonger hcount⟩

/-- An append of two rows, and a crash in the middle of the second block. -/
theorem recoverAppendStream_reachable_crash : ∃ log r,
    appendJsonlStream [] idInput (Reference.idSchema .deltaVarintU64) ⟨1, 64⟩ = .ok log ∧
      recoverAppendStream (log.take 100) = .ok r ∧ Contiguous (log.take 100) r.blocks ∧
      (r.truncatedOrCorruptTail = true ↔ r.validLen.toNat < (log.take 100).length) := by
  obtain ⟨log, hlog⟩ := Reference.exists_ok
    (x := appendJsonlStream [] idInput (Reference.idSchema .deltaVarintU64) ⟨1, 64⟩)
    (fun _ => True) (by decide +kernel)
  obtain ⟨blocks, hblocks, hframe, hraw⟩ := Reference.exists_ok
    (x := appendedBlocks [] idInput (Reference.idSchema .deltaVarintU64) ⟨1, 64⟩)
    (fun blocks => (∀ block ∈ blocks,
      block.compressedSize.toNat ≤ frameHeaderLen + maxEncodedBlockBytes) ∧
        blockSum (·.uncompressedSize) (whole [] [] ++ blocks) < 2 ^ 64) (by decide +kernel)
  obtain ⟨r, hr, -, hcontiguous, -, htail, -⟩ := recoverAppendStream_reachable
    (Reachable.crash (Reachable.append .empty hlog.1 hblocks ⟨hframe, hraw⟩) 100)
  exact ⟨log, r, hlog.1, hr, hcontiguous, htail⟩

end CompactCore.Streaming
