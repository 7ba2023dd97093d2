/-
**A log that several processes append to.**

`stream-append` reads a log, appends to a copy and renames the copy.  So a log that only this
command writes is complete at any time: recovery finds no torn tail in it, and the blocks that it
had at the start are still in front.  What it does not promise is that no append gets lost: of two
processes that read the same version, the one that renames last wins.

Main definitions:

* `CompactCore.Cli.AppendsOnly` — only `stream-append` writes a log, within the limits of recovery.

Main results:

* `CompactCore.Cli.session_log` — **a log is complete at any time**;
* `CompactCore.Cli.streamAppend_runs` — **an append that nothing gets in the way of succeeds**, and
  its output is what the library makes of the files that it has read.
-/

import CompactCore.Cli.Commands
import CompactCore.Streaming.Replay

set_option relaxedAutoImplicit false
set_option autoImplicit false

namespace CompactCore.Cli

open Wire Files Streaming Io

section

variable [Crc32Fast] [SerdeJson] {initial : Path → Option (List UInt8)}
  {Runs : UInt32 → Command → Prop} {log : Path}

/-! ### Logs are complete -/

/-- Only `stream-append` writes to a log, with row groups of at most `maxRaw` bytes that are small
enough for the readers. -/
structure AppendsOnly (initial : Path → Option (List UInt8)) (Runs : UInt32 → Command → Prop)
    (log : Path) (maxRaw : ℕ) : Prop where
  countable : maxStreamBlocks * maxRaw < 2 ^ 64
  only : ∀ pid command, Runs pid command → command.replaces = some log →
    ∃ input schema blockRows blockBytes buffering,
      command = .streamAppend input log schema blockRows blockBytes buffering
  options_le : ∀ {pid input schema blockRows blockBytes buffering options},
    Runs pid (.streamAppend input log schema blockRows blockBytes buffering) →
    blockOptions blockRows blockBytes = .ok options →
    options.maxUncompressedBytesPerBlock ≤ maxRaw
  readable : ∀ {pid input schema blockRows blockBytes buffering options text lines rows},
    Runs pid (.streamAppend input log schema blockRows blockBytes buffering) →
    blockOptions blockRows blockBytes = .ok options → Version initial Runs input (some text) →
    InputLines options.maxUncompressedBytesPerBlock text lines →
    acceptLines options.maxUncompressedBytesPerBlock lines = .ok rows →
    GroupsReadable schema options rows

/-- **Every version of a log is complete**, and it has the first blocks in front. -/
theorem Version.wholeLog {path : Path} {content : Option (List UInt8)} {first : List Block}
    {maxRaw : ℕ} (h : Version initial Runs path content) (hpath : path = log)
    (hwriters : AppendsOnly initial Runs log maxRaw)
    (hfirst : WholeLog ((initial log).getD []) first)
    (hraw : ∀ block ∈ first, block.rawSize.toNat ≤ maxRaw) :
    ∃ blocks, WholeLog (content.getD []) blocks ∧ first <+: blocks ∧
      ∀ block ∈ blocks, block.rawSize.toNat ≤ maxRaw := by
  induction h with
  | initial =>
      subst hpath
      exact ⟨first, hfirst, List.prefix_refl _, hraw⟩
  | @appended _ _ _ _ _ _ buffering _ _ text _ hruns hvalid _ hsource happend ih _ =>
      subst hpath
      obtain ⟨blocks, hwhole, hprefix, hblocks⟩ := ih rfl
      have hoptions : BlockOptions.validate _ = .ok _ := hvalid
      obtain ⟨-, -, rfl⟩ := BlockOptions.validate_ok.1 hoptions
      obtain ⟨new, hnew, hall⟩ := hwhole.append hwriters.countable hblocks hoptions
        (hwriters.options_le hruns hvalid) happend fun lines rows hlines haccept => by
          rw [buffering.bytes_read] at hlines
          exact hwriters.readable hruns hvalid hsource hlines haccept
      exact ⟨blocks ++ new, hnew, hprefix.trans (List.prefix_append ..), hall⟩
  | encoded hruns =>
      obtain ⟨_, _, _, _, _, hcommand⟩ := hwriters.only _ _ hruns (congrArg some hpath)
      cases hcommand
  | decoded hruns =>
      obtain ⟨_, _, _, _, _, hcommand⟩ := hwriters.only _ _ hruns (congrArg some hpath)
      cases hcommand

/-- A file that no command writes has one version. -/
theorem Version.unwritten {path : Path} {content : Option (List UInt8)}
    (h : Version initial Runs path content)
    (hpath : ∀ pid command, Runs pid command → command.replaces ≠ some path) :
    content = initial path := by
  cases h with
  | initial => rfl
  | appended hruns => exact absurd rfl (hpath _ _ hruns)
  | encoded hruns => exact absurd rfl (hpath _ _ hruns)
  | decoded hruns => exact absurd rfl (hpath _ _ hruns)

/-- **A log is complete at any time.**  If only `stream-append` writes to it, then, whatever the
order of the calls, the failures, the processes that are killed and the power failures, recovery
finds no torn tail in it, and the blocks that it had at the start are in front. -/
theorem session_log {disk : Disk Path UInt32}
    {world : World Os UInt32 Command (Except Failure Unit)} {r : AppendRecovery} {maxRaw : ℕ}
    (hdisk : Quiescent disk)
    (hnames : NamesKept disk.content Runs) (hsession : Session Runs disk world)
    (hlog : ¬Reserved disk.content Runs log)
    (hwriters : AppendsOnly disk.content Runs log maxRaw) (hfit : Fits ((disk.content log).getD []))
    (hrecover : recoverAppendStream ((disk.content log).getD []) = .ok r)
    (htail : r.truncatedOrCorruptTail = false)
    (hraw : ∀ block ∈ r.blocks, block.uncompressedSize.toNat ≤ maxRaw) :
    (disk.content log ≠ none → world.state.content log ≠ none) ∧
      ∃ r', recoverAppendStream ((world.state.content log).getD []) = .ok r' ∧
        r'.truncatedOrCorruptTail = false ∧
        r'.validLen.toNat = ((world.state.content log).getD []).length ∧
          r.blocks <+: r'.blocks := by
  have hversion := (hsession.inv hdisk hnames).content hlog
  obtain ⟨first, hfirst, hblocks⟩ := WholeLog.of_recover hfit hrecover htail
  have hsizes : ∀ block ∈ first, block.rawSize.toNat ≤ maxRaw := by
    intro block hblock
    obtain ⟨before, after, rfl⟩ := List.append_of_mem hblock
    exact hraw _ (hblocks ▸ mem_metadataFrom.2 ⟨before, block, after, rfl, rfl⟩)
  obtain ⟨_, hwhole, hprefix, -⟩ := hversion.wholeLog rfl hwriters hfirst hsizes
  obtain ⟨more, rfl⟩ := hprefix
  obtain ⟨r', hr', hblocks', htail', hlen⟩ := hwhole.recover
  refine ⟨hversion.ne_none, r', hr', htail', hlen, ?_⟩
  rw [hblocks, hblocks', metadataFrom_append]
  exact List.prefix_append ..

/-! ### Appends that nothing gets in the way of -/

omit [Crc32Fast] [SerdeJson] in
theorem readExisting_runs (disk : Disk Path UInt32) (output : Path) :
    ∃ events,
      (readExisting output).Runs disk disk events (.ok ((disk.content output).getD [])) := by
  rw [Disk.content]
  cases hentry : disk.entries output with
  | none => exact ⟨_, .call (.notFound hentry) .done⟩
  | some i => exact ⟨_, .call (.opened hentry) (.call .gotten .done)⟩

omit [Crc32Fast] [SerdeJson] in
/-- A file is written, synced and renamed. -/
theorem atomicWriteBytes_runs {disk : Disk Path UInt32} (pid : UInt32) {output : Path}
    (bytes : List UInt8) (hdisk : ∀ path i, disk.entries path = some i → i < disk.unused)
    (houtput : ¬output.IsTemporary)
    (hfree : disk.entries (output.temporarySibling pid (disk.counters pid)) = none) :
    ∃ disk' events, (atomicWriteBytes pid output bytes).Runs disk disk' events (.ok ()) ∧
      disk'.content output = some bytes ∧
      ∀ path, path ≠ output → disk'.content path = disk.content path := by
  have hne : output.temporarySibling pid (disk.counters pid) ≠ output := fun h =>
    houtput ⟨output, pid, _, h.symm⟩
  let temporary := output.temporarySibling pid (disk.counters pid)
  let counted := { disk with counters := Function.update disk.counters pid (disk.counters pid + 1) }
  let written := (counted.create temporary).append disk.unused bytes
  let synced := written.setFile disk.unused ⟨(written.file disk.unused).bytes, true⟩
  have hentries (path : Path) :
      synced.entries path = if path = temporary then some disk.unused else disk.entries path :=
    Disk.create_entries
  have hbytes : (synced.file disk.unused).bytes = bytes := by
    simp only [synced, written, Disk.append, Disk.setFile_file_self, Disk.create_file]
    exact congrArg (fun file => file.bytes ++ bytes) (Disk.setFile_file_self (s := counted))
  have hkeep (i : ℕ) (hi : i < disk.unused) : synced.file i = disk.file i := by
    have hne := Nat.ne_of_lt hi
    simp only [synced, written, Disk.append, Disk.setFile_file_ne hne, Disk.create_file]
    exact Disk.setFile_file_ne hne
  have hrenamed : synced.entries temporary = some disk.unused := by rw [hentries, if_pos rfl]
  refine ⟨synced.move temporary output, _, .call .fetched (.call (.created hfree) (.call .written
    (.call .synced (.call (.renamed hrenamed hne) .done)))), ?_, fun path hpath => ?_⟩
  · rw [Disk.content_move hne, if_pos rfl, Disk.content, hrenamed, Option.map_some, hbytes]
  · rw [Disk.content_move hne, if_neg hpath]
    split
    · subst path
      rw [Disk.content, hfree, Option.map_none]
    · rename_i hother
      rw [Disk.content, Disk.content, hentries, if_neg hother]
      cases hentry : disk.entries path with
      | none => rfl
      | some i => rw [Option.map_some, Option.map_some, hkeep i (hdisk path i hentry)]

/-- **An append that nothing gets in the way of succeeds**: its output is what the library makes of
the two files, and all other files are as they were. -/
theorem streamAppend_runs {disk : Disk Path UInt32} (pid : UInt32) {input output : Path}
    {schema : Schema} {blockRows blockBytes : Option ℕ} (buffering : Buffering)
    {options : BlockOptions} {text log : List UInt8}
    (hdisk : ∀ path i, disk.entries path = some i → i < disk.unused)
    (houtput : ¬output.IsTemporary) (hfree : disk.entries (output.temporarySibling pid 0) = none)
    (hvalid : blockOptions blockRows blockBytes = .ok options)
    (htext : disk.content input = some text)
    (happend :
      appendJsonlStream ((disk.content output).getD []) (buffering.read text) schema options =
      .ok log) :
    ∃ disk' events, (Command.program pid
        (.streamAppend input output schema blockRows blockBytes buffering)).Runs disk disk' events
        (.ok ()) ∧
      disk'.content output = some log ∧
      ∀ path, path ≠ output → disk'.content path = disk.content path := by
  let started := { disk with counters := Function.update disk.counters pid 0 }
  have hcounter : started.counters pid = 0 := Function.update_self ..
  obtain ⟨i, hentry, rfl⟩ : ∃ i, disk.entries input = some i ∧ (disk.file i).bytes = text := by
    rw [Disk.content, Option.map_eq_some_iff] at htext
    exact htext
  have hstarted : ∀ path i, started.entries path = some i → i < started.unused := hdisk
  obtain ⟨events, hexisting⟩ := readExisting_runs started output
  obtain ⟨disk', events', hwrite, hcontent⟩ := atomicWriteBytes_runs pid log hstarted houtput
    (by rw [hcounter]; exact hfree)
  have hrun : appendJsonlStream ((started.content output).getD [])
      (buffering.read (started.file i).bytes) schema options = .ok log := happend
  have hreplace : (replaceLog pid output schema options ((started.content output).getD [])
      (buffering.read (started.file i).bytes)).Runs started disk' events' (.ok ()) := by
    rw [replaceLog, hrun]
    exact hwrite
  have hcommand : ∃ events, (streamAppend pid input output schema blockRows blockBytes
      buffering).Runs started disk' events (.ok ()) := by
    rw [streamAppend, hvalid]
    exact ⟨_, hexisting.bind
      (Process.Runs.bind (.call (.opened hentry) .done) (.call .gotten hreplace))⟩
  obtain ⟨_, hcommand⟩ := hcommand
  exact ⟨disk', _, .call .execed hcommand, hcontent⟩

end

/-! ### Two rows that are appended to a new log -/

open scoped CompactCore.Reference

def rowsPath : Path := ⟨some "data", some "rows.jsonl"⟩

def logPath : Path := ⟨some "data", some "events.cmp"⟩

/-- A disk with some rows. -/
def rowsDisk : Disk Path UInt32 := oneFile rowsPath (asBytes Reference.idLines)

def wholeBuffering : Buffering := ⟨BufRead.cursor, BufRead.bytes_cursor⟩

def appendRows : Command :=
  .streamAppend rowsPath logPath (Reference.idSchema .deltaVarintU64) none none wholeBuffering

theorem rowsPath_kept : ¬rowsPath.IsTemporary := by
  refine Path.not_isTemporary fun name h => ?_
  cases h
  decide

theorem logPath_kept : ¬logPath.IsTemporary := by
  refine Path.not_isTemporary fun name h => ?_
  cases h
  decide

theorem not_reserved_appendRows {path : Path} (hpath : ¬path.IsTemporary) :
    ¬Reserved rowsDisk.content (fun _ command => command = appendRows) path := by
  rintro (htemporary | ⟨-, _, _, rfl, hcreates⟩)
  · exact hpath htemporary
  · cases hcreates

theorem namesKept_appendRows :
    NamesKept rowsDisk.content fun _ command => command = appendRows := by
  rintro pid _ rfl
  refine ⟨not_reserved_appendRows rowsPath_kept, ?_⟩
  rintro _ ⟨⟩
  exact not_reserved_appendRows logPath_kept

theorem blockOptions_none : blockOptions none none = .ok ⟨10000, 8 * 1024 * 1024⟩ := rfl

theorem content_rowsPath : rowsDisk.content rowsPath = some (asBytes Reference.idLines) :=
  content_oneFile _ _

theorem content_logPath : rowsDisk.content logPath = none := content_oneFile_ne (by decide) _

/-- The command runs to its end. -/
theorem session_appendRows : ∃ world log past,
    Session (fun _ command => command = appendRows) rowsDisk world ∧
      world.state.content logPath = some log ∧
      world.threads 1 = some ⟨appendRows, past, .done (.ok ())⟩ := by
  obtain ⟨log, happend, -⟩ := Reference.exists_ok
    (x := appendJsonlStream [] (BufRead.cursor (asBytes Reference.idLines))
      (Reference.idSchema .deltaVarintU64) ⟨10000, 8 * 1024 * 1024⟩) (fun _ => True)
        (by decide +kernel)
  have hfree : rowsDisk.entries (logPath.temporarySibling 1 0) = none := by
    rw [rowsDisk, oneFile_entries, if_neg]
    intro h
    exact rowsPath_kept ⟨logPath, 1, 0, h.symm⟩
  have hdisk : ∀ path i, rowsDisk.entries path = some i → i < rowsDisk.unused := fun path i h =>
    ((quiescent_oneFile _ _).synced path i h).1
  obtain ⟨disk, events, hruns, hlog, -⟩ :=
    streamAppend_runs 1 wholeBuffering hdisk logPath_kept hfree blockOptions_none content_rowsPath
      (by rw [content_logPath]; exact happend)
  refine ⟨_, log, events, World.reachable_of_runs ⟨rfl, rfl⟩ hruns, hlog, ?_⟩
  dsimp only
  rw [Function.update_self]

theorem output_appendRows : ∀ (_ : UInt32) (command : Command), command = appendRows →
    command.replaces ≠ some rowsPath := by
  rintro _ _ rfl
  decide

theorem appendsOnly_appendRows :
    AppendsOnly rowsDisk.content (fun _ command => command = appendRows) logPath
      (8 * 1024 * 1024) where
  countable := by decide
  only := by
    rintro _ _ rfl -
    exact ⟨_, _, _, _, _, rfl⟩
  options_le := by
    intro pid input schema blockRows blockBytes buffering options hruns hvalid
    cases hruns
    cases hvalid
    exact Nat.le_refl _
  readable := by
    intro pid input schema blockRows blockBytes buffering options text lines rows hruns hvalid htext
      hlines haccept
    cases hruns
    rw [blockOptions_none] at hvalid
    cases hvalid
    have hcontent := htext.unwritten output_appendRows
    rw [content_rowsPath] at hcontent
    cases hcontent
    have hbytes : asBytes Reference.idLines = idInput.bytes := by decide +kernel
    rw [hbytes] at hlines
    rw [idInput_lines hlines] at haccept
    have hrows : acceptLines (8 * 1024 * 1024) idRows = .ok idRows := by decide +kernel
    rw [hrows] at haccept
    cases haccept
    intro group hgroup encoded hencoded
    have hgroups : cutRows ⟨10000, 8 * 1024 * 1024⟩ idRows = [idRows] := by decide +kernel
    rw [hgroups, List.mem_singleton] at hgroup
    subst hgroup
    obtain ⟨encoded', hencoded', hle⟩ := Reference.exists_ok
      (x := encodeJsonlRowGroup (String.join idRows) (Reference.idSchema .deltaVarintU64))
      (fun encoded => blockHeaderLen + encoded.payload.length ≤ maxEncodedBlockBytes)
      (by decide +kernel)
    rw [hencoded'] at hencoded
    cases hencoded
    exact hle

/-- What the session leaves is a version, and the command has reported its success. -/
theorem session_versions_appendRows : ∃ log past,
    Version rowsDisk.content (fun _ command => command = appendRows) logPath (some log) ∧
      appendRows.Reports rowsDisk.content (fun _ command => command = appendRows) past
        (.ok ()) := by
  obtain ⟨world, log, past, hsession, hlog, hthread⟩ := session_appendRows
  obtain ⟨hversions, hreports⟩ :=
    session_versions (quiescent_oneFile _ _) namesKept_appendRows hsession
  have hversion := hversions logPath (not_reserved_appendRows logPath_kept)
  rw [hlog] at hversion
  exact ⟨log, past, hversion, hreports 1 appendRows past _ hthread⟩

theorem session_log_appendRows : ∃ log r, recoverAppendStream log = .ok r ∧
    r.truncatedOrCorruptTail = false ∧ r.validLen.toNat = log.length := by
  obtain ⟨world, log, past, hsession, hlog, -⟩ := session_appendRows
  have hempty : recoverAppendStream [] = .ok ⟨0, [], 0, 0, 0, false⟩ := rfl
  have hnone : (rowsDisk.content logPath).getD [] = [] := by rw [content_logPath, Option.getD_none]
  obtain ⟨-, r, hr, htail, hlen, -⟩ :=
    session_log (quiescent_oneFile _ _) namesKept_appendRows hsession
    (not_reserved_appendRows logPath_kept) appendsOnly_appendRows (hnone ▸ (by decide))
    (hnone ▸ hempty) rfl
    fun _ hblock => absurd hblock List.not_mem_nil
  rw [hlog, Option.getD_some] at hr hlen
  exact ⟨log, r, hr, htail, hlen⟩

end CompactCore.Cli
