/-
**Commands that share their files.**

Three commands of the tool write their output under a temporary name: `stream-append`, which reads
its output first, and `encode` and `decode` of CMP2 streams.  Others create their output, at a name
that must be free.  Any number of them may run at once, on the same files, one reading what another
one writes; each may be killed, each call may fail, and the power may fail.

A version of a file is what it holds at the start, or what a command makes of versions of the files
that it reads.  At any time every file holds one of its versions.

Main definitions:

* `CompactCore.Cli.Command`, `CompactCore.Cli.Command.program` — the commands;
* `CompactCore.Cli.Version` — what a file may hold;
* `CompactCore.Cli.Session` — the runs of some commands.

Main results:

* `CompactCore.Cli.Command.safe_program` — the commands keep to the discipline of `Wire/Files.lean`;
* `CompactCore.Cli.session_versions` — **every file holds one of its versions**, and every exit
  status is true.
-/

import CompactCore.Cli.AtomicWrite
import CompactCore.Streaming.Recovery

set_option relaxedAutoImplicit false
set_option autoImplicit false

namespace CompactCore.Cli

open Wire Files Streaming

/-! ### The commands -/

/-- How a file is read through a buffer. -/
structure Buffering where
  read : List UInt8 → BufRead
  bytes_read : ∀ bytes, (read bytes).bytes = bytes

/-- How an encoder cuts its output into calls that write; if it fails, it may have written
anything. -/
structure Chunking where
  pieces : Result (List UInt8) → List (List UInt8)
  flatten_pieces : ∀ bytes, (pieces (.ok bytes)).flatten = bytes

def defaultMaxRowsPerBlock : ℕ := 10000

def defaultMaxUncompressedBytesPerBlock : ℕ := 8 * 1024 * 1024

def blockOptions (blockRows blockBytes : Option ℕ) : Result BlockOptions :=
  BlockOptions.validate
    ⟨blockRows.getD defaultMaxRowsPerBlock, blockBytes.getD defaultMaxUncompressedBytesPerBlock⟩

/-- `fs::read`. -/
def fsRead (path : Path) : Program (Except ErrorKind (List UInt8)) := do
  match ← ask (.openRead path) with
  | .ok file => ask (.read file)
  | .error e => return .error e

/-- What an append goes on behind. -/
def readExisting (output : Path) : Program (Except Failure (List UInt8)) := do
  match ← fsRead output with
  | .ok existing => return .ok existing
  | .error .notFound => return .ok []
  | .error e =>
      return .error (.context s!"failed to read existing append stream {output.display}" (.io e))

def openInput (input : Path) : Program (Except Failure ℕ) := do
  match ← ask (.openRead input) with
  | .ok file => return .ok file
  | .error e => return .error (.context s!"failed to open {input.display}" (.io e))

/-- `write_all` of some pieces. -/
def writePieces (file : ℕ) : List (List UInt8) → Program (Except ErrorKind Unit)
  | [] => return .ok ()
  | piece :: rest => do
      match ← ask (.writeAll file piece) with
      | .ok () => writePieces file rest
      | .error e => return .error e

/-- A codec that reads from one file and writes to another one. -/
def transcode (codec : List UInt8 → Result (List UInt8)) (chunking : Chunking) (failed : String)
    (input temporary : ℕ) : Program (Except Failure Unit) := do
  match ← ask (.read input) with
  | .error e => return .error (.context failed (.io e))
  | .ok text =>
      match ← writePieces temporary (chunking.pieces (codec text)) with
      | .error e => return .error (.context failed (.io e))
      | .ok () =>
          match codec text with
          | .ok _ => return .ok ()
          | .error e => return .error (.context failed (.core e))

section

variable [Crc32Fast] [SerdeJson]

/-- `stream-append`, once it has read its files. -/
def replaceLog (pid : UInt32) (output : Path) (schema : Schema) (options : BlockOptions)
    (existing : List UInt8) (input : BufRead) : Program (Except Failure Unit) :=
  match appendJsonlStream existing input schema options with
  | .error e => return .error (.context "failed to append JSONL stream" (.core e))
  | .ok encoded => atomicWriteBytes pid output encoded

/-- `stream-append`, behind the loading of the schema. -/
def streamAppend (pid : UInt32) (input output : Path) (schema : Schema)
    (blockRows blockBytes : Option ℕ) (buffering : Buffering) : Program (Except Failure Unit) := do
  match blockOptions blockRows blockBytes with
  | .error e => return .error (.context "invalid append stream block options" (.core e))
  | .ok options =>
      match ← readExisting output with
      | .error e => return .error e
      | .ok existing =>
          match ← openInput input with
          | .error e => return .error e
          | .ok inputFile =>
              match ← ask (.read inputFile) with
              | .error e => return .error (.context "failed to append JSONL stream" (.io e))
              | .ok text => replaceLog pid output schema options existing (buffering.read text)

/-- `encode` with a schema, to CMP2. -/
def encodeStream (pid : UInt32) (input output : Path) (schema : Schema)
    (blockRows blockBytes : Option ℕ) (buffering : Buffering) (chunking : Chunking) :
    Program (Except Failure Unit) := do
  match blockOptions blockRows blockBytes with
  | .error e => return .error (.context "invalid streaming block options" (.core e))
  | .ok options =>
      match ← openInput input with
      | .error e => return .error e
      | .ok inputFile =>
          let codec := fun text => encodeJsonlStream (buffering.read text) [] schema options
          match ← atomicWriteWith pid output
            (transcode codec chunking "failed to stream encode JSONL input" inputFile) with
          | .error e => return .error e
          | .ok () =>
              match ← ask (.metadata input) with
              | .error e => return .error (.context s!"failed to stat {input.display}" (.io e))
              | .ok _ =>
                  match ← ask (.metadata output) with
                  | .error e => return .error (.context s!"failed to stat {output.display}" (.io e))
                  | .ok _ => return .ok ()

/-- `decode` with a schema, of CMP2. -/
def decodeStream (pid : UInt32) (input output : Path) (schema : Schema) (chunking : Chunking) :
    Program (Except Failure Unit) := do
  match ← openInput input with
  | .error e => return .error e
  | .ok inputFile =>
      let codec := fun data => decodeJsonlStream data schema
      atomicWriteWith pid output
        (transcode codec chunking "failed to stream decode JSONL input" inputFile)

/-- A command that makes a new file of the one that it reads: first it looks at the file, and then
it makes the new one, unless it is asked not to. -/
structure Maker where
  review : List UInt8 → Except Failure (Except Failure (List UInt8))
  failed : String

/-- What such a command does with the file that it has read. -/
def createFile (maker : Maker) (source : List UInt8) (output : Option Path) (dryRun : Bool) :
    Program (Except Failure Unit) :=
  match maker.review source, dryRun, output with
  | .error e, _, _ => return .error e
  | .ok _, true, _ => return .ok ()
  | .ok _, false, none =>
      return .error (.message "--output is required unless --dry-run is specified")
  | .ok (.error e), false, some _ => return .error e
  | .ok (.ok bytes), false, some output => do
      match ← writeNewFile output bytes with
      | .error e => return .error (.context s!"{maker.failed} {output.display}" e)
      | .ok () => return .ok ()

/-- `repair` and `metadata-migrate`. -/
def createFrom (maker : Maker) (input : Path) (output : Option Path) (dryRun : Bool) :
    Program (Except Failure Unit) := do
  match ← fsRead input with
  | .error e => return .error (.context s!"failed to read {input.display}" (.io e))
  | .ok source => createFile maker source output dryRun

/-- A command, with its arguments. -/
inductive Command
  | streamAppend (input output : Path) (schema : Schema) (blockRows blockBytes : Option ℕ)
      (buffering : Buffering)
  | encode (input output : Path) (schema : Schema) (blockRows blockBytes : Option ℕ)
      (buffering : Buffering) (chunking : Chunking)
  | decode (input output : Path) (schema : Schema) (chunking : Chunking)
  | create (maker : Maker) (input : Path) (output : Option Path) (dryRun : Bool)

def Command.input : Command → Path
  | .streamAppend input _ _ _ _ _ | .encode input _ _ _ _ _ _ | .decode input _ _ _ => input
  | .create _ input _ _ => input

/-- The file that a command replaces. -/
def Command.replaces : Command → Option Path
  | .streamAppend _ output _ _ _ _ | .encode _ output _ _ _ _ _ | .decode _ output _ _ =>
    some output
  | .create .. => none

/-- The file that a command creates. -/
def Command.creates : Command → Option Path
  | .create _ _ output false => output
  | _ => none

/-- A process that runs a command. -/
def Command.program (pid : UInt32) (command : Command) : Program (Except Failure Unit) := do
  let _ ← ask (.exec pid)
  match command with
  | .streamAppend input output schema blockRows blockBytes buffering =>
      Cli.streamAppend pid input output schema blockRows blockBytes buffering
  | .encode input output schema blockRows blockBytes buffering chunking =>
      encodeStream pid input output schema blockRows blockBytes buffering chunking
  | .decode input output schema chunking => decodeStream pid input output schema chunking
  | .create maker input output dryRun => createFrom maker input output dryRun

/-! ### What a file may hold -/

/-- The versions of the files: what they hold at the start, and what commands make of versions. -/
inductive Version (initial : Path → Option (List UInt8)) (Runs : UInt32 → Command → Prop) :
    Path → Option (List UInt8) → Prop
  | initial (path : Path) : Version initial Runs path (initial path)
  | appended {pid : UInt32} {input output : Path} {schema : Schema}
      {blockRows blockBytes : Option ℕ}
      {buffering : Buffering} {options : BlockOptions} {existing : Option (List UInt8)}
      {text log : List UInt8}
      (runs : Runs pid (.streamAppend input output schema blockRows blockBytes buffering))
      (valid : blockOptions blockRows blockBytes = .ok options)
      (base : Version initial Runs output existing)
      (source : Version initial Runs input (some text))
      (append : appendJsonlStream (existing.getD []) (buffering.read text) schema options =
        .ok log) :
      Version initial Runs output (some log)
  | encoded {pid : UInt32} {input output : Path} {schema : Schema} {blockRows blockBytes : Option ℕ}
      {buffering : Buffering} {chunking : Chunking} {options : BlockOptions}
      {text stream : List UInt8}
      (runs : Runs pid (.encode input output schema blockRows blockBytes buffering chunking))
      (valid : blockOptions blockRows blockBytes = .ok options)
      (source : Version initial Runs input (some text))
      (encode : encodeJsonlStream (buffering.read text) [] schema options = .ok stream) :
      Version initial Runs output (some stream)
  | decoded {pid : UInt32} {input output : Path} {schema : Schema} {chunking : Chunking}
      {data text : List UInt8} (runs : Runs pid (.decode input output schema chunking))
      (source : Version initial Runs input (some data))
      (decode : decodeJsonlStream data schema = .ok text) : Version initial Runs output (some text)

/-- What a command may make of versions of the files that it reads. -/
def Command.Makes (initial : Path → Option (List UInt8)) (Runs : UInt32 → Command → Prop)
    (command : Command) (bytes : List UInt8) : Prop :=
  match command with
  | .streamAppend input output schema blockRows blockBytes buffering =>
      ∃ options existing text, blockOptions blockRows blockBytes = .ok options ∧
        Version initial Runs output existing ∧ Version initial Runs input (some text) ∧
          appendJsonlStream (existing.getD []) (buffering.read text) schema options = .ok bytes
  | .encode input _ schema blockRows blockBytes buffering _ =>
      ∃ options text, blockOptions blockRows blockBytes = .ok options ∧
        Version initial Runs input (some text) ∧
          encodeJsonlStream (buffering.read text) [] schema options = .ok bytes
  | .decode input _ schema _ =>
      ∃ data, Version initial Runs input (some data) ∧ decodeJsonlStream data schema = .ok bytes
  | .create maker input _ _ =>
      ∃ source, Version initial Runs input (some source) ∧ maker.review source = .ok (.ok bytes)

/-- What the result of a command says of its calls.  `encode` looks at its files once more when the
output has been replaced. -/
def Command.Reports (initial : Path → Option (List UInt8)) (Runs : UInt32 → Command → Prop)
    (command : Command) (past : List Os.Event) (result : Except Failure Unit) : Prop :=
  match command with
  | .streamAppend _ output _ _ _ _ | .decode _ output _ _ =>
      Exits (command.Makes initial Runs) output past result
  | .encode _ output _ _ _ _ _ =>
      (result ≠ .ok () ∧ Exits (command.Makes initial Runs) output past result) ∨
        ∃ before after, past = before ++ after ∧
          Exits (command.Makes initial Runs) output before (.ok ()) ∧ Quiet after
  | .create .. => NoRename past

/-- Names that are for temporary files and for files that some command is to create. -/
def Reserved (initial : Path → Option (List UInt8)) (Runs : UInt32 → Command → Prop) (path : Path) :
    Prop :=
  path.IsTemporary ∨
    initial path = none ∧ ∃ pid command, Runs pid command ∧ command.creates = some path

/-- What a command that creates a file leaves behind when it is successful: a complete file that
nobody else has, made of a version of its input. -/
def Command.Leaves (initial : Path → Option (List UInt8)) (Runs : UInt32 → Command → Prop)
    (share : FileShare Path) (command : Command) : Prop :=
  ∀ output, command.creates = some output →
    ∃ bytes, command.Makes initial Runs bytes ∧ Reserved initial Runs output ∧
      Made output bytes share

/-- The processes of a session: each runs one of some commands. -/
def Starts (Runs : UInt32 → Command → Prop) (pid : UInt32) (command : Command)
    (program : Program (Except Failure Unit)) : Prop :=
  Runs pid command ∧ program = command.program pid

/-- A run of processes, each of which runs one of some commands. -/
def Session (Runs : UInt32 → Command → Prop) (start : Disk Path UInt32)
    (world : World Os UInt32 Command (Except Failure Unit)) : Prop :=
  World.Reachable (Starts Runs) start world

/-- What may follow while the power is on. -/
def Later (Runs : UInt32 → Command → Prop)
    (world world' : World Os UInt32 Command (Except Failure Unit)) : Prop :=
  World.Continues (Starts Runs) world world'

end

/-! ### The parts of the commands keep to the discipline -/

section

variable {Temp : Path → Prop} {Good : Path → Option (List UInt8) → Prop} {share : FileShare Path}
  {past : List Os.Event}

theorem safe_fsRead {path : Path} (hpath : ¬Temp path) (hpast : Quiet past) :
    (fsRead path).Safe (fileDiscipline Temp Good)
      (fun past' _ result => Quiet past' ∧ (∀ bytes, result = .ok bytes → Good path (some bytes)) ∧
        (result = .error .notFound → Good path none)) past share := by
  have hopen (reply : Except ErrorKind ℕ) :=
    hpast.append (quiet_event (.openRead path) reply nofun nofun)
  refine safe_openRead hpath (fun file => ?_) (fun hnone => ⟨hopen _, nofun, fun _ => hnone⟩)
    ⟨hopen _, nofun, nofun⟩
  have hread (reply : Except ErrorKind (List UInt8)) :=
    (hopen (.ok file)).append (quiet_event (.read file) reply nofun nofun)
  have hreading : (path, file) ∈ (path, file) :: share.reading := List.mem_cons_self
  refine safe_read hreading (fun bytes hgood => ?_) ⟨hread _, nofun, nofun⟩
  refine ⟨hread _, ?_, nofun⟩
  intro bytes' hbytes
  rwa [← Except.ok.inj hbytes]

theorem safe_readExisting {output : Path} (houtput : ¬Temp output) (hpast : Quiet past) :
    (readExisting output).Safe (fileDiscipline Temp Good)
      (fun past' _ result => Quiet past' ∧ ∀ existing, result = .ok existing →
        ∃ content, Good output content ∧ existing = content.getD []) past share := by
  refine (safe_fsRead houtput hpast).bind ?_
  rintro past' share' (e | bytes) ⟨hquiet, hbytes, hnone⟩
  · cases e with
    | notFound => exact ⟨hquiet, fun existing h => ⟨none, hnone rfl, (Except.ok.inj h).symm⟩⟩
    | alreadyExists => exact ⟨hquiet, nofun⟩
    | other => exact ⟨hquiet, nofun⟩
  · exact ⟨hquiet, fun existing h => ⟨some bytes, hbytes bytes rfl, (Except.ok.inj h).symm⟩⟩

theorem safe_openInput {input : Path} (hinput : ¬Temp input) (hpast : Quiet past) :
    (openInput input).Safe (fileDiscipline Temp Good)
      (fun past' share' result => Quiet past' ∧
        ∀ file, result = .ok file → (input, file) ∈ share'.reading) past share := by
  have hopen (reply : Except ErrorKind ℕ) :=
    hpast.append (quiet_event (.openRead input) reply nofun nofun)
  refine safe_openRead hinput (fun file => ⟨hopen _, ?_⟩) (fun _ => ⟨hopen _, nofun⟩)
    ⟨hopen _, nofun⟩
  intro file' hfile
  rw [← Except.ok.inj hfile]
  exact List.mem_cons_self

theorem safe_writePieces (path : Path) (file : ℕ) (pieces : List (List UInt8)) (content : File) :
    (writePieces file pieces).Safe (fileDiscipline Temp Good)
      (fun past' share' result => ∃ more content', past' = past ++ more ∧ Quiet more ∧
        share' = { share with temp := some ⟨path, file, content'⟩ } ∧
        (result = .ok () → written file more = pieces.flatten ∧
          content'.bytes = content.bytes ++ pieces.flatten))
      past { share with temp := some ⟨path, file, content⟩ } := by
  induction pieces generalizing past content with
  | nil =>
      exact ⟨[], content, (List.append_nil _).symm, quiet_nil, rfl,
        fun _ => ⟨rfl, (List.append_nil _).symm⟩⟩
  | cons piece pieces ih =>
      have hwrite (reply : Except ErrorKind Unit) :=
        quiet_event (.writeAll file piece) reply nofun nofun
      refine safe_writeAll (t := ⟨path, file, content⟩) rfl ?_ fun n =>
        ⟨_, _, rfl, hwrite _, rfl, nofun⟩
      refine (ih ⟨content.bytes ++ piece, false⟩).mono ?_
      rintro past' share' result ⟨more, content', rfl, hmore, rfl, hbytes⟩
      refine ⟨_, content', List.append_assoc .., (hwrite _).append hmore, rfl, fun hok => ?_⟩
      obtain ⟨hwritten, hcontent⟩ := hbytes hok
      have hpiece : written file [FileCall.event (.writeAll file piece) (.ok ())] = piece :=
        written_writeAll file piece
      rw [written_append, hpiece, hwritten, hcontent, List.flatten_cons, List.append_assoc]
      exact ⟨rfl, rfl⟩

/-- A codec writes what it makes of its input. -/
theorem safe_transcode {codec : List UInt8 → Result (List UInt8)} {chunking : Chunking}
    {failed : String} {input path : Path} {source file : ℕ}
    (hsource : (input, source) ∈ share.reading) :
    (transcode codec chunking failed source file).Safe (fileDiscipline Temp Good)
      (fun past' share' result => ∃ more content, past' = past ++ more ∧ Quiet more ∧
        share' = { share with temp := some ⟨path, file, content⟩ } ∧
        (result = .ok () → written file more = content.bytes ∧
          ∃ text, Good input (some text) ∧ codec text = .ok content.bytes))
      past { share with temp := some ⟨path, file, ⟨[], false⟩⟩ } := by
  have hread (reply : Except ErrorKind (List UInt8)) :=
    quiet_event (.read source) reply nofun nofun
  refine safe_read hsource (fun text htext => ?_) ⟨_, _, rfl, hread _, rfl, nofun⟩
  refine (safe_writePieces path file (chunking.pieces (codec text)) ⟨[], false⟩).bind ?_
  rintro past' share' result ⟨more, content, rfl, hmore, rfl, hbytes⟩
  have hquiet := (hread (.ok text)).append hmore
  cases result with
  | error e => exact ⟨_, content, List.append_assoc .., hquiet, rfl, nofun⟩
  | ok =>
      cases hrun : codec text with
      | error e =>
          exact ⟨_, content, List.append_assoc .., hquiet, rfl, nofun⟩
      | ok bytes =>
          rw [hrun] at hbytes
          refine ⟨_, content, List.append_assoc .., hquiet, rfl, fun _ => ?_⟩
          obtain ⟨hwritten, hcontent⟩ := hbytes rfl
          rw [chunking.flatten_pieces] at hwritten hcontent
          have hnone : written file [FileCall.event (.read source) (.ok text)] = [] := rfl
          rw [List.nil_append] at hcontent
          rw [written_append, hnone, List.nil_append, hwritten, hcontent]
          exact ⟨rfl, text, htext, hrun⟩

end

/-! ### The commands keep to the discipline -/

section

variable [Crc32Fast] [SerdeJson] {initial : Path → Option (List UInt8)}
  {Runs : UInt32 → Command → Prop} {past : List Os.Event} {share : FileShare Path} {pid : UInt32}

theorem safe_replaceLog {Temp : Path → Prop} {Good : Path → Option (List UInt8) → Prop}
    {Makes : List UInt8 → Prop} {output : Path} {schema : Schema} {options : BlockOptions}
    {existing : List UInt8} {input : BufRead}
    (htemp : ∀ path, path.IsTemporary → Temp path) (hpast : Quiet past) (houtput : ¬Temp output)
    (hgood : ∀ bytes, Makes bytes → Good output (some bytes))
    (hmakes : ∀ log, appendJsonlStream existing input schema options = .ok log → Makes log) :
    (replaceLog pid output schema options existing input).Safe (fileDiscipline Temp Good)
      (fun past' _ result => Exits Makes output past' result) past share := by
  rw [replaceLog]
  cases happend : appendJsonlStream existing input schema options with
  | error e => exact .refused hpast
  | ok encoded =>
      refine safe_atomicWriteWith htemp hpast houtput hgood fun path file past => ?_
      have hwrite (reply : Except ErrorKind Unit) :=
        quiet_event (.writeAll file encoded) reply nofun nofun
      exact safe_writeAll (t := ⟨path, file, ⟨[], false⟩⟩) rfl
        ⟨_, _, rfl, hwrite _, rfl, fun _ => ⟨written_writeAll file encoded, hmakes encoded happend⟩⟩
        fun n => ⟨_, _, rfl, hwrite _, rfl, nofun⟩

omit [Crc32Fast] [SerdeJson] in
theorem reserved_temporary (path : Path) (h : path.IsTemporary) : Reserved initial Runs path :=
  .inl h

/-- What a command makes is a version of the file that it replaces. -/
theorem Command.Makes.version {command : Command} {bytes : List UInt8} {output : Path}
    (h : command.Makes initial Runs bytes) (hruns : Runs pid command)
    (houtput : command.replaces = some output) : Version initial Runs output (some bytes) := by
  cases command with
  | streamAppend =>
      cases houtput
      obtain ⟨options, existing, text, hvalid, hbase, htext, happend⟩ := h
      exact .appended hruns hvalid hbase htext happend
  | encode =>
      cases houtput
      obtain ⟨options, text, hvalid, htext, hencode⟩ := h
      exact .encoded hruns hvalid htext hencode
  | decode =>
      cases houtput
      obtain ⟨data, hdata, hdecode⟩ := h
      exact .decoded hruns hdata hdecode
  | create => cases houtput

theorem safe_streamAppend {input output : Path} {schema : Schema} {blockRows blockBytes : Option ℕ}
    {buffering : Buffering}
    (hruns : Runs pid (.streamAppend input output schema blockRows blockBytes buffering))
    (hinput : ¬Reserved initial Runs input)
    (houtput : ¬Reserved initial Runs output) (hpast : Quiet past) :
    (streamAppend pid input output schema blockRows blockBytes buffering).Safe
      (fileDiscipline (Reserved initial Runs) (Version initial Runs))
      (fun past' _ result => Exits ((Command.streamAppend input output schema blockRows blockBytes
        buffering).Makes initial Runs) output past' result) past share := by
  rw [streamAppend]
  cases hvalid : blockOptions blockRows blockBytes with
  | error e => exact .refused hpast
  | ok options =>
      refine (safe_readExisting houtput hpast).bind ?_
      rintro past' share' (e | existing) ⟨hquiet, hexisting⟩
      · exact .refused hquiet
      obtain ⟨base, hbase, rfl⟩ := hexisting existing rfl
      refine (safe_openInput hinput hquiet).bind ?_
      rintro past' share' (e | inputFile) ⟨hquiet, hreading⟩
      · exact .refused hquiet
      have hread (reply : Except ErrorKind (List UInt8)) :=
        hquiet.append (quiet_event (.read inputFile) reply nofun nofun)
      refine safe_read (hreading inputFile rfl) (fun text htext => ?_) (.refused (hread _))
      exact safe_replaceLog reserved_temporary (hread _) houtput (fun _ h => h.version hruns rfl)
        fun log happend => ⟨options, base, text, hvalid, hbase, htext, happend⟩

theorem safe_encodeStream {input output : Path} {schema : Schema} {blockRows blockBytes : Option ℕ}
    {buffering : Buffering} {chunking : Chunking}
    (hruns : Runs pid (.encode input output schema blockRows blockBytes buffering chunking))
    (hinput : ¬Reserved initial Runs input)
    (houtput : ¬Reserved initial Runs output) (hpast : Quiet past) :
    (encodeStream pid input output schema blockRows blockBytes buffering chunking).Safe
      (fileDiscipline (Reserved initial Runs) (Version initial Runs))
      (fun past' _ result => Command.Reports initial Runs
        (.encode input output schema blockRows blockBytes buffering chunking) past' result)
      past share := by
  rw [encodeStream]
  cases hvalid : blockOptions blockRows blockBytes with
  | error e => exact Or.inl ⟨nofun, .refused hpast⟩
  | ok options =>
      refine (safe_openInput hinput hpast).bind ?_
      rintro past' share' (e | inputFile) ⟨hquiet, hreading⟩
      · exact Or.inl ⟨nofun, .refused hquiet⟩
      refine (safe_atomicWriteWith reserved_temporary hquiet houtput
        (fun _ (h : Command.Makes initial Runs (.encode input output schema blockRows blockBytes
          buffering chunking) _) => h.version hruns rfl)
        fun path file past => (safe_transcode (hreading inputFile rfl)).mono ?_).bind ?_
      · rintro past' share' result ⟨more, content, hpast', hmore, hshare, hok⟩
        refine ⟨more, content, hpast', hmore, hshare, fun hresult => ?_⟩
        obtain ⟨hwritten, text, htext, hencode⟩ := hok hresult
        exact ⟨hwritten, options, text, hvalid, htext, hencode⟩
      rintro past' share' (e | _) hexits
      · exact Or.inl ⟨nofun, hexits⟩
      have hstat (path : Path) (reply : Except ErrorKind ℕ) :=
        quiet_event (.metadata path) reply nofun nofun
      refine safe_metadata fun reply => ?_
      cases reply with
      | error e => exact Or.inr ⟨_, _, rfl, hexits, hstat _ _⟩
      | ok _ =>
          refine safe_metadata fun reply' => ?_
          rw [List.append_assoc]
          cases reply' with
          | error e => exact Or.inr ⟨_, _, rfl, hexits, (hstat _ _).append (hstat _ _)⟩
          | ok _ => exact Or.inr ⟨_, _, rfl, hexits, (hstat _ _).append (hstat _ _)⟩

theorem safe_decodeStream {input output : Path} {schema : Schema} {chunking : Chunking}
    (hruns : Runs pid (.decode input output schema chunking))
    (hinput : ¬Reserved initial Runs input)
    (houtput : ¬Reserved initial Runs output) (hpast : Quiet past) :
    (decodeStream pid input output schema chunking).Safe
      (fileDiscipline (Reserved initial Runs) (Version initial Runs))
      (fun past' _ result =>
        Exits ((Command.decode input output schema chunking).Makes initial Runs)
        output past' result) past share := by
  rw [decodeStream]
  refine (safe_openInput hinput hpast).bind ?_
  rintro past' share' (e | inputFile) ⟨hquiet, hreading⟩
  · exact .refused hquiet
  · exact safe_atomicWriteWith reserved_temporary hquiet houtput (fun _ h => h.version hruns rfl)
      fun path file past => safe_transcode (hreading inputFile rfl)

/-- A file that there is stays there. -/
theorem Version.ne_none {path : Path} {content : Option (List UInt8)}
    (h : Version initial Runs path content) (hinitial : initial path ≠ none) : content ≠ none := by
  cases h with
  | initial => exact hinitial
  | appended => exact Option.some_ne_none _
  | encoded => exact Option.some_ne_none _
  | decoded => exact Option.some_ne_none _

theorem safe_createFile {maker : Maker} {input : Path} {output : Option Path} {dryRun : Bool}
    {source : List UInt8} (hruns : Runs pid (.create maker input output dryRun))
    (hversion : Version initial Runs input (some source)) (hpast : NoRename past) :
    (createFile maker source output dryRun).Safe
      (fileDiscipline (Reserved initial Runs) (Version initial Runs))
      (fun past' share' result => NoRename past' ∧ (result = .ok () →
        Command.Leaves initial Runs share' (.create maker input output dryRun)))
      past share := by
  unfold createFile
  cases hreview : maker.review source with
  | error e => exact ⟨hpast, nofun⟩
  | ok made =>
      cases dryRun with
      | true => exact ⟨hpast, fun _ => nofun⟩
      | false =>
          cases output with
          | none => exact ⟨hpast, nofun⟩
          | some output =>
              cases made with
              | error e => exact ⟨hpast, nofun⟩
              | ok bytes =>
                  by_cases hreserved : Reserved initial Runs output
                  · refine (safe_writeNewFile hreserved hpast).bind ?_
                    rintro past' share' (e | _) ⟨hpast, hmade⟩
                    · exact ⟨hpast, nofun⟩
                    · refine ⟨hpast, fun _ => ?_⟩
                      rintro _ ⟨⟩
                      exact ⟨bytes, ⟨source, hversion, hreview⟩, hreserved, hmade rfl⟩
                  · -- the name is taken, so that the file cannot be created
                    have htaken : initial output ≠ none := fun hnone =>
                      hreserved (.inr ⟨hnone, pid, _, hruns, rfl⟩)
                    refine (safe_writeNewFile_taken hreserved
                      (fun hgood => hgood.ne_none htaken rfl)
                      hpast).bind ?_
                    rintro past' share' (e | _) ⟨hpast, hnot⟩
                    · exact ⟨hpast, nofun⟩
                    · exact absurd rfl hnot

/-- **A command that creates a file replaces none**; if it is successful, its file is complete, and
made of what its input holds at some time. -/
theorem safe_createFrom {maker : Maker} {input : Path} {output : Option Path} {dryRun : Bool}
    (hruns : Runs pid (.create maker input output dryRun)) (hinput : ¬Reserved initial Runs input)
    (hpast : Quiet past) :
    (createFrom maker input output dryRun).Safe
      (fileDiscipline (Reserved initial Runs) (Version initial Runs))
      (fun past' share' result => NoRename past' ∧ (result = .ok () →
        Command.Leaves initial Runs share' (.create maker input output dryRun)))
      past share := by
  rw [createFrom]
  refine (safe_fsRead hinput hpast).bind ?_
  rintro past' share' (e | source) ⟨hquiet, hsource, -⟩
  · exact ⟨hquiet.noRename, nofun⟩
  · exact safe_createFile hruns (hsource source rfl) hquiet.noRename

/-- What a command may be given: no reserved name is read or replaced. -/
def Command.Kept (initial : Path → Option (List UInt8)) (Runs : UInt32 → Command → Prop)
    (command : Command) : Prop :=
  ¬Reserved initial Runs command.input ∧
    ∀ output, command.replaces = some output → ¬Reserved initial Runs output

theorem Command.safe_program {command : Command} (hruns : Runs pid command)
    (hkept : command.Kept initial Runs) :
    (command.program pid).Safe (fileDiscipline (Reserved initial Runs) (Version initial Runs))
      (fun past' share' result => command.Reports initial Runs past' result ∧
        (result = .ok () → command.Leaves initial Runs share'))
      [] .nothing := by
  have hexec : Quiet ([] ++ [FileCall.event (.exec pid) ()]) :=
    quiet_nil.append (quiet_event (.exec pid) () nofun nofun)
  obtain ⟨hinput, houtput⟩ := hkept
  cases command with
  | streamAppend input output schema blockRows blockBytes buffering =>
      refine safe_exec ?_
      exact (safe_streamAppend hruns hinput (houtput output rfl) hexec).mono
        fun _ _ _ h => ⟨h, fun _ => nofun⟩
  | encode input output schema blockRows blockBytes buffering chunking =>
      refine safe_exec ?_
      exact (safe_encodeStream hruns hinput (houtput output rfl) hexec).mono
        fun _ _ _ h => ⟨h, fun _ => nofun⟩
  | decode input output schema chunking =>
      refine safe_exec ?_
      exact (safe_decodeStream hruns hinput (houtput output rfl) hexec).mono
        fun _ _ _ h => ⟨h, fun _ => nofun⟩
  | create maker input output dryRun =>
      refine safe_exec ?_
      exact safe_createFrom hruns hinput hexec

/-- A disk before the first process: nothing is unsynced. -/
structure Quiescent (disk : Disk Path UInt32) : Prop where
  recent : ∀ path, disk.recent path = [disk.entries path]
  synced : ∀ path i, disk.entries path = some i → i < disk.unused ∧ (disk.file i).synced = true

theorem Quiescent.inv {disk : Disk Path UInt32} (h : Quiescent disk) :
    disk.Inv (Reserved disk.content Runs) (Version disk.content Runs) := by
  refine ⟨fun path _ entry hentry => ?_, fun path i hi => ?_, fun path => ?_⟩
  · rw [h.recent, List.mem_singleton] at hentry
    have hversion : Version disk.content Runs path (disk.content path) := .initial path
    rw [Disk.content] at hversion
    subst hentry
    cases hfile : disk.entries path with
    | none =>
        rw [hfile] at hversion
        exact hversion
    | some i =>
        rw [hfile] at hversion
        obtain ⟨hlt, hsynced⟩ := h.synced path i hfile
        exact ⟨hlt, hsynced, hversion⟩
  · rw [h.recent, List.mem_singleton] at hi
    exact (h.synced path i hi.symm).1
  · rw [h.recent]
    exact List.mem_singleton_self _

/-- No command reads or replaces a reserved name. -/
def NamesKept (initial : Path → Option (List UInt8)) (Runs : UInt32 → Command → Prop) : Prop :=
  ∀ pid command, Runs pid command → command.Kept initial Runs

section

variable {disk : Disk Path UInt32} {world world' : World Os UInt32 Command (Except Failure Unit)}

theorem safe_starts (hnames : NamesKept initial Runs) (pid : UInt32) (command : Command)
    (program : Program (Except Failure Unit)) (h : Starts Runs pid command program) :
    program.Safe (fileDiscipline (Reserved initial Runs) (Version initial Runs))
      (fun past' share' result => command.Reports initial Runs past' result ∧
        (result = .ok () → command.Leaves initial Runs share'))
      [] .nothing := by
  obtain ⟨hruns, rfl⟩ := h
  exact command.safe_program hruns (hnames pid command hruns)

theorem Session.inv (h : Session Runs disk world) (hdisk : Quiescent disk)
    (hnames : NamesKept disk.content Runs) :
    world.state.Inv (Reserved disk.content Runs) (Version disk.content Runs) :=
  World.inv_of_reachable
    (D := fileDiscipline (Reserved disk.content Runs) (Version disk.content Runs))
    hdisk.inv (safe_starts hnames) h

/-- What a process that has ended leaves behind stays so while the power is on. -/
theorem Session.ended (h : Session Runs disk world) (hdisk : Quiescent disk)
    (hnames : NamesKept disk.content Runs) {pid : UInt32} {command : Command} {past : List Os.Event}
    {result : Except Failure Unit} (hend : world.threads pid = some ⟨command, past, .done result⟩)
    (hlater : Later Runs world world') :
    ∃ share : FileShare Path,
      share.Holds (Reserved disk.content Runs) (Version disk.content Runs) world'.state ∧
        command.Reports disk.content Runs past result ∧
          (result = .ok () → command.Leaves disk.content Runs share) :=
  World.safe_of_continues
    (D := fileDiscipline (Reserved disk.content Runs) (Version disk.content Runs))
    hdisk.inv (safe_starts hnames) h hend hlater

/-- **Every file holds one of its versions, at any time**, whatever the order of the calls, which of
them fail, which processes are killed and when the power fails; and a command that has ended reports
what it has done. -/
theorem session_versions (hdisk : Quiescent disk) (hnames : NamesKept disk.content Runs)
    (hsession : Session Runs disk world) :
    (∀ path, ¬Reserved disk.content Runs path →
      Version disk.content Runs path (world.state.content path)) ∧
      ∀ pid command past result, world.threads pid = some ⟨command, past, .done result⟩ →
        command.Reports disk.content Runs past result := by
  refine ⟨fun path hpath => (hsession.inv hdisk hnames).content hpath, ?_⟩
  intro pid command past result hend
  obtain ⟨_, -, hreports, -⟩ := hsession.ended hdisk hnames hend .refl
  exact hreports

/-- What a command that has created a file leaves while the power is on: the file is complete, made
of a version of the input, and there was none of its name at the start. -/
theorem Session.created (hsession : Session Runs disk world) (hdisk : Quiescent disk)
    (hnames : NamesKept disk.content Runs) {pid : UInt32} {past : List Os.Event} {maker : Maker}
    {input output : Path} (hend : world.threads pid =
      some ⟨.create maker input (some output) false, past, .done (.ok ())⟩)
    (hlater : Later Runs world world') :
    ∃ source bytes, Version disk.content Runs input (some source) ∧
      maker.review source = .ok (.ok bytes) ∧ world'.state.content output = some bytes ∧
        (¬output.IsTemporary → disk.content output = none) := by
  obtain ⟨share, hholds, -, hleaves⟩ := hsession.ended hdisk hnames hend hlater
  obtain ⟨bytes, ⟨source, hversion, hreview⟩, hreserved, file, hmade⟩ := hleaves rfl output rfl
  refine ⟨source, bytes, hversion, hreview, (hholds.owns _ hmade).content, ?_⟩
  intro hpath
  rcases hreserved with htemporary | ⟨hnone, -⟩
  · exact absurd htemporary hpath
  · exact hnone

end

end

/-! ### A disk with one file -/

def oneFile (path : Path) (bytes : List UInt8) : Disk Path UInt32 where
  entries other := if other = path then some 0 else none
  recent other := [if other = path then some 0 else none]
  file _ := ⟨bytes, true⟩
  unused := 1
  counters _ := 0

theorem oneFile_entries (path other : Path) (bytes : List UInt8) :
    (oneFile path bytes).entries other = if other = path then some 0 else none := rfl

theorem quiescent_oneFile (path : Path) (bytes : List UInt8) : Quiescent (oneFile path bytes) where
  recent _ := rfl
  synced other i h := by
    rw [oneFile_entries] at h
    split at h
    · cases h
      exact ⟨Nat.one_pos, rfl⟩
    · cases h

theorem content_oneFile (path : Path) (bytes : List UInt8) :
    (oneFile path bytes).content path = some bytes := by
  rw [Disk.content, oneFile_entries, if_pos rfl]
  rfl

theorem content_oneFile_ne {path other : Path} (h : other ≠ path) (bytes : List UInt8) :
    (oneFile path bytes).content other = none := by
  rw [Disk.content, oneFile_entries, if_neg h]
  rfl

end CompactCore.Cli
