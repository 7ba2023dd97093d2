/-
**When the errors of the encoder's workers are reported.**

The collector stops at the first result that is an error.  Every worker that goes on loses a job and
stops; once all have stopped, the scheduler's next send is refused, and the pool returns that a send
was refused in place of the error.  For that there must be jobs enough: one for each worker, and the
scheduler's next one, all behind the job that failed.

Main definitions:

* `CompactCore.Parallel.firstFailing` — the first job that cannot be encoded;
* `CompactCore.Parallel.frameSize` — what a job adds to the stream.

Main results:

* `CompactCore.Parallel.raises_encodeJob` — no worker returns an error of the pool or the collector;
* `CompactCore.Parallel.returns_stopped` — a run in which the error of a worker is lost;
* `CompactCore.Parallel.always_reported_iff` — **when every run returns the error of a worker**.
-/

import CompactCore.Parallel.Encode
import CompactCore.Wire.Raises

set_option relaxedAutoImplicit false
set_option autoImplicit false

namespace CompactCore.Parallel

open Wire CompactError Io Streaming

/-! ### The errors of a worker -/

/-- An error that neither the pool nor the collector has a text for. -/
def Reported (e : CompactError) : Prop :=
  e ≠ invalidInput "parallel worker pool stopped" ∧ e ≠ invalidInput "stream size overflow"

instance (e : CompactError) : Decidable (Reported e) := inferInstanceAs (Decidable (_ ∧ _))

theorem raises_tryU64 {n : ℕ} {message : String} (h : Reported (invalidInput message)) :
    Raises Reported (tryU64 n message) := by
  unfold tryU64
  split
  · exact raises_ok _
  · exact raises_error h

theorem raises_tryU32 {n : ℕ} {message : String} (h : Reported (invalidInput message)) :
    Raises Reported (tryU32 n message) := by
  unfold tryU32
  split
  · exact raises_ok _
  · exact raises_error h

theorem raises_tryU16 {n : ℕ} {message : String} (h : Reported (invalidInput message)) :
    Raises Reported (tryU16 n message) := by
  unfold tryU16
  split
  · exact raises_ok _
  · exact raises_error h

theorem raises_validateColumnNamesFrom (previous columns : List ColumnSchema) :
    Raises Reported (validateColumnNamesFrom previous columns) := by
  induction columns generalizing previous with
  | nil => exact raises_ok ()
  | cons column columns ih =>
      refine (raises_failIf (by decide)).bind fun _ _ => ?_
      exact (raises_failIf (by decide)).bind fun _ _ => ih _

theorem raises_supportedColumns (schema : Schema) : Raises Reported schema.supportedColumns := by
  refine (raises_failIf (by decide)).bind fun _ _ => ?_
  refine (raises_validateColumnNamesFrom [] _).bind fun _ _ => ?_
  exact (raises_failIf (by decide)).bind fun _ _ => raises_pure _

theorem raises_new (column : ColumnSchema) : Raises Reported (ColumnValues.new column) := by
  unfold ColumnValues.new
  split
  · exact raises_ok _
  · exact raises_ok _
  · exact raises_ok _
  · exact raises_error (by decide)

theorem raises_pushJson (values : ColumnValues) (value : Value) :
    Raises Reported (values.pushJson value) := by
  cases values with
  | u64 values => exact (raises_okOr (by decide)).bind fun _ _ => raises_pure _
  | string values => exact (raises_okOr (by decide)).bind fun _ _ => raises_pure _

theorem raises_pushRow (columns : List ColumnSchema) (columnValues : List ColumnValues)
    (row : Map) :
    Raises Reported (pushRow columns columnValues row) := by
  refine Raises.mapM fun pair _ => ?_
  exact (raises_okOr (by decide)).bind fun raw _ => raises_pushJson pair.2 raw

theorem raises_encodeWindows (previous : UInt64) (values : List UInt64) :
    Raises Reported (Delta.encodeWindows "u64 delta cannot be negative" previous values) := by
  induction values generalizing previous with
  | nil => exact raises_ok []
  | cons current values ih =>
      refine (raises_okOr (by decide)).bind fun _ _ => ?_
      exact (ih current).bind fun _ _ => raises_pure _

theorem raises_encodeAll (values : List String) :
    Raises Reported (Strings.encodeAll "string value too large" values) := by
  induction values with
  | nil => exact raises_ok []
  | cons value values ih =>
      refine Raises.bind ?_ fun _ _ => ih.bind fun _ _ => raises_pure _
      exact (raises_tryU64 (by decide)).bind fun _ _ => raises_pure _

theorem raises_internAll (values : List String) :
    Raises Reported (Dictionary.internAll newDictionaryId values) := by
  refine Raises.foldlM (fun s value _ => ?_) _
  unfold Dictionary.Interner.push
  split
  · exact raises_ok _
  · exact (raises_tryU64 (by decide)).bind fun _ _ => raises_pure _

theorem raises_validate (config : EncodeConfig) : Raises Reported config.validate := by
  unfold EncodeConfig.validate
  split <;> first | exact raises_ok () | exact raises_error (by decide)

theorem raises_encode (values : ColumnValues) (column : ColumnSchema) :
    Raises Reported (values.encode column) := by
  cases values with
  | u64 values =>
      refine (raises_validate _).bind fun _ _ => ?_
      split
      · refine Raises.bind ?_ fun _ _ => raises_pure _
        cases values with
        | nil => exact raises_ok []
        | cons base values => exact (raises_encodeWindows base values).bind fun _ _ => raises_pure _
      · exact raises_error (by decide)
  | string values =>
      rw [ColumnValues.encode]
      split
      · refine (raises_internAll values).bind fun _ _ => ?_
        exact (raises_encodeAll _).bind fun _ _ => raises_pure _
      · exact (raises_encodeAll values).bind fun _ _ => raises_pure _
      · exact raises_error (by decide)

theorem raises_writeColumnBlock (column : ColumnSchema) (rowCount : ℕ) (payload : List UInt8) :
    Raises Reported (writeColumnBlock column rowCount payload) := by
  refine (raises_tryU16 (by decide)).bind fun _ _ => ?_
  refine (raises_tryU64 (by decide)).bind fun _ _ => ?_
  refine (raises_tryU64 (by decide)).bind fun _ _ => Raises.bind ?_ fun _ _ => raises_pure _
  unfold codecToId
  split
  · exact raises_ok _
  · exact raises_ok _
  · exact raises_ok _
  · exact raises_error (by decide)

theorem raises_writeColumnBlocks (rowCount : ℕ) (columns : List (ColumnSchema × ColumnValues)) :
    Raises Reported (writeColumnBlocks rowCount columns) := by
  induction columns with
  | nil => exact raises_ok []
  | cons pair columns ih =>
      refine (raises_encode pair.2 pair.1).bind fun payload _ => ?_
      refine (raises_writeColumnBlock pair.1 rowCount payload).bind fun _ _ => ?_
      exact ih.bind fun _ _ => raises_pure _

section

variable [SerdeJson]

theorem raises_encodeJsonlRowGroup (input : String) (schema : Schema) :
    Raises Reported (encodeJsonlRowGroup input schema) := by
  refine (raises_supportedColumns schema).bind fun columns _ => ?_
  refine (Raises.mapM fun column _ => raises_new column).bind fun _ _ => ?_
  refine (Raises.foldlM (fun s line _ => ?_) _).bind fun _ _ => ?_
  · refine Raises.bind ?_ fun row _ => ?_
    · exact (raises_okOr (by decide)).bind fun _ _ => raises_okOr (by decide)
    · exact (raises_pushRow columns s.1 row).bind fun _ _ => raises_pure _
  · refine (raises_tryU32 (by decide)).bind fun _ _ => ?_
    exact (raises_writeColumnBlocks _ _).bind fun _ _ => raises_pure _

/-- **No worker returns an error of the pool or of the collector.** -/
theorem raises_encodeJob [Crc32Fast] (schema : Schema) (job : RowGroupJob) :
    Raises Reported (encodeJob schema job) := by
  refine (raises_encodeJsonlRowGroup _ _).bind fun _ _ => Raises.bind ?_ fun _ _ => ?_
  · refine (raises_tryU64 (by decide)).bind fun _ _ => ?_
    refine (raises_tryU64 (by decide)).bind fun _ _ => ?_
    exact (raises_tryU64 (by decide)).bind fun _ _ => raises_pure _
  · refine (raises_tryU64 (by decide)).bind fun _ _ => ?_
    refine (raises_tryU64 (by decide)).bind fun _ _ => ?_
    exact (raises_tryU64 (by decide)).bind fun _ _ => raises_pure _

end

/-! ### What the collector writes before a job -/

section

variable [Crc32Fast] [SerdeJson] (schema : Schema)

/-- What a job adds to the stream. -/
def frameSize (job : RowGroupJob) : ℕ :=
  match encodeJob schema job with
  | .ok encoded => encoded.compressedSize.toNat
  | .error _ => 0

/-- The place of the first job that cannot be encoded. -/
def firstFailing (jobs : List RowGroupJob) : ℕ :=
  jobs.findIdx fun job => (encodeJob schema job).toOption.isNone

variable {schema}

/-- **The collector can write some blocks** if the stream stays within a word. -/
theorem foldlM_written (out : EncodedOutput) {good : List RowGroupJob}
    (hgood : ∀ job ∈ good, ∃ encoded, encodeJob schema job = .ok encoded) :
    (out.bytesWritten.toNat + (good.map (frameSize schema)).sum < 2 ^ 64 →
        ∃ out', good.foldlM (encodedBlocks.step (encodeJob schema)) out = .ok out') ∧
      (2 ^ 64 ≤ out.bytesWritten.toNat + (good.map (frameSize schema)).sum →
        good.foldlM (encodedBlocks.step (encodeJob schema)) out =
          .error (invalidInput "stream size overflow")) := by
  induction good generalizing out with
  | nil =>
      have hlt := out.bytesWritten.toNat_lt
      rw [List.map_nil, List.sum_nil, Nat.add_zero]
      exact ⟨fun _ => ⟨out, rfl⟩, fun hle => absurd hlt (Nat.not_lt.2 hle)⟩
  | cons job good ih =>
      obtain ⟨encoded, hencode⟩ := hgood job List.mem_cons_self
      have hsize : frameSize schema job = encoded.compressedSize.toNat := by
        rw [frameSize, hencode]
      have hstep : encodedBlocks.step (encodeJob schema) out job = writeEncoded out encoded := by
        rw [Sink.step, hencode]
        rfl
      rw [List.map_cons, List.sum_cons, List.foldlM_cons, hsize, hstep, ← Nat.add_assoc]
      by_cases hroom : out.bytesWritten.toNat + encoded.compressedSize.toNat < 2 ^ 64
      · have hadd : checkedAdd out.bytesWritten encoded.compressedSize =
            some (UInt64.ofNat (out.bytesWritten.toNat + encoded.compressedSize.toNat)) :=
          checkedAdd_eq_some.2 (toNat_ofNat hroom)
        have hrest := fun out => ih out fun job hjob => hgood job (List.mem_cons_of_mem _ hjob)
        rw [writeEncoded, hadd]
        have hnext := hrest ⟨out.writer ++ encoded.encodedFrame,
          UInt64.ofNat (out.bytesWritten.toNat + encoded.compressedSize.toNat),
          out.metadata ++ [⟨encoded.blockIndex, out.bytesWritten, encoded.rowCount,
            encoded.uncompressedSize, encoded.compressedSize, encoded.checksum⟩]⟩
        rw [toNat_ofNat hroom] at hnext
        exact hnext
      · have hadd : checkedAdd out.bytesWritten encoded.compressedSize = none := if_neg hroom
        rw [writeEncoded, hadd]
        exact ⟨fun hlt => absurd (Nat.lt_of_le_of_lt (Nat.le_add_right _ _) hlt) hroom,
          fun _ => rfl⟩

/-- The jobs before the first one that cannot be encoded. -/
theorem exists_firstFailing {jobs : List RowGroupJob}
    (h : ∃ job ∈ jobs, ∃ e, encodeJob schema job = .error e) : ∃ good bad after e,
      jobs = good ++ bad :: after ∧ (∀ job ∈ good, ∃ encoded, encodeJob schema job = .ok encoded) ∧
        encodeJob schema bad = .error e ∧ firstFailing schema jobs = good.length := by
  induction jobs with
  | nil =>
      obtain ⟨job, hmem, -⟩ := h
      cases hmem
  | cons job jobs ih =>
      cases hencode : encodeJob schema job with
      | error e =>
          refine ⟨[], job, jobs, e, rfl, by simp, hencode, ?_⟩
          rw [firstFailing, List.findIdx_cons, hencode]
          rfl
      | ok encoded =>
          obtain ⟨job', hmem, e, herror⟩ := h
          have hmem' : job' ∈ jobs := by
            rcases List.mem_cons.1 hmem with rfl | hmem
            · rw [hencode] at herror
              cases herror
            · exact hmem
          obtain ⟨good, bad, after, e', rfl, hgood, hbad, hfirst⟩ := ih ⟨job', hmem', e, herror⟩
          refine ⟨job :: good, bad, after, e', rfl, ?_, hbad, ?_⟩
          · exact List.forall_mem_cons.2 ⟨⟨encoded, hencode⟩, hgood⟩
          · rw [firstFailing, List.findIdx_cons, hencode]
            rw [firstFailing] at hfirst
            rw [hfirst]
            rfl

/-! ### Runs in which the error of a worker is lost -/

/-- The pool of an encoder whose options are valid and whose input can be read. -/
theorem encodeJsonlStreamParallel_eq {input : BufRead} {output : List UInt8}
    {options : ParallelOptions} {workers : Workers} {blockOptions : BlockOptions}
    {jobs : List RowGroupJob} {count : UInt64}
    (hvalid : options.validate = .ok (workers, blockOptions))
    (hschedule : scheduleJobs input blockOptions = (jobs, .ok count)) :
    encodeJsonlStreamParallel input output schema options =
      (pool encodedBlocks workers (jobs, .ok count) (encodeJob schema) (.start output)
        concludeEncode).program := by
  rw [encodeJsonlStreamParallel, hvalid]
  show (pool _ _ (scheduleJobs input blockOptions) _ _ _).program = _
  rw [hschedule]

/-- The collector receives the results of the first jobs in block order. -/
theorem foldlM_collect (output : List UInt8) {jobs good after : List RowGroupJob}
    (hnumbered : encodedBlocks.Numbered (encodeJob schema) jobs) (hjobs : jobs = good ++ after) :
    good.foldlM (fun s job => encodedBlocks.receive s (encodeJob schema job))
        (.start (.start output)) = do
      let out ← good.foldlM (encodedBlocks.step (encodeJob schema)) (.start output)
      return ⟨∅, UInt64.ofNat good.length, UInt64.ofNat good.length, out⟩ := by
  have hlen := hnumbered.length_lt
  have hzero : (0 : UInt64).toNat = 0 := rfl
  rw [hjobs, List.length_append] at hlen
  have hreceive :=
    @Sink.foldlM_receive _ _ encodedBlocks _ (encodeJob schema) 0 (.start output) good
    (fun {k job item} hget hwork => by
      have hget' : jobs[k]? = some job := by
        rw [hjobs, List.getElem?_append_left (List.getElem?_eq_some_iff.1 hget).1]
        exact hget
      rw [hnumbered.index_eq hget' hwork, hzero, Nat.zero_add])
    (by omega)
  rw [hzero, Nat.zero_add] at hreceive
  exact hreceive

/-- With jobs enough behind the first one that fails, some run returns that a send was refused. -/
theorem returns_stopped {output : List UInt8} {workers : Workers}
    {jobs good after : List RowGroupJob} {bad : RowGroupJob} {count : UInt64} {e : CompactError}
    (hnumbered : encodedBlocks.Numbered (encodeJob schema) jobs)
    (hjobs : jobs = good ++ bad :: after)
    (hgood : ∀ job ∈ good, ∃ encoded, encodeJob schema job = .ok encoded)
    (hbad : encodeJob schema bad = .error e) (hworkers : workers.count + 2 ≤ jobs.length)
    (hafter : good.length + 3 ≤ jobs.length)
    (hroom : streamHeaderLen + (good.map (frameSize schema)).sum < 2 ^ 64) :
    (pool encodedBlocks workers (jobs, .ok count) (encodeJob schema) (.start output)
      concludeEncode).program.Returns (.error (invalidInput "parallel worker pool stopped")) := by
  obtain ⟨out, hfold⟩ := (foldlM_written (.start output) hgood).1 hroom
  have hgather := foldlM_collect output hnumbered hjobs
  rw [hfold] at hgather
  refine Pool.returns_refused (e := e) hjobs hgather (fun state' => ?_) hworkers hafter
  show encodedBlocks.receive state' (encodeJob schema bad) = .error e
  rw [hbad]
  rfl

/-- If the blocks before it do not fit in a word, some run returns neither's error. -/
theorem returns_overflow (output : List UInt8) (workers : Workers) (count : UInt64)
    {jobs good after : List RowGroupJob} {bad : RowGroupJob}
    (hnumbered : encodedBlocks.Numbered (encodeJob schema) jobs)
    (hjobs : jobs = good ++ bad :: after)
    (hgood : ∀ job ∈ good, ∃ encoded, encodeJob schema job = .ok encoded)
    (hfull : 2 ^ 64 ≤ streamHeaderLen + (good.map (frameSize schema)).sum) :
    ∃ e, ¬Reported e ∧ (pool encodedBlocks workers (jobs, .ok count) (encodeJob schema)
      (.start output) concludeEncode).program.Returns (.error e) := by
  have hfold := (foldlM_written (.start output) hgood).2 hfull
  have hcollect := foldlM_collect output hnumbered hjobs
  rw [hfold] at hcollect
  obtain ⟨before, job, rest, state, rfl, hgather, hfail⟩ := exists_foldlM_error hcollect
  have hsplit : jobs = before ++ job :: (rest ++ bad :: after) := by
    rw [hjobs, List.append_assoc]
    rfl
  have hreturns := Pool.returns_failed
    (p := pool encodedBlocks workers (jobs, .ok count) (encodeJob schema) (.start output)
      concludeEncode) hsplit hgather hfail rfl
  rcases hreturns with hreturns | hreturns
  · exact ⟨_, fun h => h.2 rfl, hreturns⟩
  · exact ⟨_, fun h => h.1 rfl, hreturns⟩

/-! ### When every run returns the error of a worker -/

/-- **When every run returns the error of a worker**: there is no job for the scheduler behind those
that the workers lose, or the first job that fails is one of the last two; and the blocks before
that job fit in a word. -/
theorem always_reported_iff {input : BufRead} {output : List UInt8} {options : ParallelOptions}
    {workers : Workers} {blockOptions : BlockOptions} {jobs : List RowGroupJob} {count : UInt64}
    (hvalid : options.validate = .ok (workers, blockOptions))
    (hschedule : scheduleJobs input blockOptions = (jobs, .ok count))
    (hfail : ∃ job ∈ jobs, ∃ e, encodeJob schema job = .error e) :
    (encodeJsonlStreamParallel input output schema options).Always
        (fun r => ∃ job ∈ jobs, ∃ e, encodeJob schema job = .error e ∧ r = .error e) ↔
      (jobs.length ≤ workers.count + 1 ∨ jobs.length ≤ firstFailing schema jobs + 2) ∧
        streamHeaderLen + ((jobs.take (firstFailing schema jobs)).map (frameSize schema)).sum <
          2 ^ 64 := by
  obtain ⟨lines, rows, -, -, hscheduled, hcount⟩ := scheduleJobs_ok hschedule
  have hnumbered := hscheduled.numbered schema (hcount ▸ count.toNat_lt)
  obtain ⟨good, bad, after, e, hjobs, hgood, hbad, hfirst⟩ := exists_firstFailing hfail
  have htake : jobs.take (firstFailing schema jobs) = good := by
    rw [hfirst, hjobs, List.take_left]
  rw [encodeJsonlStreamParallel_eq hvalid hschedule, htake, hfirst]
  constructor
  · intro halways
    -- a run that returns anything else is excluded
    have hnot : ∀ e, ¬Reported e → ¬(pool encodedBlocks workers (jobs, .ok count)
        (encodeJob schema) (.start output) concludeEncode).program.Returns (.error e) := by
      intro e he hreturns
      obtain ⟨job, -, e', hjob, heq⟩ := halways.of_returns hreturns
      cases heq
      exact he (raises_encodeJob schema job e hjob)
    have hroom : streamHeaderLen + (good.map (frameSize schema)).sum < 2 ^ 64 := by
      by_contra hfull
      obtain ⟨e', he', hreturns⟩ := returns_overflow output workers count
        hnumbered hjobs hgood (Nat.le_of_not_lt hfull)
      exact hnot e' he' hreturns
    refine ⟨?_, hroom⟩
    by_contra hlen
    rw [not_or, Nat.not_le, Nat.not_le] at hlen
    exact hnot _ (fun h => h.1 rfl)
      (returns_stopped hnumbered hjobs hgood hbad (by omega) (by omega) hroom)
  · rintro ⟨hlen, hroom⟩
    obtain ⟨out, hfold⟩ := (foldlM_written (.start output) hgood).1 hroom
    -- jobs that can all be encoded are among the first ones
    have hinit : ∀ done, done <+: jobs →
        (∀ job ∈ done, ∃ encoded, encodeJob schema job = .ok encoded) → done <+: good := by
      rintro done hdone hworked
      rw [hjobs] at hdone
      rcases Nat.lt_or_ge good.length done.length with hlt | hge
      · have hlong : good ++ [bad] <+: done := by
          refine List.prefix_of_prefix_length_le ⟨after, by simp⟩ hdone ?_
          rw [List.length_append, List.length_singleton]
          exact hlt
        obtain ⟨encoded, hencode⟩ := hworked bad (hlong.subset (by simp))
        rw [hbad] at hencode
        cases hencode
      · exact List.prefix_of_prefix_length_le hdone ⟨bad :: after, rfl⟩ hge
    refine (always_returned hnumbered).mono ?_
    rintro r (⟨hfold'⟩ | ⟨hmem, hwork⟩ | ⟨hdone, hworked, hfold'⟩ | ⟨hmem, hwork, hworkers⟩)
    · rw [hjobs, List.foldlM_append, bind_ok] at hfold'
      obtain ⟨_, -, hrest⟩ := hfold'
      rw [List.foldlM_cons, bind_ok] at hrest
      obtain ⟨_, hstep, -⟩ := hrest
      obtain ⟨_, hencode, -⟩ := Sink.step_ok.1 hstep
      rw [hbad] at hencode
      cases hencode
    · exact ⟨_, hmem, _, hwork, rfl⟩
    · obtain ⟨rest, rfl⟩ := hinit _ hdone hworked
      rw [List.foldlM_append, hfold'] at hfold
      cases hfold
    · -- the first jobs, without the last two, can be encoded
      have hlast : jobs.length ≤ good.length + 2 := by
        rcases hlen with hlen | hlen
        · change workers.count + 2 ≤ jobs.length at hworkers
          omega
        · exact hlen
      have hfew : jobs.take (jobs.length - 2) <+: good := by
        refine List.prefix_of_prefix_length_le (List.take_prefix _ _) ⟨bad :: after, hjobs.symm⟩ ?_
        rw [List.length_take]
        omega
      obtain ⟨encoded, hencode⟩ := hgood _ (hfew.subset hmem)
      rw [hwork] at hencode
      cases hencode

end

section

open scoped CompactCore.Reference

/-- The jobs of three lines that are no JSON, with a row group for each. -/
def brokenJobs : List RowGroupJob := [⟨0, 0, "x\n"⟩, ⟨1, 1, "x\n"⟩, ⟨2, 2, "x\n"⟩]

theorem scheduleJobs_broken :
    scheduleJobs (.cursor (asBytes "x\nx\nx\n")) ⟨1, 64⟩ = (brokenJobs, .ok 3) := by
  decide +kernel

theorem encodeJob_broken : ∀ job ∈ brokenJobs,
    encodeJob (Reference.idSchema .deltaVarintU64) job = .error (invalidInput "invalid jsonl") := by
  decide +kernel

theorem validate_one_worker :
    (⟨1, 1, 64⟩ : ParallelOptions).validate = .ok (⟨1, by decide, by decide⟩, ⟨1, 64⟩) := rfl

theorem validate_two_workers :
    (⟨2, 1, 64⟩ : ParallelOptions).validate = .ok (⟨2, by decide, by decide⟩, ⟨1, 64⟩) := rfl

/-- The result is the error of a job. -/
def BrokenReported (r : Result (List UInt8)) : Prop :=
  ∃ job ∈ brokenJobs, ∃ e, encodeJob (Reference.idSchema .deltaVarintU64) job = .error e ∧
    r = .error e

/-- Three jobs that all fail: with one worker their error can be lost, and with two it cannot. -/
theorem always_reported_iff_broken :
    ¬(encodeJsonlStreamParallel (.cursor (asBytes "x\nx\nx\n")) []
        (Reference.idSchema .deltaVarintU64) ⟨1, 1, 64⟩).Always BrokenReported ∧
      (encodeJsonlStreamParallel (.cursor (asBytes "x\nx\nx\n")) []
        (Reference.idSchema .deltaVarintU64) ⟨2, 1, 64⟩).Always BrokenReported := by
  have hfail : ∃ job ∈ brokenJobs, ∃ e,
      encodeJob (Reference.idSchema .deltaVarintU64) job = .error e :=
    ⟨⟨0, 0, "x\n"⟩, List.mem_cons_self, _, encodeJob_broken _ List.mem_cons_self⟩
  constructor
  · intro halways
    have hcondition := (always_reported_iff validate_one_worker scheduleJobs_broken hfail).1 halways
    exact absurd hcondition.1 (by decide +kernel)
  · exact (always_reported_iff validate_two_workers scheduleJobs_broken hfail).2
      ⟨by decide +kernel, by decide +kernel⟩

/-- **A worker's error that is lost**: some run returns that a send was refused. -/
theorem encodeJsonlStreamParallel_stopped :
    (∀ job ∈ brokenJobs,
      encodeJob (Reference.idSchema .deltaVarintU64) job = .error (invalidInput "invalid jsonl")) ∧
    scheduleJobs (.cursor (asBytes "x\nx\nx\n")) ⟨1, 64⟩ = (brokenJobs, .ok 3) ∧
    (encodeJsonlStreamParallel (.cursor (asBytes "x\nx\nx\n")) []
      (Reference.idSchema .deltaVarintU64) ⟨1, 1, 64⟩).Returns
        (.error (invalidInput "parallel worker pool stopped")) := by
  refine ⟨encodeJob_broken, scheduleJobs_broken, ?_⟩
  obtain ⟨lines, rows, -, -, hscheduled, hcount⟩ := scheduleJobs_ok scheduleJobs_broken
  have hnumbered := hscheduled.numbered (Reference.idSchema .deltaVarintU64)
    (hcount ▸ (3 : UInt64).toNat_lt)
  rw [encodeJsonlStreamParallel_eq validate_one_worker scheduleJobs_broken]
  have hjobs : brokenJobs = [] ++ ⟨0, 0, "x\n"⟩ :: [⟨1, 1, "x\n"⟩, ⟨2, 2, "x\n"⟩] := rfl
  exact returns_stopped hnumbered hjobs (by simp) (encodeJob_broken _ List.mem_cons_self)
    (Nat.le_refl 3) (Nat.le_refl 3) (by decide)

end

end CompactCore.Parallel
