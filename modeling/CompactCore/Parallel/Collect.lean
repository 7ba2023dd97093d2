/-
**Collecting the results of workers in block order.**

The parallel encoder and the parallel decoder both run a pool of workers whose results arrive in any
order.  The collector keeps a result until the results of all blocks before it have been written.
What it has written is therefore what a loop over the blocks in order would have written, whatever
the order of arrival.

Main definitions:

* `CompactCore.Parallel.Workers`, `CompactCore.Parallel.ParallelOptions` — the options;
* `CompactCore.Parallel.Sink`, `CompactCore.Parallel.Reorder` — the collector;
* `CompactCore.Parallel.Sink.step` — what the same loop does in block order;
* `CompactCore.Parallel.pool` — the pool that encoder and decoder run.

Main results:

* `CompactCore.Parallel.Sink.Holds.receive` — **a result that arrives keeps the output in order**;
* `CompactCore.Parallel.Sink.foldlM_receive` — results that arrive in block order;
* `CompactCore.Parallel.always_returned` — **what a pool returns**, in any order of its threads.
-/

import CompactCore.Streaming.RowGroup
import CompactCore.Wire.Loop
import CompactCore.Wire.Pool
import Mathlib.Data.List.AList

set_option relaxedAutoImplicit false
set_option autoImplicit false

namespace CompactCore.Parallel

open Wire CompactError Streaming

/-! ### Options -/

/-- A number of worker threads within the limit. -/
structure Workers where
  count : ℕ
  pos : 0 < count
  le : count ≤ maxParallelWorkers

/-- `ParallelDecodeOptions::validate`, and the check of the encoder's worker count. -/
def Workers.validate (workerCount : ℕ) : Result Workers :=
  if hzero : workerCount = 0 then
    .error (invalidInput "parallel worker count must be greater than zero")
  else if hmax : maxParallelWorkers < workerCount then
    .error (invalidInput "parallel worker count exceeds configured limit")
  else .ok ⟨workerCount, Nat.pos_of_ne_zero hzero, Nat.le_of_not_lt hmax⟩

theorem Workers.validate_ok {workerCount : ℕ} {workers : Workers} :
    Workers.validate workerCount = .ok workers ↔ workers.count = workerCount := by
  obtain ⟨count, hpos, hle⟩ := workers
  unfold Workers.validate
  constructor
  · intro h
    split at h
    · cases h
    · split at h
      · cases h
      · cases h
        rfl
  · rintro rfl
    rw [dif_neg (Nat.pos_iff_ne_zero.1 hpos), dif_neg (Nat.not_lt.2 hle)]

/-- Configuration for the parallel block encoder. -/
structure ParallelOptions where
  workerCount : ℕ
  blockOptions : BlockOptions
  deriving DecidableEq, Repr

def ParallelOptions.validate (options : ParallelOptions) : Result (Workers × BlockOptions) := do
  let workers ← Workers.validate options.workerCount
  let blockOptions ← options.blockOptions.validate
  return (workers, blockOptions)

/-! ### The collector -/

/-- What a collector does with the results: the block that a result is about, and writing it. -/
structure Sink (α σ : Type) where
  blockIndex : α → UInt64
  write : σ → α → Result σ

/-- The results that wait for an earlier one, and what has been written. -/
structure Reorder (α σ : Type) where
  pending : AList fun _ : UInt64 => α
  nextToWrite : UInt64
  resultCount : UInt64
  output : σ

variable {α σ : Type}

def Reorder.start (output : σ) : Reorder α σ := ⟨∅, 0, 0, output⟩

/-- All results have arrived. -/
def Reorder.finish (s : Reorder α σ) : Result (UInt64 × σ) := do
  failIf (s.nextToWrite ≠ s.resultCount ∨ s.pending.entries ≠ [])
    (invalidInput "parallel block results are incomplete")
  return (s.resultCount, s.output)

namespace Sink

variable (sink : Sink α σ)

/-- Write the next block, if it is here. -/
def writeNext (s : Reorder α σ) : Result (Option (Reorder α σ)) :=
  match s.pending.lookup s.nextToWrite with
  | none => .ok none
  | some item => do
      let output ← sink.write s.output item
      let nextToWrite ← okOr (invalidInput "parallel block index overflow")
        (checkedAdd s.nextToWrite 1)
      return some ⟨s.pending.erase s.nextToWrite, nextToWrite, s.resultCount, output⟩

theorem writeNext_some {s s' : Reorder α σ} :
    sink.writeNext s = .ok (some s') ↔ ∃ item, s.pending.lookup s.nextToWrite = some item ∧
      sink.write s.output item = .ok s'.output ∧
      s'.nextToWrite.toNat = s.nextToWrite.toNat + 1 ∧
      s'.pending = s.pending.erase s.nextToWrite ∧ s'.resultCount = s.resultCount := by
  unfold writeNext
  cases hlookup : s.pending.lookup s.nextToWrite with
  | none => simp
  | some item =>
      obtain ⟨pending, next, count, output⟩ := s'
      simp only [bind_ok, okOr_ok, checkedAdd_eq_some, pure_ok, Option.some.injEq, Reorder.mk.injEq]
      constructor
      · rintro ⟨_, hwrite, _, hnext, rfl, rfl, rfl, rfl⟩
        exact ⟨item, rfl, hwrite, hnext, rfl, rfl⟩
      · rintro ⟨_, rfl, hwrite, hnext, rfl, rfl⟩
        exact ⟨_, hwrite, _, hnext, rfl, rfl, rfl, rfl⟩

/-- The inner loop of the collectors: every round takes a result away. -/
def drain : Loop CompactError (Reorder α σ) where
  step := sink.writeNext
  measure s := s.pending.entries.length
  decreases {s s'} h := by
    obtain ⟨item, hlookup, _, _, hpending, _⟩ := sink.writeNext_some.1 h
    have hmem : s.nextToWrite ∈ s.pending.keys := by
      rw [← AList.mem_keys, ← AList.lookup_isSome, hlookup]
      rfl
    obtain ⟨_, _, _, _, heq, herase⟩ := List.exists_of_kerase hmem
    show s'.pending.entries.length < s.pending.entries.length
    rw [hpending]
    show (List.kerase s.nextToWrite s.pending.entries).length < _
    rw [herase, heq]
    simp

/-- A result arrives. -/
def receive (s : Reorder α σ) (result : Result α) : Result (Reorder α σ) := do
  let item ← result
  let resultCount ← okOr (invalidInput "parallel result count overflow")
    (checkedAdd s.resultCount 1)
  sink.drain.run { s with
    pending := s.pending.insert (sink.blockIndex item) item
    resultCount := resultCount }

/-! ### The output is written in block order -/

variable {J : Type} (work : J → Result α)

/-- What is done with a job when the jobs are worked off in block order. -/
def step (output : σ) (job : J) : Result σ := do
  let item ← work job
  sink.write output item

/-- The jobs are those of the blocks `0`, `1`, and so on. -/
structure Numbered (jobs : List J) : Prop where
  index_eq : ∀ {k : ℕ} {job : J} {item : α}, jobs[k]? = some job → work job = .ok item →
    (sink.blockIndex item).toNat = k
  nodup : jobs.Nodup
  length_lt : jobs.length < 2 ^ 64

/-- The collector has received the results of `got` and written those of `done`. -/
structure Keeps (start : σ) (jobs got done rest : List J) (s : Reorder α σ) : Prop where
  jobs_eq : jobs = done ++ rest
  next_eq : s.nextToWrite.toNat = done.length
  count_eq : s.resultCount.toNat = got.length
  output_eq : done.foldlM (sink.step work) start = .ok s.output
  done_sub : done ⊆ got
  worked : ∀ job ∈ got, ∃ item, work job = .ok item
  pending_iff : ∀ x item, s.pending.lookup x = some item ↔
    ∃ job ∈ got, work job = .ok item ∧ sink.blockIndex item = x ∧ done.length ≤ x.toNat

/-- The collector has received the results of `got`, and written as many as it can. -/
def Holds (start : σ) (jobs got : List J) (s : Reorder α σ) : Prop :=
  ∃ done rest, sink.Keeps work start jobs got done rest s ∧ s.pending.lookup s.nextToWrite = none

variable {sink work} {start : σ} {jobs got done rest : List J} {s s' : Reorder α σ}

theorem step_ok {output output' : σ} {job : J} :
    sink.step work output job = .ok output' ↔
      ∃ item, work job = .ok item ∧ sink.write output item = .ok output' := bind_ok

theorem holds_start : sink.Holds work start jobs [] (Reorder.start start) :=
  ⟨[], jobs, ⟨rfl, rfl, rfl, rfl, by simp, by simp, by simp [Reorder.start]⟩, rfl⟩

/-- A block index says where the job of the block is. -/
theorem Numbered.get (h : sink.Numbered work jobs) {job : J} {item : α} (hmem : job ∈ jobs)
    (hwork : work job = .ok item) : jobs[(sink.blockIndex item).toNat]? = some job := by
  obtain ⟨k, hk⟩ := List.mem_iff_getElem?.1 hmem
  rw [h.index_eq hk hwork]
  exact hk

theorem Numbered.unique (h : sink.Numbered work jobs) {job job' : J} {item item' : α}
    (hmem : job ∈ jobs) (hmem' : job' ∈ jobs) (hwork : work job = .ok item)
    (hwork' : work job' = .ok item') (hindex : sink.blockIndex item = sink.blockIndex item') :
    job = job' := by
  have hget := h.get hmem hwork
  rw [hindex, h.get hmem' hwork'] at hget
  exact (Option.some.inj hget).symm

theorem Keeps.foldlM_concat (hk : sink.Keeps work start jobs got done rest s) {job : J} {item : α}
    (hwork : work job = .ok item) :
    (done ++ [job]).foldlM (sink.step work) start = sink.write s.output item := by
  have hstep : sink.step work s.output job = sink.write s.output item := by
    rw [step, hwork]
    rfl
  rw [← hstep]
  simp only [List.foldlM_append, hk.output_eq, List.foldlM_cons, List.foldlM_nil, bind_pure]
  rfl

/-- The block that comes next. -/
theorem Keeps.next (hk : sink.Keeps work start jobs got done rest s)
    (h : sink.Numbered work jobs) (hsub : got ⊆ jobs) {item : α}
    (hlookup : s.pending.lookup s.nextToWrite = some item) :
    ∃ job rest', rest = job :: rest' ∧ job ∈ got ∧ work job = .ok item := by
  obtain ⟨job, hmem, hwork, hindex, _⟩ := (hk.pending_iff _ _).1 hlookup
  have hget := h.get (hsub hmem) hwork
  rw [hindex, hk.next_eq, hk.jobs_eq, List.getElem?_append_right (le_refl _), Nat.sub_self] at hget
  obtain ⟨rest', hrest⟩ := List.head?_eq_some_iff.1 (List.head?_eq_getElem?.trans hget)
  exact ⟨job, rest', hrest, hmem, hwork⟩

/-- Writing a block keeps the output in order. -/
theorem Keeps.writeNext (hk : sink.Keeps work start jobs got done rest s)
    (h : sink.Numbered work jobs) (hsub : got ⊆ jobs) (hstep : sink.writeNext s = .ok (some s')) :
    ∃ done rest, sink.Keeps work start jobs got done rest s' := by
  obtain ⟨item, hlookup, hwrite, hnext, hpending, hcount⟩ := sink.writeNext_some.1 hstep
  obtain ⟨job, rest, rfl, hmem, hwork⟩ := hk.next h hsub hlookup
  refine ⟨done ++ [job], rest, by rw [hk.jobs_eq, List.append_cons], ?_, ?_, ?_, ?_, hk.worked, ?_⟩
  · rw [hnext, hk.next_eq, List.length_append, List.length_singleton]
  · rw [hcount, hk.count_eq]
  · rw [hk.foldlM_concat hwork, hwrite]
  · exact List.append_subset.2 ⟨hk.done_sub, by simpa using hmem⟩
  · intro x item'
    rw [hpending, List.length_append, List.length_singleton]
    by_cases hx : x = s.nextToWrite
    · subst hx
      rw [AList.lookup_erase, hk.next_eq]
      simp
    · have hne : x.toNat ≠ done.length := by
        rw [← hk.next_eq, ne_eq, UInt64.toNat_inj]
        exact hx
      rw [AList.lookup_erase_ne hx, hk.pending_iff]
      constructor
      · rintro ⟨j, hj, hj', hindex, hle⟩
        exact ⟨j, hj, hj', hindex, by omega⟩
      · rintro ⟨j, hj, hj', hindex, hle⟩
        exact ⟨j, hj, hj', hindex, by omega⟩

/-- Where the collector fails to write a block, so does the loop in block order. -/
theorem Keeps.writeNext_error {e : CompactError}
    (hk : sink.Keeps work start jobs got done rest s) (h : sink.Numbered work jobs)
    (hsub : got ⊆ jobs) (hstep : sink.writeNext s = .error e) :
    ∃ done, done <+: jobs ∧ (∀ job ∈ done, ∃ item, work job = .ok item) ∧
      done.foldlM (sink.step work) start = .error e := by
  unfold Sink.writeNext at hstep
  cases hlookup : s.pending.lookup s.nextToWrite with
  | none => simp [hlookup] at hstep
  | some item =>
      obtain ⟨job, rest, rfl, hmem, hwork⟩ := hk.next h hsub hlookup
      refine ⟨done ++ [job], ⟨rest, by rw [hk.jobs_eq, List.append_assoc]; rfl⟩, ?_, ?_⟩
      · rintro j hj
        rcases List.mem_append.1 hj with hj | hj
        · exact hk.worked j (hk.done_sub hj)
        · rw [List.mem_singleton.1 hj]
          exact ⟨item, hwork⟩
      · rw [hk.foldlM_concat hwork]
        simp only [hlookup] at hstep
        cases hwrite : sink.write s.output item with
        | error e' =>
            rw [hwrite] at hstep
            cases hstep
            rfl
        | ok output =>
            -- there are too few blocks for the index to overflow
            exfalso
            have hlen := h.length_lt
            have hone : (1 : UInt64).toNat = 1 := rfl
            rw [hk.jobs_eq, List.length_append, List.length_cons] at hlen
            rw [hwrite, checkedAdd, if_pos (by rw [hk.next_eq]; omega)] at hstep
            cases hstep

/-- A result that arrives is kept. -/
theorem Keeps.insert {job : J} {item : α} (hk : sink.Keeps work start jobs got done rest s)
    (h : sink.Numbered work jobs) (hsub : (got ++ [job]).Subperm jobs)
    (hwork : work job = .ok item) {resultCount : UInt64}
    (hcount : resultCount.toNat = s.resultCount.toNat + 1) :
    sink.Keeps work start jobs (got ++ [job]) done rest
      { s with
        pending := s.pending.insert (sink.blockIndex item) item
        resultCount := resultCount } := by
  have hall := hsub.subset
  have hjob : job ∈ jobs := hall (by simp)
  have hnew : job ∉ got := by
    have hnodup : (got ++ [job]).Nodup := by
      obtain ⟨l, hperm, hl⟩ := hsub
      exact hperm.nodup_iff.1 (h.nodup.sublist hl)
    intro hmem
    exact (List.nodup_append.1 hnodup).2.2 job hmem job List.mem_cons_self rfl
  refine ⟨hk.jobs_eq, hk.next_eq, ?_, hk.output_eq, ?_, ?_, ?_⟩
  · rw [hcount, hk.count_eq, List.length_append, List.length_singleton]
  · exact fun j hj => List.mem_append_left _ (hk.done_sub hj)
  · intro j hj
    rcases List.mem_append.1 hj with hj | hj
    · exact hk.worked j hj
    · rw [List.mem_singleton.1 hj]
      exact ⟨item, hwork⟩
  · intro x item'
    by_cases hx : x = sink.blockIndex item
    · subst hx
      rw [AList.lookup_insert, Option.some.injEq]
      constructor
      · rintro rfl
        refine ⟨job, by simp, hwork, rfl, ?_⟩
        -- the block is not among those that have been written
        by_contra hlt
        have hget := h.get hjob hwork
        rw [hk.jobs_eq, List.getElem?_append_left (Nat.lt_of_not_le hlt)] at hget
        exact hnew (hk.done_sub (List.mem_of_getElem? hget))
      · rintro ⟨j, hj, hj', hindex, -⟩
        have hsame := h.unique hjob (hall hj) hwork hj' hindex.symm
        rw [← hsame, hwork] at hj'
        exact Except.ok.inj hj'
    · rw [AList.lookup_insert_ne hx, hk.pending_iff]
      constructor
      · rintro ⟨j, hj, hrest⟩
        exact ⟨j, List.mem_append_left _ hj, hrest⟩
      · rintro ⟨j, hj, hj', hindex, hle⟩
        rcases List.mem_append.1 hj with hj | hj
        · exact ⟨j, hj, hj', hindex, hle⟩
        · rw [List.mem_singleton.1 hj, hwork] at hj'
          cases hj'
          exact absurd hindex.symm hx

/-- The inner loop writes what it can, and fails only where the loop in block order does. -/
theorem Keeps.drain (hk : sink.Keeps work start jobs got done rest s)
    (h : sink.Numbered work jobs) (hsub : got ⊆ jobs) :
    (∀ s', sink.drain.run s = .ok s' → sink.Holds work start jobs got s') ∧
      ∀ e, sink.drain.run s = .error e →
        ∃ done, done <+: jobs ∧ (∀ job ∈ done, ∃ item, work job = .ok item) ∧
          done.foldlM (sink.step work) start = .error e := by
  have hrounds : ∀ s', sink.drain.Rounds s s' →
      ∃ done rest, sink.Keeps work start jobs got done rest s' := by
    intro s' hrounds
    refine hrounds.invariant (P := fun s => ∃ done rest, sink.Keeps work start jobs got done rest s)
      ?_ ⟨done, rest, hk⟩
    rintro a b ⟨done, rest, hk⟩ hstep
    exact hk.writeNext h hsub hstep
  constructor
  · intro s' hrun
    obtain ⟨hsteps, hstop⟩ := Loop.run_ok.1 hrun
    obtain ⟨done, rest, hk'⟩ := hrounds s' hsteps
    refine ⟨done, rest, hk', ?_⟩
    cases hlookup : s'.pending.lookup s'.nextToWrite with
    | none => rfl
    | some item =>
        change sink.writeNext s' = .ok none at hstop
        simp only [Sink.writeNext, hlookup, bind_ok, pure_ok, reduceCtorEq, and_false,
          exists_false] at hstop
  · intro e hrun
    obtain ⟨s', hsteps, hfail⟩ := Loop.run_error.1 hrun
    obtain ⟨done, rest, hk'⟩ := hrounds s' hsteps
    exact hk'.writeNext_error h hsub hfail

/-- **A result that arrives keeps the output in order.**  The collector fails where the worker did,
or where the loop in block order does. -/
theorem Holds.receive {job : J} (hs : sink.Holds work start jobs got s)
    (h : sink.Numbered work jobs) (hsub : (got ++ [job]).Subperm jobs) :
    (∀ s', sink.receive s (work job) = .ok s' → sink.Holds work start jobs (got ++ [job]) s') ∧
      ∀ e, sink.receive s (work job) = .error e → work job = .error e ∨
        ∃ done, done <+: jobs ∧ (∀ job ∈ done, ∃ item, work job = .ok item) ∧
          done.foldlM (sink.step work) start = .error e := by
  obtain ⟨done, rest, hk, -⟩ := hs
  cases hwork : work job with
  | error e' =>
      refine ⟨fun s' hrun => ?_, fun e hrun => ?_⟩
      · cases hrun
      · cases hrun
        exact .inl rfl
  | ok item =>
      -- there are too few results for the count to overflow
      have hlen := hsub.length_le
      have hmax := h.length_lt
      have hone : (1 : UInt64).toNat = 1 := rfl
      rw [List.length_append, List.length_singleton] at hlen
      obtain ⟨count, hcount⟩ : ∃ count, checkedAdd s.resultCount 1 = some count :=
        ⟨_, if_pos (by rw [hk.count_eq]; omega)⟩
      have hreceive : sink.receive s (.ok item) = sink.drain.run { s with
          pending := s.pending.insert (sink.blockIndex item) item
          resultCount := count } := by
        rw [Sink.receive, hcount]
        rfl
      obtain ⟨hok, herror⟩ :=
        (hk.insert h hsub hwork (checkedAdd_eq_some.1 hcount)).drain h hsub.subset
      rw [hreceive]
      exact ⟨hok, fun e hrun => .inr (herror e hrun)⟩

/-- A result that is the next one is written at once. -/
theorem receive_next {next : UInt64} {output : σ} {item : α} (hindex : sink.blockIndex item = next)
    (hlt : next.toNat + 1 < 2 ^ 64) :
    sink.receive ⟨∅, next, next, output⟩ (.ok item) = do
      let output ← sink.write output item
      return ⟨∅, UInt64.ofNat (next.toNat + 1), UInt64.ofNat (next.toNat + 1), output⟩ := by
  have hadd : checkedAdd next 1 = some (UInt64.ofNat (next.toNat + 1)) :=
    checkedAdd_eq_some.2 (toNat_ofNat hlt)
  have hreceive : sink.receive ⟨∅, next, next, output⟩ (.ok item) =
      sink.drain.run ⟨AList.insert next item ∅, next, UInt64.ofNat (next.toNat + 1), output⟩ := by
    rw [Sink.receive, hadd]
    show sink.drain.run ⟨AList.insert (sink.blockIndex item) item ∅, next, _, output⟩ = _
    rw [hindex]
  have herase : AList.erase next (AList.insert next item (∅ : AList fun _ : UInt64 => α)) = ∅ := by
    have hkeys : (AList.erase next (AList.insert next item
        (∅ : AList fun _ : UInt64 => α))).keys = [] := by
      rw [AList.keys_erase, AList.keys_insert, AList.keys_empty, List.erase_nil,
        List.erase_cons_head]
    exact AList.ext (List.map_eq_nil_iff.1 hkeys)
  -- the result is written, and no other one waits
  have hstep : sink.writeNext ⟨AList.insert next item ∅, next, UInt64.ofNat (next.toNat + 1),
      output⟩ = do
        let output ← sink.write output item
        return some ⟨∅, UInt64.ofNat (next.toNat + 1), UInt64.ofNat (next.toNat + 1), output⟩ := by
    simp only [Sink.writeNext, AList.lookup_insert, hadd, herase]
    rfl
  rw [hreceive]
  cases hwrite : sink.write output item with
  | error e =>
      rw [hwrite] at hstep
      exact Loop.run_of_error hstep
  | ok output' =>
      rw [hwrite] at hstep
      have hround : sink.drain.step _ = .ok (some _) := hstep
      rw [Loop.run_of_some hround]
      exact Loop.run_of_none rfl

/-- **Results that arrive in block order** are written as in the loop over the blocks. -/
theorem foldlM_receive (next : UInt64) (output : σ) {jobs : List J}
    (hindex : ∀ {k : ℕ} {job : J} {item : α}, jobs[k]? = some job → work job = .ok item →
      (sink.blockIndex item).toNat = next.toNat + k)
    (hlt : next.toNat + jobs.length < 2 ^ 64) :
    jobs.foldlM (fun s job => sink.receive s (work job)) ⟨∅, next, next, output⟩ = do
      let output ← jobs.foldlM (sink.step work) output
      return ⟨∅, UInt64.ofNat (next.toNat + jobs.length), UInt64.ofNat (next.toNat + jobs.length),
        output⟩ := by
  induction jobs generalizing next output with
  | nil =>
      rw [List.foldlM_nil, List.foldlM_nil, List.length_nil, Nat.add_zero, UInt64.ofNat_toNat]
      rfl
  | cons job jobs ih =>
      rw [List.length_cons] at hlt
      rw [List.foldlM_cons, List.foldlM_cons, Sink.step]
      cases hwork : work job with
      | error e => rfl
      | ok item =>
          have hfirst : sink.blockIndex item = next :=
            UInt64.toNat_inj.1 (hindex (k := 0) rfl hwork)
          have hnext : (UInt64.ofNat (next.toNat + 1)).toNat = next.toNat + 1 :=
            toNat_ofNat (by omega)
          rw [receive_next hfirst (by omega)]
          cases hwrite : sink.write output item with
          | error e => simp only [bind, Except.bind, hwrite]
          | ok output' =>
              have hrest := ih (UInt64.ofNat (next.toNat + 1)) output'
                (fun {k job item} hget hwork => by
                  rw [hindex (k := k + 1) hget hwork, hnext]
                  omega)
                (by rw [hnext]; omega)
              rw [hnext, Nat.add_assoc, Nat.add_comm 1 jobs.length] at hrest
              simp only [bind, Except.bind, hwrite] at hrest ⊢
              exact hrest

/-- **When all results have arrived**, everything has been written in block order. -/
theorem Holds.finish (hs : sink.Holds work start jobs got s) (h : sink.Numbered work jobs)
    (hperm : got.Perm jobs) : ∃ output, jobs.foldlM (sink.step work) start = .ok output ∧
      s.finish = .ok (UInt64.ofNat jobs.length, output) := by
  obtain ⟨done, rest, hk, hnone⟩ := hs
  have hrest : rest = [] := by
    cases rest with
    | nil => rfl
    | cons job rest =>
        have hmem : job ∈ jobs := by rw [hk.jobs_eq]; simp
        have hget : jobs[done.length]? = some job := by rw [hk.jobs_eq]; simp
        obtain ⟨item, hwork⟩ := hk.worked job (hperm.mem_iff.2 hmem)
        have hindex := h.index_eq hget hwork
        have hlookup : s.pending.lookup s.nextToWrite = some item := by
          rw [hk.pending_iff]
          exact ⟨job, hperm.mem_iff.2 hmem, hwork,
            UInt64.toNat_inj.1 (hindex.trans hk.next_eq.symm), hk.next_eq.ge⟩
        rw [hnone] at hlookup
        cases hlookup
  have hdone : done = jobs := by rw [hk.jobs_eq, hrest, List.append_nil]
  subst hdone
  have hempty : s.pending.entries = [] := by
    by_contra hne
    obtain ⟨⟨x, item⟩, hentry⟩ := List.exists_mem_of_ne_nil _ hne
    have hlookup : s.pending.lookup x = some item := AList.mem_lookup_iff.2 hentry
    obtain ⟨job, hmem, hwork, hindex, hle⟩ := (hk.pending_iff _ _).1 hlookup
    have hget := h.get (hperm.mem_iff.1 hmem) hwork
    rw [hindex, List.getElem?_eq_none hle] at hget
    cases hget
  have hnext : s.nextToWrite = s.resultCount := by
    rw [← UInt64.toNat_inj, hk.next_eq, hk.count_eq, hperm.length_eq]
  have hcount : s.resultCount = UInt64.ofNat done.length := by
    rw [← hnext, ← hk.next_eq, UInt64.ofNat_toNat]
  refine ⟨s.output, hk.output_eq, ?_⟩
  rw [Reorder.finish, failIf_of_not (by simp [hempty, hnext]), hcount]
  rfl

end Sink

/-! ### The pool -/

section

variable {J β : Type} (sink : Sink α σ) (workers : Workers) (scheduled : List J × Result UInt64)
  (work : J → Result α) (start : σ) (conclude : UInt64 → UInt64 × σ → Result β)

/-- The pool that encoder and decoder run.  The scheduler sends the jobs of `scheduled`, and returns
its result when no send was refused. -/
def pool : Pool CompactError J (Result α) (Reorder α σ) UInt64 (UInt64 × σ) β where
  capacity := workers.count * 2
  workers := workers.count
  capacity_pos := Nat.mul_pos workers.pos (by decide)
  workers_pos := workers.pos
  jobs := scheduled.1
  outcome := scheduled.2
  refused := invalidInput "parallel worker pool stopped"
  work := work
  start := .start start
  collect := sink.receive
  finish := Reorder.finish
  conclude := conclude

/-- What a pool may return. -/
inductive Returned : Result β → Prop
  | complete {output : σ} (h : scheduled.1.foldlM (sink.step work) start = .ok output) :
      Returned do
        let jobCount ← scheduled.2
        conclude jobCount (UInt64.ofNat scheduled.1.length, output)
  | failed {job : J} {e : CompactError} (hmem : job ∈ scheduled.1) (hwork : work job = .error e) :
      Returned do
        let _ ← scheduled.2
        .error e
  | unwritten {done : List J} {e e' : CompactError} (hdone : done <+: scheduled.1)
      (hwork : ∀ job ∈ done, ∃ item, work job = .ok item)
      (h : done.foldlM (sink.step work) start = .error e) : Returned (.error e')
  | refused {job : J} {e : CompactError}
      (hmem : job ∈ scheduled.1.take (scheduled.1.length - 2)) (hwork : work job = .error e)
      (hlen : workers.count + 2 ≤ scheduled.1.length) :
      Returned (.error (invalidInput "parallel worker pool stopped"))

variable {sink workers scheduled work start conclude}

/-- The collector of a pool writes in block order. -/
theorem holds_of_gathers (h : sink.Numbered work scheduled.1) {got : List J} {s : Reorder α σ}
    (hsub : got.Subperm scheduled.1)
    (hgot : (pool sink workers scheduled work start conclude).Gathers got s) :
    sink.Holds work start scheduled.1 got s := by
  induction got using List.reverseRecOn generalizing s with
  | nil =>
      obtain rfl := Pool.gathers_nil.1 hgot
      exact Sink.holds_start
  | append_singleton got job ih =>
      obtain ⟨s₁, hgot, hcollect⟩ := Pool.gathers_concat.1 hgot
      have hs₁ := ih ((List.sublist_append_left got [job]).subperm.trans hsub) hgot
      exact (hs₁.receive h hsub).1 s hcollect

/-- **What a pool returns**, in any order of its threads. -/
theorem always_returned (h : sink.Numbered work scheduled.1) :
    (pool sink workers scheduled work start conclude).program.Always
      (Returned sink workers scheduled work start conclude) := by
  have hfails : ∀ got e, got.Subperm scheduled.1 →
      (pool sink workers scheduled work start conclude).Fails got e →
      (∃ job ∈ got, work job = .error e) ∨ ∃ done, done <+: scheduled.1 ∧
        (∀ job ∈ done, ∃ item, work job = .ok item) ∧
          done.foldlM (sink.step work) start = .error e := by
    rintro got e hsub ⟨before, job, s, rfl, hgot, hcollect⟩
    have hs := holds_of_gathers h
      ((List.sublist_append_left before [job]).subperm.trans hsub) hgot
    rcases (hs.receive h hsub).2 e hcollect with hwork | hdone
    · exact .inl ⟨job, by simp, hwork⟩
    · exact .inr hdone
  refine Pool.always_outcome.mono ?_
  rintro r (⟨hperm, hgot⟩ | ⟨hsub, hfail⟩ | ⟨hsub, hfail, hlen⟩)
  · obtain ⟨output, hfold, hfinish⟩ := (holds_of_gathers h hperm.subperm hgot).finish h hperm
    show Returned _ _ _ _ _ _ (do
      let n ← scheduled.2
      let t ← Reorder.finish _
      conclude n t)
    rw [hfinish]
    exact .complete hfold
  · rcases hfails _ _ hsub hfail with ⟨job, hmem, hwork⟩ | ⟨done, hdone, hwork, hfold⟩
    · exact .failed (hsub.subset hmem) hwork
    · show Returned _ _ _ _ _ _ (do
        let _ ← scheduled.2
        .error _)
      cases scheduled.2 with
      | error e => exact .unwritten hdone hwork hfold
      | ok n => exact .unwritten hdone hwork hfold
  · have hsub' : List.Subperm _ scheduled.1 := hsub.trans (List.take_sublist _ _).subperm
    rcases hfails _ _ hsub' hfail with ⟨job, hmem, hwork⟩ | ⟨done, hdone, hwork, hfold⟩
    · exact .refused (hsub.subset hmem) hwork hlen
    · exact .unwritten hdone hwork hfold

/-- A pool returns a value only where the loop in block order does. -/
theorem Returned.of_ok {b : β} (h : Returned sink workers scheduled work start conclude (.ok b)) :
    ∃ jobCount output, scheduled.2 = .ok jobCount ∧
      scheduled.1.foldlM (sink.step work) start = .ok output ∧
      conclude jobCount (UInt64.ofNat scheduled.1.length, output) = .ok b := by
  obtain ⟨r, hr⟩ : ∃ r, r = Except.ok (ε := CompactError) b := ⟨_, rfl⟩
  rw [← hr] at h
  cases h with
  | complete hfold =>
      obtain ⟨jobCount, hcount, hconclude⟩ := bind_ok.1 hr
      exact ⟨jobCount, _, hcount, hfold, hconclude⟩
  | failed _ _ =>
      obtain ⟨_, _, hnone⟩ := bind_ok.1 hr
      cases hnone
  | unwritten _ _ _ => cases hr
  | refused _ _ _ => cases hr

/-- **Where the loop in block order succeeds, so does every run**, and with the same value. -/
theorem always_ok (h : sink.Numbered work scheduled.1) {jobCount : UInt64} {output : σ} {b : β}
    (hscheduled : scheduled.2 = .ok jobCount)
    (hfold : scheduled.1.foldlM (sink.step work) start = .ok output)
    (hconclude : conclude jobCount (UInt64.ofNat scheduled.1.length, output) = .ok b) :
    (pool sink workers scheduled work start conclude).program.Always (· = .ok b) := by
  have hworked : ∀ done, done <+: scheduled.1 →
      ∃ output, done.foldlM (sink.step work) start = .ok output := by
    rintro done ⟨rest, hrest⟩
    rw [← hrest, List.foldlM_append, bind_ok] at hfold
    obtain ⟨output, hdone, _⟩ := hfold
    exact ⟨output, hdone⟩
  have hjob : ∀ job ∈ scheduled.1, ∃ item, work job = .ok item := by
    intro job hmem
    obtain ⟨done, rest, heq⟩ := List.append_of_mem hmem
    obtain ⟨output, hdone⟩ := hworked (done ++ [job]) ⟨rest, by simp [heq]⟩
    rw [List.foldlM_append, bind_ok] at hdone
    obtain ⟨_, -, hlast⟩ := hdone
    rw [List.foldlM_cons, bind_ok] at hlast
    obtain ⟨_, hstep, -⟩ := hlast
    obtain ⟨item, hwork, -⟩ := Sink.step_ok.1 hstep
    exact ⟨item, hwork⟩
  refine (always_returned h).mono ?_
  rintro r (⟨hfold'⟩ | ⟨hmem, hwork⟩ | ⟨hdone, -, hfold'⟩ | ⟨hmem, hwork, -⟩)
  · rw [hfold] at hfold'
    cases hfold'
    rw [hscheduled]
    exact hconclude
  · obtain ⟨item, hitem⟩ := hjob _ hmem
    rw [hwork] at hitem
    cases hitem
  · obtain ⟨output', houtput⟩ := hworked _ hdone
    rw [hfold'] at houtput
    cases houtput
  · obtain ⟨item, hitem⟩ := hjob _ (List.mem_of_mem_take hmem)
    rw [hwork] at hitem
    cases hitem

end

end CompactCore.Parallel
