/-
**A pool of workers between two bounded channels.**

A scheduler sends jobs through a bounded channel, workers take them, work them off and send what
they find through a second bounded channel, and a collector receives it.  A sender waits while its
channel is full, and its send fails once nobody is left who could receive; a receiver waits while
its channel is empty, and stops once nobody is left who could send.  A worker stops when either
happens to it; the collector stops as soon as it cannot use what it received.  Who goes on next is
left open.

A `Ledger` accounts for every job of a run.  From it: a run ends, without a deadlock, in one of the
three ways that `Pool.Outcome` lists.

Main definitions:

* `Wire.Pool`, `Wire.Pool.Step`, `Wire.Pool.program` — the pool, its steps, and the program it is;
* `Wire.Pool.Outcome` — what the pool may return;
* `Wire.Pool.Ledger` — where the jobs of a state are.

Main results:

* `Wire.Pool.measure_lt` — no run goes on for ever;
* `Wire.Pool.ended_of_terminal` — **no deadlock**;
* `Wire.Pool.always_outcome` — **every run ends in one of three ways**;
* `Wire.Pool.returns_failed`, `Wire.Pool.returns_refused` — what some runs return when a result is
  bad: its error, and with enough jobs after it that the scheduler's send failed.
-/

import CompactCore.Wire.Concurrent
import CompactCore.Wire.Reader
import Mathlib.Data.List.Perm.Subperm

set_option relaxedAutoImplicit false
set_option autoImplicit false

namespace Wire

/-- What the threads of a pool do.  The scheduler sends `jobs` one after the other and then returns
`outcome`, unless a send is refused. -/
structure Pool (ε J R S N T α : Type) where
  capacity : ℕ
  workers : ℕ
  capacity_pos : 0 < capacity
  workers_pos : 0 < workers
  jobs : List J
  outcome : Except ε N
  refused : ε
  work : J → R
  start : S
  collect : S → R → Except ε S
  finish : S → Except ε T
  /-- What is done with what the scheduler and the collector return. -/
  conclude : N → T → Except ε α

namespace Pool

variable {ε J R S N T α : Type} (p : Pool ε J R S N T α)

inductive Scheduler (ε J N : Type) where
  | sending (unsent : List J)
  | ended (result : Except ε N)

inductive Worker (J : Type) where
  | idle
  | busy (job : J)
  | stopped

inductive Collector (ε S T : Type) where
  | receiving (state : S)
  | ended (result : Except ε T)

/-- The threads, and what is in the two channels. -/
structure State (_p : Pool ε J R S N T α) where
  scheduler : Scheduler ε J N
  queue : List J
  workers : List (Worker J)
  results : List R
  collector : Collector ε S T

/-- One thread goes on. -/
inductive Step : p.State → p.State → Prop
  | send {job unsent queue workers results collector} (hroom : queue.length < p.capacity)
      (hopen : ∃ w ∈ workers, w ≠ .stopped) :
      Step ⟨.sending (job :: unsent), queue, workers, results, collector⟩
        ⟨.sending unsent, queue ++ [job], workers, results, collector⟩
  | refuse {job unsent queue workers results collector} (hclosed : ∀ w ∈ workers, w = .stopped) :
      Step ⟨.sending (job :: unsent), queue, workers, results, collector⟩
        ⟨.ended (.error p.refused), queue, workers, results, collector⟩
  | hangup {queue workers results collector} :
      Step ⟨.sending [], queue, workers, results, collector⟩
        ⟨.ended p.outcome, queue, workers, results, collector⟩
  | take {scheduler job queue before after results collector} :
      Step ⟨scheduler, job :: queue, before ++ .idle :: after, results, collector⟩
        ⟨scheduler, queue, before ++ .busy job :: after, results, collector⟩
  | leave {result before after results collector} :
      Step ⟨.ended result, [], before ++ .idle :: after, results, collector⟩
        ⟨.ended result, [], before ++ .stopped :: after, results, collector⟩
  | deliver {scheduler queue job before after results state} (hroom : results.length < p.capacity) :
      Step ⟨scheduler, queue, before ++ .busy job :: after, results, .receiving state⟩
        ⟨scheduler, queue, before ++ .idle :: after, results ++ [p.work job], .receiving state⟩
  | abandon {scheduler queue job before after results result} :
      Step ⟨scheduler, queue, before ++ .busy job :: after, results, .ended result⟩
        ⟨scheduler, queue, before ++ .stopped :: after, results, .ended result⟩
  | collect {scheduler queue workers r results state state'}
      (hcollect : p.collect state r = .ok state') :
      Step ⟨scheduler, queue, workers, r :: results, .receiving state⟩
        ⟨scheduler, queue, workers, results, .receiving state'⟩
  | fail {scheduler queue workers r results state e} (hcollect : p.collect state r = .error e) :
      Step ⟨scheduler, queue, workers, r :: results, .receiving state⟩
        ⟨scheduler, queue, workers, [], .ended (.error e)⟩
  | complete {scheduler queue workers state} (hclosed : ∀ w ∈ workers, w = .stopped) :
      Step ⟨scheduler, queue, workers, [], .receiving state⟩
        ⟨scheduler, queue, workers, [], .ended (p.finish state)⟩

/-- What the scheduler returned is looked at before what the collector returned. -/
def result {p : Pool ε J R S N T α} (s : p.State) : Option (Except ε α) :=
  match s.scheduler, s.collector with
  | .ended sent, .ended collected => some do
      let n ← sent
      let t ← collected
      p.conclude n t
  | _, _ => none

/-- The pool as a program of several threads. -/
def program : Concurrent (Except ε α) where
  State := p.State
  start := ⟨.sending p.jobs, [], List.replicate p.workers .idle, [], .receiving p.start⟩
  Step := p.Step
  result := result

/-! ### Every run ends -/

def Scheduler.measure : Scheduler ε J N → ℕ
  | .sending unsent => 4 * unsent.length + 1
  | .ended _ => 0

def Worker.measure : Worker J → ℕ
  | .idle => 1
  | .busy _ => 3
  | .stopped => 0

def Collector.measure : Collector ε S T → ℕ
  | .receiving _ => 1
  | .ended _ => 0

/-- How much is left to be done: four steps for each job to be sent. -/
def measure {p : Pool ε J R S N T α} (s : p.State) : ℕ :=
  s.scheduler.measure + 3 * s.queue.length + (s.workers.map Worker.measure).sum + s.results.length +
    s.collector.measure

variable {p}

/-- No run goes on for ever. -/
theorem measure_lt {s s' : p.State} (h : p.Step s s') : measure s' < measure s := by
  cases h <;>
    simp only [measure, Scheduler.measure, Worker.measure, Collector.measure, List.length_append,
      List.length_cons, List.length_nil, List.map_append, List.map_cons, List.sum_append,
      List.sum_cons] <;>
    omega

/-! ### No deadlock -/

/-- A state in which no thread can go on is one in which all have ended. -/
theorem ended_of_terminal {s : p.State} (h : ∀ s', ¬p.Step s s') :
    ∃ sent collected, s.scheduler = .ended sent ∧ s.collector = .ended collected := by
  obtain ⟨scheduler, queue, workers, results, collector⟩ := s
  -- A worker that holds a job can hand it over, or the collector can receive, or the job is lost.
  have hbusy : ∀ job, .busy job ∉ workers := by
    intro job hmem
    obtain ⟨before, after, rfl⟩ := List.append_of_mem hmem
    cases collector with
    | ended collected => exact h _ .abandon
    | receiving state =>
        cases results with
        | nil => exact h _ (.deliver p.capacity_pos)
        | cons r results =>
            cases hcollect : p.collect state r with
            | ok state' => exact h _ (.collect hcollect)
            | error e => exact h _ (.fail hcollect)
  have hidle : ∀ job rest, queue = job :: rest → .idle ∉ workers := by
    rintro job rest rfl hmem
    obtain ⟨before, after, rfl⟩ := List.append_of_mem hmem
    exact h _ .take
  obtain ⟨sent, rfl⟩ : ∃ sent, scheduler = .ended sent := by
    cases scheduler with
    | ended sent => exact ⟨sent, rfl⟩
    | sending unsent =>
        cases unsent with
        | nil => exact (h _ .hangup).elim
        | cons job unsent =>
            by_cases hclosed : ∀ w ∈ workers, w = .stopped
            · exact (h _ (.refuse hclosed)).elim
            · push Not at hclosed
              obtain ⟨w, hw, hne⟩ := hclosed
              cases queue with
              | nil => exact (h _ (.send p.capacity_pos ⟨w, hw, hne⟩)).elim
              | cons job' rest =>
                  cases w with
                  | idle => exact (hidle job' rest rfl hw).elim
                  | busy j => exact (hbusy j hw).elim
                  | stopped => exact (hne rfl).elim
  have hclosed : ∀ w ∈ workers, w = .stopped := by
    intro w hw
    cases w with
    | stopped => rfl
    | busy j => exact (hbusy j hw).elim
    | idle =>
        cases queue with
        | cons job rest => exact (hidle job rest rfl hw).elim
        | nil =>
            obtain ⟨before, after, rfl⟩ := List.append_of_mem hw
            exact (h _ .leave).elim
  cases collector with
  | ended collected => exact ⟨sent, collected, rfl, rfl⟩
  | receiving state =>
      cases results with
      | nil => exact (h _ (.complete hclosed)).elim
      | cons r results =>
          cases hcollect : p.collect state r with
          | ok state' => exact (h _ (.collect hcollect)).elim
          | error e => exact (h _ (.fail hcollect)).elim

/-! ### What a pool may return -/

variable (p)

/-- The collector is at `state` once it has received the results of `got`. -/
def Gathers (got : List J) (state : S) : Prop :=
  got.foldlM (fun state job => p.collect state (p.work job)) p.start = .ok state

/-- The collector failed on the result of the last of `got`. -/
def Fails (got : List J) (e : ε) : Prop :=
  ∃ before job state, got = before ++ [job] ∧ p.Gathers before state ∧
    p.collect state (p.work job) = .error e

/-- What the pool may return: all results were collected, in some order; or the collector failed; or
it failed, and every worker was gone before the scheduler had sent all jobs. -/
inductive Outcome : Except ε α → Prop
  | complete {got state} (hperm : got.Perm p.jobs) (hgot : p.Gathers got state) :
      Outcome do
        let n ← p.outcome
        let t ← p.finish state
        p.conclude n t
  | failed {got e} (hsub : got.Subperm p.jobs) (hfail : p.Fails got e) :
      Outcome do
        let _ ← p.outcome
        .error e
  | refused {got e} (hsub : got.Subperm (p.jobs.take (p.jobs.length - 2))) (hfail : p.Fails got e)
      (hlen : p.workers + 2 ≤ p.jobs.length) : Outcome (.error p.refused)

variable {p}

@[simp] theorem gathers_nil {state : S} : p.Gathers [] state ↔ p.start = state := by
  simp [Gathers, Pure.pure, Except.pure]

theorem gathers_append {got more : List J} {state' : S} :
    p.Gathers (got ++ more) state' ↔ ∃ state, p.Gathers got state ∧
      more.foldlM (fun state job => p.collect state (p.work job)) state = .ok state' := by
  rw [Gathers, List.foldlM_append, bind_ok]
  rfl

theorem gathers_concat {got : List J} {job : J} {state' : S} :
    p.Gathers (got ++ [job]) state' ↔
      ∃ state, p.Gathers got state ∧ p.collect state (p.work job) = .ok state' := by
  simp [gathers_append]

/-! ### Where the jobs are -/

def Worker.held : Worker J → List J
  | .busy job => [job]
  | _ => []

/-- The jobs that the workers hold. -/
def held (workers : List (Worker J)) : List J := workers.flatMap Worker.held

def Worker.gone : Worker J → ℕ
  | .stopped => 1
  | _ => 0

/-- How many workers have stopped. -/
def gone (workers : List (Worker J)) : ℕ := (workers.map Worker.gone).sum

@[simp] theorem held_split {before after : List (Worker J)} {w : Worker J} :
    held (before ++ w :: after) = held before ++ (w.held ++ held after) := by
  simp [held]

@[simp] theorem gone_split {before after : List (Worker J)} {w : Worker J} :
    gone (before ++ w :: after) = gone before + (w.gone + gone after) := by
  simp [gone]

theorem gone_of_closed {workers : List (Worker J)} (h : ∀ w ∈ workers, w = .stopped) :
    gone workers = workers.length ∧ held workers = [] := by
  rw [List.eq_replicate_of_mem h]
  simp [gone, held, Worker.gone, Worker.held]

variable (p)

/-- What the scheduler has done, when `unsent` is not sent yet. -/
inductive Sends (unsent lost : List J) : Scheduler ε J N → Prop
  | sending : Sends unsent lost (.sending unsent)
  | ended (hunsent : unsent = []) : Sends unsent lost (.ended p.outcome)
  | refused (h : p.Outcome (.error p.refused)) (hlost : lost ≠ []) :
      Sends unsent lost (.ended (.error p.refused))

/-- What the collector has done, when it has received the results of `got`, those of `waiting` are
in its channel, and those of `lost` could not be sent to it. -/
inductive Collects (got waiting lost : List J) (s : p.State) : Prop
  | receiving {state} (h : s.collector = .receiving state) (hgot : p.Gathers got state)
      (hresults : s.results = waiting.map p.work) (hlost : lost = [])
  | complete {state} (h : s.collector = .ended (p.finish state)) (hgot : p.Gathers got state)
      (hperm : got.Perm p.jobs) (hsent : s.scheduler = .ended p.outcome)
  | failed {e} (h : s.collector = .ended (.error e)) (hfail : p.Fails got e)

/-- Where the jobs of a state are.  The workers took `taken`, the scheduler has not sent
`unsent`. -/
structure Ledger (s : p.State) (taken unsent got waiting lost : List J) : Prop where
  jobs : p.jobs = taken ++ (s.queue ++ unsent)
  accounted : (got ++ (waiting ++ (held s.workers ++ lost))).Perm taken
  workers : s.workers.length = p.workers
  sends : p.Sends unsent lost s.scheduler
  collects : p.Collects got waiting lost s
  /-- A worker stops when it loses a job, or when there will be none. -/
  gone : gone s.workers = lost.length ∨ (∃ sent, s.scheduler = .ended sent) ∧ s.queue = []
  /-- Whoever took the last job either still has it or can take the next one. -/
  last : (∃ unsent, s.scheduler = .sending unsent) →
    .idle ∈ s.workers ∨ (got ++ waiting).Subperm taken.dropLast

variable {p} {s s' : p.State} {taken unsent got waiting lost : List J}

theorem Ledger.start : p.Ledger p.program.start [] p.jobs [] [] [] := by
  refine ⟨by simp [program], ?_, by simp [program], .sending, ?_, .inl ?_, fun _ => .inr ?_⟩
  · simp [program, held, Worker.held]
  · exact .receiving rfl (by simp) rfl rfl
  · simp [program, Pool.gone, Worker.gone]
  · simp

/-- What was received or waits was taken. -/
theorem Ledger.subperm_taken (h : p.Ledger s taken unsent got waiting lost) :
    (got ++ waiting).Subperm taken := by
  refine List.Subperm.trans ?_ h.accounted.subperm
  rw [← List.append_assoc]
  exact (List.sublist_append_left _ _).subperm

/-- A send is refused only after the collector failed on an earlier job than the last one taken. -/
theorem Ledger.outcome_refused {job : J} (h : p.Ledger s taken (job :: unsent) got waiting lost)
    (hsend : s.scheduler = .sending (job :: unsent)) (hclosed : ∀ w ∈ s.workers, w = .stopped) :
    p.Outcome (.error p.refused) ∧ lost ≠ [] := by
  obtain ⟨hgone, hheld⟩ := gone_of_closed hclosed
  have hlost : lost.length = p.workers := by
    rcases h.gone with hlost | ⟨⟨sent, hended⟩, _⟩
    · rw [← hlost, hgone, h.workers]
    · rw [hsend] at hended
      cases hended
  have hne : lost ≠ [] := List.ne_nil_of_length_pos (by rw [hlost]; exact p.workers_pos)
  refine ⟨?_, hne⟩
  have hsub : (got ++ waiting).Subperm taken.dropLast := by
    refine (h.last ⟨_, hsend⟩).resolve_left fun hidle => ?_
    cases hclosed _ hidle
  have hjobs := congrArg List.length h.jobs
  have htaken := h.accounted.length_eq
  rw [hheld] at htaken
  simp only [List.length_append, List.length_cons, List.length_nil] at hjobs htaken
  rcases h.collects with ⟨_, _, _, hnil⟩ | ⟨_, _, _, hsent⟩ | ⟨_, hfail⟩
  · exact (hne hnil).elim
  · rw [hsend] at hsent
    cases hsent
  · refine @Outcome.refused _ _ _ _ _ _ _ p got _ ?_ hfail ?_
    · have hdrop : taken.dropLast = p.jobs.take (taken.length - 1) := by
        rw [List.dropLast_eq_take, h.jobs, List.take_append_of_le_length (by omega)]
      have hle : taken.length - 1 ≤ p.jobs.length - 2 := by omega
      rw [hdrop] at hsub
      exact ((List.sublist_append_left got waiting).subperm.trans hsub).trans
        (List.take_sublist_take_left hle).subperm
    · obtain ⟨before, j, state, rfl, _⟩ := hfail
      simp only [List.length_append, List.length_cons, List.length_nil] at htaken
      omega

/-- While the collector receives, no job is lost. -/
theorem Ledger.of_receiving {state : S} (h : p.Ledger s taken unsent got waiting lost)
    (hcollector : s.collector = .receiving state) :
    p.Gathers got state ∧ s.results = waiting.map p.work ∧ lost = [] := by
  rcases h.collects with ⟨hreceiving, hgot, hresults, hlost⟩ | ⟨hended, _⟩ | ⟨hended, _⟩
  · rw [hcollector] at hreceiving
    cases hreceiving
    exact ⟨hgot, hresults, hlost⟩
  · rw [hcollector] at hended
    cases hended
  · rw [hcollector] at hended
    cases hended

/-- The collector ends without an error only when all jobs have been received. -/
theorem Ledger.complete {state : S} (h : p.Ledger s taken unsent got waiting lost)
    (hcollector : s.collector = .receiving state) (hresults : s.results = [])
    (hclosed : ∀ w ∈ s.workers, w = .stopped) :
    got.Perm p.jobs ∧ p.Gathers got state ∧ s.scheduler = .ended p.outcome := by
  obtain ⟨hgone, hheld⟩ := gone_of_closed hclosed
  obtain ⟨hgot, hwaiting, hlost⟩ := h.of_receiving hcollector
  have hnil : waiting = [] := List.map_eq_nil_iff.1 (hwaiting.symm.trans hresults)
  -- The workers stopped without losing a job, so the scheduler has ended.
  have hpos := p.workers_pos
  have hnot : ¬Pool.gone s.workers = lost.length := by
    rw [hgone, hlost, h.workers, List.length_nil]
    omega
  obtain ⟨⟨sent, hsent⟩, hqueue⟩ := h.gone.resolve_left hnot
  have haccounted := h.accounted
  simp only [hnil, hheld, hlost, List.append_nil] at haccounted
  have hsends := h.sends
  rw [hsent] at hsends
  cases hsends with
  | refused _ hne => exact (hne hlost).elim
  | ended hunsent =>
      have hjobs := h.jobs
      simp only [hqueue, hunsent, List.append_nil] at hjobs
      exact ⟨hjobs ▸ haccounted, hgot, hsent⟩

/-- What the collector has returned does not depend on the workers. -/
theorem Collects.of_ended {result : Except ε T} {lost' waiting' : List J}
    (h : p.Collects got waiting lost s) (hcollector : s.collector = .ended result)
    (hcollector' : s'.collector = s.collector) (hscheduler : s'.scheduler = s.scheduler) :
    p.Collects got waiting' lost' s' := by
  rcases h with ⟨hreceiving, _⟩ | ⟨hended, hgot, hperm, hsent⟩ | ⟨hended, hfail⟩
  · rw [hcollector] at hreceiving
    cases hreceiving
  · exact .complete (hcollector'.trans hended) hgot hperm (hscheduler.trans hsent)
  · exact .failed (hcollector'.trans hended) hfail

/-- What the other threads do between the channels does not touch the collector. -/
theorem Collects.congr (h : p.Collects got waiting lost s) (hcollector : s'.collector = s.collector)
    (hresults : s'.results = s.results)
    (hscheduler : s'.scheduler = s.scheduler ∨ ∃ unsent, s.scheduler = .sending unsent) :
    p.Collects got waiting lost s' := by
  rcases h with ⟨hreceiving, hgot, hwaiting, hlost⟩ | ⟨hended, hgot, hperm, hsent⟩ | ⟨hended, hfail⟩
  · exact .receiving (hcollector.trans hreceiving) hgot (hresults.trans hwaiting) hlost
  · refine .complete (hcollector.trans hended) hgot hperm ?_
    rcases hscheduler with hscheduler | ⟨unsent, hsending⟩
    · exact hscheduler.trans hsent
    · rw [hsending] at hsent
      cases hsent
  · exact .failed (hcollector.trans hended) hfail

/-- A job is moved to another place. -/
theorem perm_move {job : J} {as bs cs : List J} (h : (as ++ bs).Perm cs) :
    (as ++ job :: bs).Perm (cs ++ [job]) :=
  List.perm_middle.trans ((h.cons job).trans (List.perm_append_singleton job cs).symm)

/-- **Every step keeps account of every job.** -/
theorem Ledger.step (h : p.Ledger s taken unsent got waiting lost) (hstep : p.Step s s') :
    ∃ taken unsent got waiting lost, p.Ledger s' taken unsent got waiting lost := by
  cases hstep with
  | @send job _ queue workers results collector hroom hopen =>
      obtain ⟨hjobs, haccounted, hworkers, hsends, hcollects, hgone, hlast⟩ := h
      cases hsends
      rename_i unsent
      refine ⟨taken, unsent, got, waiting, lost, ?_, haccounted, hworkers, .sending, ?_, ?_,
        fun _ => hlast ⟨_, rfl⟩⟩
      · simpa using hjobs
      · exact hcollects.congr rfl rfl (.inr ⟨_, rfl⟩)
      · exact .inl (hgone.resolve_right fun hended => by simp at hended)
  | @refuse job _ queue workers results collector hclosed =>
      have hunsent := h.sends
      cases hunsent
      obtain ⟨hrefused, hlost⟩ := h.outcome_refused rfl hclosed
      obtain ⟨hjobs, haccounted, hworkers, hsends, hcollects, hgone, hlast⟩ := h
      refine ⟨taken, _, got, waiting, lost, hjobs, haccounted, hworkers, .refused hrefused hlost,
        ?_, ?_, fun hsending => by simp at hsending⟩
      · exact hcollects.congr rfl rfl (.inr ⟨_, rfl⟩)
      · exact .inl (hgone.resolve_right fun hended => by simp at hended)
  | @hangup queue workers results collector =>
      obtain ⟨hjobs, haccounted, hworkers, hsends, hcollects, hgone, hlast⟩ := h
      cases hsends
      refine ⟨taken, [], got, waiting, lost, hjobs, haccounted, hworkers, .ended rfl, ?_, ?_,
        fun hsending => by simp at hsending⟩
      · exact hcollects.congr rfl rfl (.inr ⟨_, rfl⟩)
      · exact .inl (hgone.resolve_right fun hended => by simp at hended)
  | @take scheduler job queue before after results collector =>
      have hsub := h.subperm_taken
      obtain ⟨hjobs, haccounted, hworkers, hsends, hcollects, hgone, hlast⟩ := h
      refine ⟨taken ++ [job], unsent, got, waiting, lost, ?_, ?_, ?_, hsends, ?_, ?_,
        fun _ => .inr ?_⟩
      · simpa using hjobs
      · simp only [held_split, Worker.held, List.nil_append, List.cons_append,
          List.append_assoc] at haccounted ⊢
        rw [← List.append_assoc, ← List.append_assoc] at haccounted ⊢
        exact perm_move haccounted
      · simpa using hworkers
      · exact hcollects.congr rfl rfl (.inl rfl)
      · exact .inl (by simpa [Worker.gone] using hgone)
      · rwa [List.dropLast_concat]
  | @leave sent before after results collector =>
      obtain ⟨hjobs, haccounted, hworkers, hsends, hcollects, hgone, hlast⟩ := h
      refine ⟨taken, unsent, got, waiting, lost, hjobs, ?_, ?_, hsends, ?_, .inr ⟨⟨_, rfl⟩, rfl⟩,
        fun hsending => by simp at hsending⟩
      · simpa [Worker.held] using haccounted
      · simpa using hworkers
      · exact hcollects.congr rfl rfl (.inl rfl)
  | @deliver scheduler queue job before after results state hroom =>
      obtain ⟨hgot, hresults, hlost⟩ := h.of_receiving rfl
      obtain ⟨hjobs, haccounted, hworkers, hsends, hcollects, hgone, hlast⟩ := h
      refine ⟨taken, unsent, got, waiting ++ [job], lost, hjobs, ?_, ?_, hsends, ?_, ?_,
        fun _ => .inl (by simp)⟩
      · refine List.Perm.trans ?_ haccounted
        simp only [held_split, Worker.held, List.nil_append, List.cons_append, List.append_assoc]
        exact (List.perm_middle.symm.append_left waiting).append_left got
      · simpa using hworkers
      · exact .receiving rfl hgot (by simpa using hresults) hlost
      · simpa [Worker.gone] using hgone
  | @abandon scheduler queue job before after results result =>
      have hcollects := h.collects
      obtain ⟨hjobs, haccounted, hworkers, hsends, _, hgone, hlast⟩ := h
      refine ⟨taken, unsent, got, waiting, job :: lost, hjobs, ?_, ?_, ?_,
        hcollects.of_ended rfl rfl rfl, ?_, fun hsending => ?_⟩
      · refine List.Perm.trans ?_ haccounted
        simp only [held_split, Worker.held, List.nil_append, List.cons_append, List.append_assoc]
        refine (List.Perm.append_left waiting ?_).append_left got
        exact List.perm_middle.append_left (held before)
      · simpa using hworkers
      · cases hsends with
        | sending => exact .sending
        | ended hunsent => exact .ended hunsent
        | refused hrefused _ => exact .refused hrefused (List.cons_ne_nil _ _)
      · refine hgone.imp (fun hgone => ?_) id
        simp only [gone_split, Worker.gone, List.length_cons] at hgone ⊢
        omega
      · exact (hlast hsending).imp (fun hidle => by simpa using hidle) id
  | @collect scheduler queue workers r results state state' hcollect =>
      obtain ⟨hgot, hresults, hlost⟩ := h.of_receiving rfl
      obtain ⟨job, waiting, rfl, hr, hrest⟩ := List.map_eq_cons_iff.1 hresults.symm
      obtain ⟨hjobs, haccounted, hworkers, hsends, hcollects, hgone, hlast⟩ := h
      refine ⟨taken, unsent, got ++ [job], waiting, lost, hjobs, by simpa using haccounted,
        hworkers, hsends, ?_, hgone, fun hsending => by simpa using hlast hsending⟩
      exact .receiving rfl (gathers_concat.2 ⟨state, hgot, hr ▸ hcollect⟩) hrest.symm hlost
  | @fail scheduler queue workers r results state e hcollect =>
      obtain ⟨hgot, hresults, hlost⟩ := h.of_receiving rfl
      obtain ⟨job, waiting, rfl, hr, hrest⟩ := List.map_eq_cons_iff.1 hresults.symm
      obtain ⟨hjobs, haccounted, hworkers, hsends, hcollects, hgone, hlast⟩ := h
      refine ⟨taken, unsent, got ++ [job], waiting, lost, hjobs, by simpa using haccounted,
        hworkers, hsends, ?_, hgone, fun hsending => by simpa using hlast hsending⟩
      exact .failed rfl ⟨got, job, state, rfl, hgot, hr ▸ hcollect⟩
  | @complete scheduler queue workers state hclosed =>
      obtain ⟨hperm, hgot, hsent⟩ := h.complete rfl rfl hclosed
      obtain ⟨hjobs, haccounted, hworkers, hsends, hcollects, hgone, hlast⟩ := h
      exact ⟨taken, unsent, got, waiting, lost, hjobs, haccounted, hworkers, hsends,
        .complete rfl hgot hperm hsent, hgone, hlast⟩

/-- What the threads return once all have ended. -/
theorem Ledger.outcome (h : p.Ledger s taken unsent got waiting lost) {sent : Except ε N}
    {collected : Except ε T} (hsent : s.scheduler = .ended sent)
    (hcollected : s.collector = .ended collected) :
    ∃ r, result s = some r ∧ p.Outcome r := by
  refine ⟨_, by rw [result, hsent, hcollected], ?_⟩
  have hsub : got.Subperm p.jobs := by
    rw [h.jobs]
    exact ((List.sublist_append_left got waiting).subperm.trans h.subperm_taken).trans
      (List.sublist_append_left _ _).subperm
  have hsends := h.sends
  rw [hsent] at hsends
  cases hsends with
  | refused hrefused _ => exact hrefused
  | ended hunsent =>
      rcases h.collects with ⟨hreceiving, _⟩ | ⟨hended, hgot, hperm, _⟩ | ⟨hended, hfail⟩
      · rw [hcollected] at hreceiving
        cases hreceiving
      · rw [hcollected] at hended
        cases hended
        exact .complete hperm hgot
      · rw [hcollected] at hended
        cases hended
        exact .failed hsub hfail

/-- **Every run of a pool ends in one of three ways.** -/
theorem always_outcome : p.program.Always p.Outcome := by
  refine Concurrent.always_of_invariant (p := p.program)
    (I := fun s => ∃ taken unsent got waiting lost, p.Ledger s taken unsent got waiting lost)
    measure ⟨_, _, _, _, _, Ledger.start⟩ ?_ (fun _ _ => measure_lt) ?_
  · rintro s s' ⟨taken, unsent, got, waiting, lost, h⟩ hstep
    exact h.step hstep
  · rintro s ⟨taken, unsent, got, waiting, lost, h⟩ hterminal
    obtain ⟨sent, collected, hsent, hcollected⟩ := ended_of_terminal hterminal
    exact h.outcome hsent hcollected

/-- A pool returns a value only if its scheduler does. -/
theorem Outcome.exists_outcome {a : α} (h : p.Outcome (.ok a)) : ∃ n, p.outcome = .ok n := by
  obtain ⟨r, hr⟩ : ∃ r, r = Except.ok (ε := ε) a := ⟨_, rfl⟩
  rw [← hr] at h
  cases h with
  | complete _ _ =>
      obtain ⟨n, hn, _⟩ := bind_ok.1 hr
      exact ⟨n, hn⟩
  | failed _ _ =>
      obtain ⟨n, hn, _⟩ := bind_ok.1 hr
      exact ⟨n, hn⟩
  | refused _ _ _ => cases hr

/-! ### A run in which the scheduler is refused -/

/-- Some steps lead from one state to another. -/
abbrev Run (s s' : p.State) : Prop := Relation.ReflTransGen p.Step s s'

/-- The scheduler sends a job and an idle worker takes it. -/
theorem run_send_take {job : J} {unsent : List J} (before : List (Worker J))
    {after : List (Worker J)} {results : List R} {collector : Collector ε S T} :
    Run (p := p) ⟨.sending (job :: unsent), [], before ++ .idle :: after, results, collector⟩
      ⟨.sending unsent, [], before ++ .busy job :: after, results, collector⟩ :=
  .tail (.single (.send p.capacity_pos ⟨.idle, by simp, by simp⟩)) .take

/-- One worker works off the next jobs, while the others wait. -/
theorem run_work {jobs unsent : List J} {workers : List (Worker J)} {state state' : S}
    (h : jobs.foldlM (fun state job => p.collect state (p.work job)) state = .ok state') :
    Run (p := p) ⟨.sending (jobs ++ unsent), [], .idle :: workers, [], .receiving state⟩
      ⟨.sending unsent, [], .idle :: workers, [], .receiving state'⟩ := by
  induction jobs generalizing state with
  | nil =>
      cases h
      exact .refl
  | cons job jobs ih =>
      rw [List.foldlM_cons] at h
      cases hcollect : p.collect state (p.work job) with
      | error e =>
          rw [hcollect] at h
          cases h
      | ok next =>
          rw [hcollect] at h
          have hdeliver : p.Step ⟨.sending (jobs ++ unsent), [], [] ++ .busy job :: workers, [],
                .receiving state⟩
              ⟨.sending (jobs ++ unsent), [], [] ++ .idle :: workers, [p.work job],
                .receiving state⟩ := .deliver p.capacity_pos
          refine .trans (run_send_take []) ?_
          exact .head hdeliver (.head (.collect hcollect) (ih h))

/-- Idle workers take the next jobs and keep them. -/
theorem run_fill {jobs unsent : List J} {before after : List (Worker J)} {results : List R}
    {collector : Collector ε S T} :
    Run (p := p)
      ⟨.sending (jobs ++ unsent), [], before ++ (List.replicate jobs.length .idle ++ after),
        results, collector⟩
      ⟨.sending unsent, [], before ++ (jobs.map .busy ++ after), results, collector⟩ := by
  induction jobs generalizing before with
  | nil => exact .refl
  | cons job jobs ih =>
      refine .trans (run_send_take before) ?_
      have hrest := @ih (before ++ [.busy job])
      simp only [List.append_assoc, List.singleton_append] at hrest
      exact hrest

/-- Workers whose results nobody receives stop. -/
theorem run_abandon {jobs : List J} {scheduler : Scheduler ε J N} {b : List (Worker J)}
    {result : Except ε T} :
    Run (p := p) ⟨scheduler, [], b ++ jobs.map .busy, [], .ended result⟩
      ⟨scheduler, [], b ++ List.replicate jobs.length .stopped, [], .ended result⟩ := by
  induction jobs generalizing b with
  | nil => exact .refl
  | cons job jobs ih =>
      refine .trans (.single .abandon) ?_
      have hrest := @ih (b ++ [.stopped])
      simp only [List.append_assoc, List.singleton_append] at hrest
      exact hrest

/-- A collector that has ended stays so, and the scheduler returns its own result or is refused. -/
theorem run_ended {s s' : p.State} {collected : Except ε T} (hrun : Run s s')
    (hcollected : s.collector = .ended collected)
    (hsent : ∀ sent, s.scheduler = .ended sent → sent = p.outcome ∨ sent = .error p.refused) :
    s'.collector = .ended collected ∧
      ∀ sent, s'.scheduler = .ended sent → sent = p.outcome ∨ sent = .error p.refused := by
  induction hrun with
  | refl => exact ⟨hcollected, hsent⟩
  | tail _ hstep ih =>
      obtain ⟨hcollected, hsent⟩ := ih
      cases hstep with
      | refuse _ =>
          refine ⟨hcollected, ?_⟩
          rintro _ ⟨⟩
          exact .inr rfl
      | hangup =>
          refine ⟨hcollected, ?_⟩
          rintro _ ⟨⟩
          exact .inl rfl
      | send _ _ =>
          refine ⟨hcollected, ?_⟩
          rintro _ ⟨⟩
      | take => exact ⟨hcollected, hsent⟩
      | leave => exact ⟨hcollected, hsent⟩
      | abandon => exact ⟨hcollected, hsent⟩
      | deliver _ => cases hcollected
      | collect _ => cases hcollected
      | fail _ => cases hcollected
      | complete _ => cases hcollected

/-- **A collector that fails.**  One worker works off all jobs up to the one whose result the
collector cannot use; the pool returns the collector's error, or the scheduler is refused. -/
theorem returns_failed {good after : List J} {bad : J} {state : S} {e : ε} {n : N}
    (hjobs : p.jobs = good ++ bad :: after) (hgood : p.Gathers good state)
    (hbad : p.collect state (p.work bad) = .error e) (houtcome : p.outcome = .ok n) :
    p.program.Returns (.error e) ∨ p.program.Returns (.error p.refused) := by
  obtain ⟨others, hothers⟩ : ∃ others, p.workers = others + 1 :=
    ⟨p.workers - 1, (Nat.succ_pred_eq_of_pos p.workers_pos).symm⟩
  have hrun : Run p.program.start ⟨.sending after, [],
      [] ++ .idle :: List.replicate others .idle, [], .ended (.error e)⟩ := by
    show Run (p := p) ⟨.sending p.jobs, [], List.replicate p.workers .idle, [], _⟩ _
    rw [hjobs, hothers, List.replicate_succ]
    refine .trans (run_work hgood) ?_
    refine .trans (run_send_take []) ?_
    exact .tail (.single (.deliver p.capacity_pos)) (.fail hbad)
  -- from there the other threads come to an end
  obtain ⟨s, a, hsteps, hterminal, hresult, -⟩ := (always_outcome.of_steps hrun).exists
  obtain ⟨hcollected, hsent⟩ := run_ended hsteps rfl (by rintro _ ⟨⟩)
  obtain ⟨sent, _, hscheduler, -⟩ := ended_of_terminal hterminal
  have hreturns : p.program.Returns a := ⟨s, hrun.trans hsteps, hterminal, hresult⟩
  change result s = some a at hresult
  simp only [result, hscheduler, hcollected, Option.some.injEq] at hresult
  rcases hsent sent hscheduler with rfl | rfl
  · rw [houtcome] at hresult
    obtain rfl : a = .error e := hresult.symm
    exact .inl hreturns
  · obtain rfl : a = .error p.refused := hresult.symm
    exact .inr hreturns

/-- Once all threads have ended, none goes on. -/
theorem terminal_of_closed {sent : Except ε N} {collected : Except ε T} {queue : List J}
    {workers : List (Worker J)} {results : List R} (hclosed : ∀ w ∈ workers, w = .stopped)
    (s' : p.State) :
    ¬p.Step ⟨.ended sent, queue, workers, results, .ended collected⟩ s' := by
  intro hstep
  cases hstep with
  | take => cases hclosed .idle (by simp)
  | leave => cases hclosed .idle (by simp)
  | @abandon _ _ job => cases hclosed (.busy job) (by simp)

/-- **A scheduler that is refused.**  One worker works off all jobs but as many as there are other
workers; those take the remaining ones up to the bad one and keep them.  When the bad one ends the
collector, every worker takes one more job if it has none, finds the collector gone, and stops. -/
theorem returns_refused {good after : List J} {bad : J} {state : S} {e : ε}
    (hjobs : p.jobs = good ++ bad :: after) (hgood : p.Gathers good state)
    (hbad : ∀ state, p.collect state (p.work bad) = .error e)
    (hworkers : p.workers + 2 ≤ p.jobs.length) (hafter : good.length + 3 ≤ p.jobs.length) :
    p.program.Returns (.error p.refused) := by
  obtain ⟨first, kept, rfl, hkept⟩ : ∃ first kept, good = first ++ kept ∧
      kept.length = min good.length (p.workers - 1) :=
    ⟨good.take (good.length - min good.length (p.workers - 1)),
      good.drop (good.length - min good.length (p.workers - 1)), (List.take_append_drop _ _).symm,
      by rw [List.length_drop]; omega⟩
  have hpos := p.workers_pos
  rw [hjobs] at hworkers hafter
  simp only [List.length_append, List.length_cons] at hkept hworkers hafter
  obtain ⟨spare, hspare⟩ : ∃ spare, p.workers = kept.length + (spare + 1) :=
    ⟨p.workers - kept.length - 1, by omega⟩
  obtain ⟨next, job, rest, rfl, hnext⟩ : ∃ next job rest, after = next ++ job :: rest ∧
      next.length = spare + 1 := by
    refine ⟨after.take (spare + 1), after.get ⟨spare + 1, by omega⟩, after.drop (spare + 2), ?_, ?_⟩
    · simp
    · rw [List.length_take]
      omega
  obtain ⟨state', hfirst, _⟩ := gathers_append.1 hgood
  refine ⟨⟨.ended (.error p.refused), [], List.replicate p.workers .stopped, [], .ended (.error e)⟩,
    ?_, ?_, rfl⟩
  · have hidle : List.replicate p.workers (Worker.idle (J := J)) =
        .idle :: List.replicate (kept.length + spare) .idle := by
      rw [hspare, ← Nat.add_assoc]
      rfl
    have hbusy : List.replicate (kept.length + (spare + 1)) (Worker.idle (J := J)) =
        [] ++ (List.replicate kept.length .idle ++ (.idle :: List.replicate spare .idle)) := by
      rw [← List.replicate_succ, ← List.replicate_add, List.nil_append]
    show Run (p := p) ⟨.sending p.jobs, [], List.replicate p.workers .idle, [], _⟩ _
    rw [hjobs, hidle, List.append_assoc]
    refine .trans (run_work hfirst) ?_
    rw [← hidle, hspare, hbusy]
    refine .trans run_fill ?_
    refine .trans (run_send_take _) ?_
    refine .trans (.single (.deliver p.capacity_pos)) ?_
    refine .trans (.single (.fail (hbad state'))) ?_
    have hspares : Worker.idle (J := J) :: List.replicate spare .idle =
        List.replicate next.length .idle ++ [] := by
      rw [hnext, List.append_nil]
      rfl
    rw [hspares]
    refine .trans run_fill ?_
    rw [List.append_nil, ← List.map_append]
    refine .trans (run_abandon (b := [])) ?_
    rw [List.nil_append, List.length_append, hnext]
    exact .single (.refuse fun w hw => List.eq_of_mem_replicate hw)
  · exact terminal_of_closed fun w hw => List.eq_of_mem_replicate hw

end Pool

end Wire
