/-
**Processes that call an operating system.**

A process is a program that calls the kernel and goes on with what it answers.  Processes run side
by side: any of them may make the next call, the kernel answers as it likes within what it promises,
a process may be killed between two calls, and the power may fail, which ends all of them.

What holds in every run follows from a discipline.  A process has a share: what it may rely on,
since no call of another process can take it away.  A process is safe if each of its calls, whatever
the answer, leaves the invariant and the shares of the others as they are.

Main definitions:

* `Wire.Kernel` — the calls, and how they may be answered;
* `Wire.Process` — a program between its calls, a monad;
* `Wire.World`, `Wire.World.Move`, `Wire.World.Step` — some processes, and what may happen next;
* `Wire.Process.Runs` — what a program may do when nothing else happens;
* `Wire.Discipline`, `Wire.Process.Safe` — shares, and the processes that respect them.

Main results:

* `Wire.Process.Safe.bind` — the rule for one program behind another;
* `Wire.World.inv_of_reachable` — **safe processes keep the invariant in every run**;
* `Wire.World.safe_of_continues` — **what is promised of a process that has ended is true**, and
  stays so while the power is on.
-/

import Mathlib.Logic.Function.Basic
import Mathlib.Logic.Relation

set_option relaxedAutoImplicit false
set_option autoImplicit false

namespace Wire

/-- An operating system. -/
structure Kernel where
  State : Type
  Call : Type
  Reply : Call → Type
  /-- A call may be answered like this, and leave the kernel in this state. -/
  Answers : State → (call : Call) → Reply call → State → Prop
  /-- What the state may be when the power comes back. -/
  Fails : State → State → Prop

/-- A call and its answer. -/
abbrev Kernel.Event (K : Kernel) : Type := (call : K.Call) × K.Reply call

/-- A program that makes calls. -/
inductive Process (K : Kernel) (α : Type) : Type
  | done (a : α)
  | call (call : K.Call) (next : K.Reply call → Process K α)

namespace Process

variable {K : Kernel} {α β : Type}

/-- One program, and then another one. -/
def bind : Process K α → (α → Process K β) → Process K β
  | done a, f => f a
  | call c next, f => .call c fun reply => (next reply).bind f

instance instMonad : Monad (Process K) where
  pure := done
  bind := bind

/-- The program that makes one call. -/
def ask (c : K.Call) : Process K (K.Reply c) := .call c .done

@[simp] theorem pure_def (a : α) : (pure a : Process K α) = .done a := rfl

@[simp] theorem done_bind (a : α) (f : α → Process K β) : (done a : Process K α) >>= f = f a := rfl

@[simp] theorem call_bind (c : K.Call) (next : K.Reply c → Process K α) (f : α → Process K β) :
    call c next >>= f = .call c fun reply => next reply >>= f := rfl

@[simp] theorem ask_bind (c : K.Call) (f : K.Reply c → Process K β) : ask c >>= f = .call c f := rfl

end Process

/-! ### Runs -/

/-- A process in the course of a run: what it has been started for, the calls it has made, and what
is left of its program. -/
structure Thread (K : Kernel) (κ α : Type) where
  job : κ
  past : List K.Event
  rest : Process K α

/-- The state of the kernel, and the processes that there are. -/
structure World (K : Kernel) (ι κ α : Type) where
  state : K.State
  threads : ι → Option (Thread K κ α)

namespace World

variable {K : Kernel} {ι κ α : Type} [DecidableEq ι]

/-- What may happen next while the power is on, where `Starts` says which programs may be started,
and for what. -/
inductive Move (Starts : ι → κ → Process K α → Prop) : World K ι κ α → World K ι κ α → Prop
  | start {w : World K ι κ α} {i : ι} {job : κ} {p : Process K α} (free : w.threads i = none)
      (starts : Starts i job p) :
      Move Starts w ⟨w.state, Function.update w.threads i (some ⟨job, [], p⟩)⟩
  | call {w : World K ι κ α} {i : ι} {job : κ} {past : List K.Event} {c : K.Call}
      {next : K.Reply c → Process K α} {reply : K.Reply c} {s' : K.State}
      (running : w.threads i = some ⟨job, past, .call c next⟩)
      (answers : K.Answers w.state c reply s') :
      Move Starts w
        ⟨s', Function.update w.threads i (some ⟨job, past ++ [⟨c, reply⟩], next reply⟩)⟩
  /-- A process is killed, or one that has ended is forgotten. -/
  | kill {w : World K ι κ α} (i : ι) : Move Starts w ⟨w.state, Function.update w.threads i none⟩

/-- What may happen next. -/
inductive Step (Starts : ι → κ → Process K α → Prop) : World K ι κ α → World K ι κ α → Prop
  | move {w w' : World K ι κ α} (move : Move Starts w w') : Step Starts w w'
  | powerFailure {w : World K ι κ α} {s' : K.State} (fails : K.Fails w.state s') :
      Step Starts w ⟨s', fun _ => none⟩

/-- The worlds that a run from `s` without any process leads to. -/
def Reachable (Starts : ι → κ → Process K α → Prop) (s : K.State) (w : World K ι κ α) : Prop :=
  Relation.ReflTransGen (Step Starts) ⟨s, fun _ => none⟩ w

/-- The worlds that another one leads to while the power is on. -/
def Continues (Starts : ι → κ → Process K α → Prop) : World K ι κ α → World K ι κ α → Prop :=
  Relation.ReflTransGen (Move Starts)

end World

/-! ### Running alone -/

namespace Process

variable {K : Kernel} {α β : Type} {s s' s'' : K.State} {a : α} {b : β} {p : Process K α}

/-- A program may run like this when nothing else happens. -/
inductive Runs : K.State → Process K α → K.State → List K.Event → α → Prop
  | done {s : K.State} {a : α} : Runs s (.done a) s [] a
  | call {s s' s'' : K.State} {c : K.Call} {next : K.Reply c → Process K α} {reply : K.Reply c}
      {events : List K.Event} {a : α} (answers : K.Answers s c reply s')
      (rest : Runs s' (next reply) s'' events a) :
      Runs s (.call c next) s'' (⟨c, reply⟩ :: events) a

theorem Runs.bind {f : α → Process K β} {events events' : List K.Event} (h : Runs s p s' events a)
    (hf : Runs s' (f a) s'' events' b) : Runs s (p >>= f) s'' (events ++ events') b := by
  induction h with
  | done => exact hf
  | call answers _ ih => exact .call answers (ih hf)

end Process

namespace World

variable {K : Kernel} {ι κ α : Type} [DecidableEq ι]

/-- What a program may do when nothing else happens is part of a run. -/
theorem continues_of_runs (Starts : ι → κ → Process K α → Prop) {w : World K ι κ α} {i : ι}
    {job : κ}
    {p : Process K α} {past events : List K.Event} {s' : K.State} {a : α}
    (h : p.Runs w.state s' events a) (hrunning : w.threads i = some ⟨job, past, p⟩) :
    Continues Starts w
      ⟨s', Function.update w.threads i (some ⟨job, past ++ events, .done a⟩)⟩ := by
  rw [Continues]
  generalize hstate : w.state = s at h
  induction h generalizing w past with
  | done =>
      rw [List.append_nil, ← hrunning, Function.update_eq_self, ← hstate]
  | @call s s' s'' c next reply events a hanswers _ ih =>
      rw [← hstate] at hanswers
      refine .head (.call hrunning hanswers) ?_
      have hrest := ih
        (w := ⟨s', Function.update w.threads i (some ⟨job, past ++ [⟨c, reply⟩], next reply⟩)⟩)
        (Function.update_self ..) rfl
      rwa [Function.update_idem, List.append_assoc] at hrest

theorem Reachable.continues {Starts : ι → κ → Process K α → Prop} {s : K.State}
    {w w' : World K ι κ α} (h : Reachable Starts s w) (hlater : Continues Starts w w') :
    Reachable Starts s w' := by
  induction hlater with
  | refl => exact h
  | tail _ hmove ih => exact ih.tail (.move hmove)

theorem reachable_of_runs {Starts : ι → κ → Process K α → Prop} {s s' : K.State} {i : ι} {job : κ}
    {p : Process K α} {events : List K.Event} {a : α}
    (hstarts : Starts i job p) (h : p.Runs s s' events a) :
    Reachable Starts s
      ⟨s', Function.update (fun _ => none) i (some ⟨job, events, .done a⟩)⟩ := by
  let w : World K ι κ α := ⟨s, Function.update (fun _ => none) i (some ⟨job, [], p⟩)⟩
  have hthreads : w.threads = Function.update (fun _ => none) i (some ⟨job, [], p⟩) := rfl
  have hrunning : w.threads i = some ⟨job, [], p⟩ := by rw [hthreads, Function.update_self]
  have hrun := continues_of_runs Starts h hrunning
  rw [hthreads, Function.update_idem] at hrun
  have hstart : Reachable Starts s w := .single (.move (.start rfl hstarts))
  exact hstart.continues hrun

end World

/-! ### Shares -/

/-- What processes may rely on. -/
structure Discipline (K : Kernel) where
  Share : Type
  nothing : Share
  Inv : K.State → Prop
  /-- A share is what it says in a state. -/
  Holds : K.State → Share → Prop
  /-- Two processes may have these shares at once. -/
  Apart : Share → Share → Prop
  apart_symm : ∀ {a b}, Apart a b → Apart b a
  nothing_holds : ∀ s, Inv s → Holds s nothing
  nothing_apart : ∀ share, Apart nothing share
  inv_fails : ∀ {s s'}, Inv s → K.Fails s s' → Inv s'

/-- A step of a process keeps the invariant, and every share that is apart from its own. -/
structure Discipline.Keeps {K : Kernel} (D : Discipline K) (s : K.State) (share : D.Share)
    (s' : K.State) (share' : D.Share) : Prop where
  inv : D.Inv s'
  holds : D.Holds s' share'
  others : ∀ other, D.Holds s other → D.Apart share other →
    D.Holds s' other ∧ D.Apart share' other

namespace Process

variable {K : Kernel} (D : Discipline K) {α β : Type}

/-- Whatever the answers to its calls are, a process with this share keeps to the discipline, and
`Q` holds in the end, of its calls, of its share and of its result. -/
def Safe (Q : List K.Event → D.Share → α → Prop) : List K.Event → D.Share → Process K α → Prop
  | past, share, .done a => Q past share a
  | past, share, .call c next => ∀ s reply s', D.Inv s → D.Holds s share → K.Answers s c reply s' →
      ∃ share', D.Keeps s share s' share' ∧ Safe Q (past ++ [⟨c, reply⟩]) share' (next reply)

variable {D} {Q R : List K.Event → D.Share → α → Prop} {past : List K.Event} {share : D.Share}
  {p : Process K α}

theorem Safe.mono (h : Safe D Q past share p)
    (hQR : ∀ past share a, Q past share a → R past share a) :
    Safe D R past share p := by
  induction p generalizing past share with
  | done a => exact hQR _ _ _ h
  | call c next ih =>
      intro s reply s' hinv hholds hanswers
      obtain ⟨share', hkeeps, hrest⟩ := h s reply s' hinv hholds hanswers
      exact ⟨share', hkeeps, ih reply hrest⟩

/-- **One program behind another.** -/
theorem Safe.bind {T : List K.Event → D.Share → β → Prop} {f : α → Process K β}
    (h : Safe D Q past share p) (hf : ∀ past share a, Q past share a → Safe D T past share (f a)) :
    Safe D T past share (p >>= f) := by
  induction p generalizing past share with
  | done a => exact hf _ _ _ h
  | call c next ih =>
      intro s reply s' hinv hholds hanswers
      obtain ⟨share', hkeeps, hrest⟩ := h s reply s' hinv hholds hanswers
      exact ⟨share', hkeeps, ih reply hrest⟩

end Process

namespace World

variable {K : Kernel} {D : Discipline K} {ι κ α : Type}

/-- The invariant of a run: every process is safe with its share, and the shares are apart. -/
structure Respects (D : Discipline K) (Q : ι → κ → List K.Event → D.Share → α → Prop)
    (w : World K ι κ α) (shares : ι → D.Share) : Prop where
  inv : D.Inv w.state
  safe : ∀ i t, w.threads i = some t →
    D.Holds w.state (shares i) ∧ t.rest.Safe D (Q i t.job) t.past (shares i)
  apart : ∀ i j, i ≠ j → w.threads i ≠ none → w.threads j ≠ none → D.Apart (shares i) (shares j)

/-- A share that a process has left behind: no other process touches what it says, and this one does
not any more. -/
structure Rests (D : Discipline K) (w : World K ι κ α) (shares : ι → D.Share) (i : ι)
    (t : Thread K κ α) (share : D.Share) : Prop where
  holds : D.Holds w.state share
  apart : ∀ j u, w.threads j = some u → D.Apart (shares j) share ∨ j = i ∧ u = t

variable {Q : ι → κ → List K.Event → D.Share → α → Prop} {Starts : ι → κ → Process K α → Prop}

theorem respects_empty {s : K.State} (h : D.Inv s) (shares : ι → D.Share) :
    Respects D Q ⟨s, fun _ => none⟩ shares :=
  ⟨h, fun _ _ hnone => absurd hnone (Option.some_ne_none _).symm,
    fun _ _ _ hnone => absurd rfl hnone⟩

/-- A process that has ended leaves its share behind. -/
theorem Respects.rests {w : World K ι κ α} {shares : ι → D.Share} {i : ι} {t : Thread K κ α}
    (h : Respects D Q w shares) (ht : w.threads i = some t) : Rests D w shares i t (shares i) := by
  refine ⟨(h.safe i t ht).1, fun j u hu => ?_⟩
  by_cases hji : j = i
  · subst hji
    rw [ht] at hu
    exact .inr ⟨rfl, (Option.some.inj hu).symm⟩
  · exact .inl (h.apart j i hji (by rw [hu]; exact Option.some_ne_none _)
      (by rw [ht]; exact Option.some_ne_none _))

variable [DecidableEq ι] {w w' : World K ι κ α} {shares : ι → D.Share}

/-- A process that appears with a share of its own, or goes on with a new one. -/
theorem Respects.update {s' : K.State} {share : D.Share} {i : ι} {t : Thread K κ α}
    (h : Respects D Q w shares) (hinv : D.Inv s') (hholds : D.Holds s' share)
    (hsafe : t.rest.Safe D (Q i t.job) t.past share)
    (hothers : ∀ j, j ≠ i → w.threads j ≠ none →
      D.Holds s' (shares j) ∧ D.Apart share (shares j)) :
    Respects D Q ⟨s', Function.update w.threads i (some t)⟩
      (Function.update shares i share) := by
  refine ⟨hinv, fun j u hu => ?_, fun j k hjk hj hk => ?_⟩
  · dsimp only at hu ⊢
    by_cases hji : j = i
    · subst hji
      rw [Function.update_self] at hu ⊢
      cases hu
      exact ⟨hholds, hsafe⟩
    · rw [Function.update_of_ne hji] at hu ⊢
      exact ⟨(hothers j hji (by rw [hu]; exact Option.some_ne_none _)).1, (h.safe j u hu).2⟩
  · dsimp only at hj hk
    by_cases hji : j = i
    · subst hji
      rw [Function.update_of_ne (Ne.symm hjk)] at hk
      rw [Function.update_self, Function.update_of_ne (Ne.symm hjk)]
      exact (hothers k (Ne.symm hjk) hk).2
    · rw [Function.update_of_ne hji] at hj ⊢
      by_cases hki : k = i
      · subst hki
        rw [Function.update_self]
        exact D.apart_symm (hothers j hji hj).2
      · rw [Function.update_of_ne hki] at hk ⊢
        exact h.apart j k hjk hj hk

/-- A share that is left behind stays so when a process appears or goes on. -/
theorem Rests.update {s' : K.State} {share rest : D.Share} {i k : ι} {t u : Thread K κ α}
    (h : Rests D w shares k t rest) (hholds : D.Holds s' rest) (hapart : D.Apart share rest) :
    Rests D ⟨s', Function.update w.threads i (some u)⟩
      (Function.update shares i share) k t rest := by
  refine ⟨hholds, fun j v hv => ?_⟩
  dsimp only at hv
  by_cases hji : j = i
  · subst hji
    rw [Function.update_self]
    exact .inl hapart
  · rw [Function.update_of_ne hji] at hv ⊢
    exact h.apart j v hv

/-- **What one step of a run keeps.** -/
theorem Respects.move (h : Respects D Q w shares)
    (hstarts : ∀ i job p, Starts i job p → p.Safe D (Q i job) [] D.nothing)
    (hmove : Move Starts w w') :
    ∃ shares', Respects D Q w' shares' ∧ ∀ i job past a share,
      Rests D w shares i ⟨job, past, .done a⟩ share →
        Rests D w' shares' i ⟨job, past, .done a⟩ share := by
  cases hmove with
  | @start i job p hfree hp =>
      refine ⟨_, h.update h.inv (D.nothing_holds _ h.inv) (hstarts i job p hp) fun j _ hj => ?_,
        fun k job past a share hrests => hrests.update hrests.holds (D.nothing_apart _)⟩
      obtain ⟨t, ht⟩ := Option.ne_none_iff_exists'.1 hj
      exact ⟨(h.safe j t ht).1, D.nothing_apart _⟩
  | @call i job past c next reply s' hrunning hanswers =>
      obtain ⟨hholds, hsafe⟩ := h.safe i _ hrunning
      obtain ⟨share', hkeeps, hrest⟩ := hsafe w.state reply s' h.inv hholds hanswers
      refine ⟨_, h.update hkeeps.inv hkeeps.holds hrest fun j hji hj => ?_, ?_⟩
      · obtain ⟨t, ht⟩ := Option.ne_none_iff_exists'.1 hj
        refine hkeeps.others _ (h.safe j t ht).1 (h.apart i j (Ne.symm hji) ?_ hj)
        rw [hrunning]
        exact Option.some_ne_none _
      · -- a process that makes a call is not the one that has ended
        intro k job' past' a share hrests
        rcases hrests.apart i _ hrunning with hapart | ⟨-, hthread⟩
        · obtain ⟨hholds', hapart'⟩ := hkeeps.others _ hrests.holds hapart
          exact hrests.update hholds' hapart'
        · cases hthread
  | kill i =>
      refine ⟨shares, ⟨h.inv, fun j u hu => ?_, fun j k hjk hj hk => ?_⟩, ?_⟩
      · dsimp only at hu ⊢
        by_cases hji : j = i
        · rw [hji, Function.update_self] at hu
          cases hu
        · rw [Function.update_of_ne hji] at hu
          exact h.safe j u hu
      · dsimp only at hj hk
        have hji : j ≠ i := by
          rintro rfl
          exact hj (Function.update_self ..)
        have hki : k ≠ i := by
          rintro rfl
          exact hk (Function.update_self ..)
        rw [Function.update_of_ne hji] at hj
        rw [Function.update_of_ne hki] at hk
        exact h.apart j k hjk hj hk
      · intro k job past a share hrests
        refine ⟨hrests.holds, fun j u hu => ?_⟩
        dsimp only at hu
        by_cases hji : j = i
        · rw [hji, Function.update_self] at hu
          cases hu
        · rw [Function.update_of_ne hji] at hu
          exact hrests.apart j u hu

theorem Respects.of_reachable {s : K.State} (hinv : D.Inv s)
    (hstarts : ∀ i job p, Starts i job p → p.Safe D (Q i job) [] D.nothing)
    (hreach : Reachable Starts s w) : ∃ shares, Respects D Q w shares := by
  induction hreach with
  | refl => exact ⟨_, respects_empty hinv fun _ => D.nothing⟩
  | tail _ hstep ih =>
      obtain ⟨shares, h⟩ := ih
      cases hstep with
      | move hmove =>
          obtain ⟨shares', h', -⟩ := h.move hstarts hmove
          exact ⟨shares', h'⟩
      | powerFailure hfails => exact ⟨shares, respects_empty (D.inv_fails h.inv hfails) shares⟩

/-- **Safe processes keep the invariant in every run.** -/
theorem inv_of_reachable {s : K.State} (hinv : D.Inv s)
    (hstarts : ∀ i job p, Starts i job p → p.Safe D (Q i job) [] D.nothing)
    (hreach : Reachable Starts s w) : D.Inv w.state := by
  obtain ⟨shares, h⟩ := Respects.of_reachable hinv hstarts hreach
  exact h.inv

/-- **What is promised of a process that has ended is true**, and what its share says stays true
while the power is on. -/
theorem safe_of_continues {s : K.State} (hinv : D.Inv s)
    (hstarts : ∀ i job p, Starts i job p → p.Safe D (Q i job) [] D.nothing)
    (hreach : Reachable Starts s w) {i : ι} {job : κ} {past : List K.Event} {a : α}
    (hdone : w.threads i = some ⟨job, past, .done a⟩) (hlater : Continues Starts w w') :
    ∃ share, D.Holds w'.state share ∧ Q i job past share a := by
  obtain ⟨shares, h⟩ := Respects.of_reachable hinv hstarts hreach
  have hpromise : Q i job past (shares i) a := (h.safe i _ hdone).2
  have hrun : ∃ shares', Respects D Q w' shares' ∧
      Rests D w' shares' i ⟨job, past, .done a⟩ (shares i) := by
    induction hlater with
    | refl => exact ⟨shares, h, h.rests hdone⟩
    | tail _ hmove ih =>
        obtain ⟨shares', h', hrests⟩ := ih
        obtain ⟨shares'', h'', hkeeps⟩ := h'.move hstarts hmove
        exact ⟨shares'', h'', hkeeps _ _ _ _ _ hrests⟩
  obtain ⟨_, -, hrests⟩ := hrun
  exact ⟨shares i, hrests.holds, hpromise⟩

end World

end Wire
