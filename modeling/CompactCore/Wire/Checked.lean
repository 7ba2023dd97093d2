/-
**Code that can panic.**

A compiled program does not only return or fail.  An index past the end of a slice, an addition
that leaves its word, a shift by a whole word or an allocation that no machine can represent stops
it with a panic, and a loop may go on for longer than anything the input can justify.  A `Checked`
computation has these outcomes beside its errors: every operation that may panic is a step of its
own, and every loop has a budget of rounds.

A program is then modelled twice: once by what it computes, where the operations are total, and
once as checked code.  That the checked code is `total` of the other says that no operation ever
panics and no loop runs out of its budget, and it may use all that is known of the values.

Main definitions:

* `Wire.Fault`, `Wire.Checked` — how checked code stops without a value;
* `Wire.total` — code without panics as checked code;
* `Wire.Safe` — checked code that returns or fails, and nothing else;
* `Wire.TotalIff` — checked code that panics exactly where a condition fails;
* `Wire.require` and the operations that panic: `Wire.slice`, `Wire.index`, `Wire.addUsize`,
  `Wire.subUsize`, `Wire.mulU64`, `Wire.shiftLeft`, `Wire.withCapacity`, …;
* `Wire.runWithin` — a `while` loop with a budget of rounds.

Main results:

* `Wire.total_bind_of`, `Wire.Reader.total_bind_of` — **a sequence is total when its parts are**,
  the second one on what the first one returns;
* `Wire.total_mapM_of`, `Wire.total_foldlM_of` — the same of loops over a list;
* `Wire.TotalIff.bind`, `Wire.TotalIff.runWithin` — where a sequence and a loop panic;
* `Wire.safe_total`, `Wire.TotalIff.safe_iff` — which code is safe.
-/

import CompactCore.Wire.Loop

set_option relaxedAutoImplicit false
set_option autoImplicit false

namespace Wire

variable {ε α β σ : Type}

/-! ### Outcomes -/

/-- How checked code stops without a value: with an error that it returns, with a panic, or in a
loop that has used up its rounds. -/
inductive Fault (ε : Type)
  | error (e : ε)
  | panic
  | exhausted
  deriving DecidableEq, Repr

/-- Code whose panics are outcomes of their own. -/
abbrev Checked (ε α : Type) : Type := Except (Fault ε) α

/-- Code without panics as checked code. -/
def total (x : Except ε α) : Checked ε α := x.mapError Fault.error

/-- Checked code that returns a value or an error. -/
def Safe (x : Checked ε α) : Prop := x ≠ .error .panic ∧ x ≠ .error .exhausted

@[simp] theorem total_ok (a : α) : total (.ok a : Except ε α) = .ok a := rfl

@[simp] theorem total_error (e : ε) : total (.error e : Except ε α) = .error (.error e) := rfl

@[simp] theorem total_pure (a : α) : total (pure a : Except ε α) = pure a := rfl

@[simp] theorem total_failIf (bad : Prop) [Decidable bad] (e : ε) :
    total (failIf bad e) = failIf bad (Fault.error e) := by
  unfold failIf
  split <;> rfl

@[simp] theorem total_okOr (e : ε) (o : Option α) :
    total (okOr e o) = okOr (Fault.error e) o := by
  cases o <;> rfl

@[simp] theorem total_eq_ok {x : Except ε α} {a : α} : total x = .ok a ↔ x = .ok a := by
  cases x <;> simp

theorem safe_total (x : Except ε α) : Safe (total x) := by
  cases x <;> simp [Safe]

/-- Code is safe exactly when it is code without panics. -/
theorem safe_iff {x : Checked ε α} : Safe x ↔ ∃ r : Except ε α, x = total r := by
  constructor
  · intro h
    cases x with
    | ok a => exact ⟨.ok a, rfl⟩
    | error fault =>
        cases fault with
        | error e => exact ⟨.error e, rfl⟩
        | panic => exact absurd rfl h.1
        | exhausted => exact absurd rfl h.2
  · rintro ⟨r, rfl⟩
    exact safe_total r

/-- Go on behind an error that the code looks at: `let Ok(value) = x else …`, `x.ok()`. -/
def attempt (x : Checked ε α) : Checked ε (Option α) :=
  match x with
  | .ok a => .ok (some a)
  | .error (.error _) => .ok none
  | .error .panic => .error .panic
  | .error .exhausted => .error .exhausted

@[simp] theorem attempt_total (x : Except ε α) : attempt (total x) = .ok x.toOption := by
  cases x <;> rfl

theorem guard_bind_of {p : Prop} [Decidable p] (h : p) (f : Unit → Option β) :
    (guard p : Option Unit).bind f = f () := by
  rw [guard, if_pos h]
  rfl

theorem guard_bind_of_not {p : Prop} [Decidable p] (h : ¬p) (f : Unit → Option β) :
    (guard p : Option Unit).bind f = none := by
  rw [guard, if_neg h]
  rfl

/-! ### Sequences and loops -/

/-- **A sequence is total when its parts are**: the second one on what the first one returns. -/
theorem total_bind_of {x' : Checked ε α} {x : Except ε α} {f' : α → Checked ε β}
    {f : α → Except ε β} (hx : x' = total x) (hf : ∀ a, x = .ok a → f' a = total (f a)) :
    (x' >>= f') = total (x >>= f) := by
  subst hx
  cases x with
  | error e => rfl
  | ok a => exact hf a rfl

theorem total_map_of {x' : Checked ε α} {x : Except ε α} (hx : x' = total x) (f : α → β) :
    (f <$> x') = total (f <$> x) := by
  subst hx
  cases x <;> rfl

/-- A map is total when its function is on every item. -/
theorem total_mapM_of {f' : α → Checked ε β} {f : α → Except ε β} {xs : List α}
    (h : ∀ x ∈ xs, f' x = total (f x)) : xs.mapM f' = total (xs.mapM f) := by
  induction xs with
  | nil => rfl
  | cons x xs ih =>
      rw [List.mapM_cons, List.mapM_cons]
      refine total_bind_of (h x List.mem_cons_self) fun y _ => ?_
      exact total_bind_of (ih fun x hx => h x (List.mem_cons_of_mem _ hx)) fun ys _ => rfl

/-- A fold is total when its step is, in every state that the steps before can lead to. -/
theorem total_foldlM_of {f' : σ → α → Checked ε σ} {f : σ → α → Except ε σ} {P : σ → Prop}
    {xs : List α} (h : ∀ s, P s → ∀ x ∈ xs, f' s x = total (f s x))
    (step : ∀ s x s', P s → f s x = .ok s' → P s') {s : σ} (hs : P s) :
    xs.foldlM f' s = total (xs.foldlM f s) := by
  induction xs generalizing s with
  | nil => rfl
  | cons x xs ih =>
      rw [List.foldlM_cons, List.foldlM_cons]
      refine total_bind_of (h s hs x List.mem_cons_self) fun s' hs' => ?_
      exact ih (fun s hs y hy => h s hs y (List.mem_cons_of_mem _ hy)) (step s x s' hs hs')

/-- A fold whose steps all return is a fold without failures. -/
theorem foldlM_of_ok {f' : σ → α → Checked ε σ} {f : σ → α → σ} {xs : List α}
    (h : ∀ s, ∀ x ∈ xs, f' s x = .ok (f s x)) (s : σ) : xs.foldlM f' s = .ok (xs.foldl f s) := by
  induction xs generalizing s with
  | nil => rfl
  | cons x xs ih =>
      rw [List.foldlM_cons, h s x List.mem_cons_self, List.foldl_cons]
      exact ih (fun s y hy => h s y (List.mem_cons_of_mem _ hy)) _

/-- A map whose items are all returned is a map without failures. -/
theorem mapM_of_ok {f' : α → Checked ε β} {f : α → β} {xs : List α}
    (h : ∀ x ∈ xs, f' x = .ok (f x)) : xs.mapM f' = .ok (xs.map f) := by
  induction xs with
  | nil => rfl
  | cons x xs ih =>
      rw [List.mapM_cons, h x List.mem_cons_self, ih fun y hy => h y (List.mem_cons_of_mem _ hy)]
      rfl

/-! ### Code that panics exactly where a condition fails -/

/-- Checked code that computes `x` where `P` holds, and panics elsewhere. -/
structure TotalIff (P : Prop) (x' : Checked ε α) (x : Except ε α) : Prop where
  of_holds : P → x' = total x
  of_not : ¬P → x' = .error .panic

namespace TotalIff

variable {P Q : Prop} {x' : Checked ε α} {x : Except ε α}

theorem of_total (hP : P) (h : x' = total x) : TotalIff P x' x :=
  ⟨fun _ => h, fun hn => absurd hP hn⟩

/-- Code is safe exactly where it does not panic. -/
theorem safe_iff (h : TotalIff P x' x) : Safe x' ↔ P := by
  constructor
  · intro hsafe
    by_contra hn
    exact hsafe.1 (h.of_not hn)
  · intro hP
    rw [h.of_holds hP]
    exact safe_total x

theorem congr (h : TotalIff P x' x) (hiff : P ↔ Q) : TotalIff Q x' x :=
  ⟨fun hQ => h.of_holds (hiff.2 hQ), fun hn => h.of_not fun hP => hn (hiff.1 hP)⟩

/-- **Where a sequence panics**: in its first part, or in the second on what the first returns. -/
theorem bind {R : α → Prop} {f' : α → Checked ε β} {f : α → Except ε β} (h : TotalIff P x' x)
    (hf : ∀ a, x = .ok a → TotalIff (R a) (f' a) (f a)) :
    TotalIff (P ∧ ∀ a, x = .ok a → R a) (x' >>= f') (x >>= f) := by
  constructor
  · rintro ⟨hP, hR⟩
    exact total_bind_of (h.of_holds hP) fun a ha => (hf a ha).of_holds (hR a ha)
  · intro hn
    by_cases hP : P
    · -- the first part returns, and the second one panics
      rw [h.of_holds hP]
      cases hx : x with
      | error e => exact absurd ⟨hP, fun a ha => (by rw [hx] at ha; cases ha)⟩ hn
      | ok a =>
          refine (hf a hx).of_not fun hR => hn ⟨hP, fun b hb => ?_⟩
          rw [hx] at hb
          cases hb
          exact hR
    · rw [h.of_not hP]
      rfl

/-- A first part that never panics. -/
theorem bind_total {R : α → Prop} {f' : α → Checked ε β} {f : α → Except ε β} (h : x' = total x)
    (hf : ∀ a, x = .ok a → TotalIff (R a) (f' a) (f a)) :
    TotalIff (∀ a, x = .ok a → R a) (x' >>= f') (x >>= f) :=
  ((of_total trivial h).bind hf).congr (by rw [true_and])

/-- A second part that never panics. -/
theorem bind_of_total {f' : α → Checked ε β} {f : α → Except ε β} (h : TotalIff P x' x)
    (hf : ∀ a, x = .ok a → f' a = total (f a)) : TotalIff P (x' >>= f') (x >>= f) :=
  (h.bind fun a ha => of_total trivial (hf a ha)).congr (by simp)

end TotalIff

/-! ### Loops with a budget -/

/-- A loop that has used up its rounds. -/
def exhausted : Checked ε α := .error .exhausted

/-- Run the body of a `while` loop until it stops, for at most `rounds` rounds. -/
def runWithin (step : σ → Checked ε (Option σ)) : ℕ → σ → Checked ε σ
  | 0, _ => exhausted
  | rounds + 1, s => do
      match ← step s with
      | some s' => runWithin step rounds s'
      | none => return s

/-- **Where a loop panics**: in a round that it gets to.  What every round makes smaller limits the
rounds. -/
theorem TotalIff.runWithin {loop : Loop ε σ} {step' : σ → Checked ε (Option σ)} {R : σ → Prop}
    {s : σ} {rounds : ℕ}
    (h : ∀ s', loop.Rounds s s' → TotalIff (R s') (step' s') (loop.step s'))
    (hrounds : loop.measure s < rounds) :
    TotalIff (∀ s', loop.Rounds s s' → R s') (Wire.runWithin step' rounds s) (loop.run s) := by
  induction rounds generalizing s with
  | zero => omega
  | succ rounds ih =>
      rw [Wire.runWithin]
      have hfirst := h s .refl
      by_cases hR : R s
      · rw [hfirst.of_holds hR]
        cases hstep : loop.step s with
        | error e =>
            -- the loop ends with the error of its body
            refine of_total (fun s' hs' => ?_) (by rw [Loop.run_of_error hstep]; rfl)
            rcases hs'.cases_head with rfl | ⟨s₁, hs₁, -⟩
            · exact hR
            · rw [hstep] at hs₁
              cases hs₁
        | ok next =>
            cases next with
            | none =>
                refine of_total (fun s' hs' => ?_) (by rw [Loop.run_of_none hstep]; rfl)
                rcases hs'.cases_head with rfl | ⟨s₁, hs₁, -⟩
                · exact hR
                · rw [hstep] at hs₁
                  cases hs₁
            | some s₁ =>
                have hmeasure := loop.decreases hstep
                rw [Loop.run_of_some hstep]
                refine (ih (fun s' hs' => h s' (.head hstep hs')) (by omega)).congr ⟨?_, ?_⟩
                · intro hall s' hs'
                  rcases hs'.cases_head with rfl | ⟨s₂, hs₂, hrest⟩
                  · exact hR
                  · rw [hstep] at hs₂
                    cases hs₂
                    exact hall s' hrest
                · exact fun hall s' hs' => hall s' (.head hstep hs')
      · rw [hfirst.of_not hR]
        exact ⟨fun hall => absurd (hall s .refl) hR, fun _ => rfl⟩

/-- A loop whose rounds never panic. -/
theorem total_runWithin_of {loop : Loop ε σ} {step' : σ → Checked ε (Option σ)} {s : σ} {rounds : ℕ}
    (h : ∀ s', loop.Rounds s s' → step' s' = total (loop.step s'))
    (hrounds : loop.measure s < rounds) : runWithin step' rounds s = total (loop.run s) :=
  (TotalIff.runWithin (fun s' hs' => .of_total trivial (h s' hs')) hrounds).of_holds
    fun _ _ => trivial

/-! ### Operations that panic -/

/-- Panic unless `p` holds. -/
def require (p : Prop) [Decidable p] : Checked ε Unit := failIf (¬p) .panic

theorem require_of {p : Prop} [Decidable p] (h : p) : (require p : Checked ε Unit) = .ok () :=
  failIf_of_not (not_not.2 h)

/-- A step that is known to return goes on with its value. -/
theorem ok_bind_eq {x : Except ε α} {a : α} (h : x = .ok a) (f : α → Except ε β) :
    (x >>= f) = f a := by
  subst h
  rfl

theorem require_bind {p : Prop} [Decidable p] (h : p) (f : Unit → Checked ε β) :
    (require p >>= f) = f () := ok_bind_eq (require_of h) f

/-- `data[start..stop]`. -/
def slice (data : List α) (start stop : ℕ) : Checked ε (List α) := do
  require (start ≤ stop ∧ stop ≤ data.length)
  return (data.drop start).take (stop - start)

theorem slice_of {data : List α} {start stop : ℕ} (h : start ≤ stop) (hstop : stop ≤ data.length) :
    (slice data start stop : Checked ε (List α)) = .ok ((data.drop start).take (stop - start)) :=
  require_bind ⟨h, hstop⟩ _

theorem length_slice {data : List α} {start stop : ℕ} (h : start ≤ stop)
    (hstop : stop ≤ data.length) :
    ((data.drop start).take (stop - start)).length = stop - start := by
  rw [List.length_take, List.length_drop]
  omega

/-- `data[start..]`. -/
def sliceFrom (data : List α) (start : ℕ) : Checked ε (List α) := do
  require (start ≤ data.length)
  return data.drop start

theorem sliceFrom_of {data : List α} {start : ℕ} (h : start ≤ data.length) :
    (sliceFrom data start : Checked ε (List α)) = .ok (data.drop start) := require_bind h _

/-- `data.get(start..)`. -/
def getFrom (data : List α) (start : ℕ) : Option (List α) :=
  if start ≤ data.length then some (data.drop start) else none

theorem getFrom_of {data : List α} {start : ℕ} (h : start ≤ data.length) :
    getFrom data start = some (data.drop start) := if_pos h

/-- `data[..stop]`. -/
def sliceTo (data : List α) (stop : ℕ) : Checked ε (List α) := do
  require (stop ≤ data.length)
  return data.take stop

theorem sliceTo_of {data : List α} {stop : ℕ} (h : stop ≤ data.length) :
    (sliceTo data stop : Checked ε (List α)) = .ok (data.take stop) := require_bind h _

/-- `data.split_at(mid)`. -/
def splitAt (data : List α) (mid : ℕ) : Checked ε (List α × List α) := do
  require (mid ≤ data.length)
  return (data.take mid, data.drop mid)

theorem splitAt_of {data : List α} {mid : ℕ} (h : mid ≤ data.length) :
    (splitAt data mid : Checked ε (List α × List α)) = .ok (data.take mid, data.drop mid) :=
  require_bind h _

/-- `data[i]`. -/
def index (data : List α) (i : ℕ) : Checked ε α := okOr .panic data[i]?

theorem index_of {data : List α} {i : ℕ} {a : α} (h : data[i]? = some a) :
    (index data i : Checked ε α) = .ok a := okOr_ok.2 h

theorem index_getD {data : List α} {i : ℕ} (default : α) (h : i < data.length) :
    (index data i : Checked ε α) = .ok (data.getD i default) := by
  rw [List.getD_eq_getElem _ _ h]
  exact index_of (List.getElem?_eq_getElem h)

/-- `a + b` of sizes. -/
def addUsize (a b : ℕ) : Checked ε ℕ := do
  require (a + b < wordSize)
  return a + b

theorem addUsize_of {a b : ℕ} (h : a + b < wordSize) : (addUsize a b : Checked ε ℕ) = .ok (a + b) :=
  require_bind h _

/-- `a - b` of sizes. -/
def subUsize (a b : ℕ) : Checked ε ℕ := do
  require (b ≤ a)
  return a - b

theorem subUsize_of {a b : ℕ} (h : b ≤ a) : (subUsize a b : Checked ε ℕ) = .ok (a - b) :=
  require_bind h _

/-- `a * b` of sizes. -/
def mulUsize (a b : ℕ) : Checked ε ℕ := do
  require (a * b < wordSize)
  return a * b

theorem mulUsize_of {a b : ℕ} (h : a * b < wordSize) : (mulUsize a b : Checked ε ℕ) = .ok (a * b) :=
  require_bind h _

/-- `a + b` of 64-bit words. -/
def addU64 (a b : UInt64) : Checked ε UInt64 := do
  require (a.toNat + b.toNat < 2 ^ 64)
  return a + b

theorem addU64_of {a b : UInt64} (h : a.toNat + b.toNat < 2 ^ 64) :
    (addU64 a b : Checked ε UInt64) = .ok (a + b) := require_bind h _

/-- `a - b` of 64-bit words. -/
def subU64 (a b : UInt64) : Checked ε UInt64 := do
  require (b.toNat ≤ a.toNat)
  return a - b

theorem subU64_of {a b : UInt64} (h : b.toNat ≤ a.toNat) :
    (subU64 a b : Checked ε UInt64) = .ok (a - b) := require_bind h _

/-- `a * b` of 64-bit words. -/
def mulU64 (a b : UInt64) : Checked ε UInt64 := do
  require (a.toNat * b.toNat < 2 ^ 64)
  return a * b

theorem mulU64_of {a b : UInt64} (h : a.toNat * b.toNat < 2 ^ 64) :
    (mulU64 a b : Checked ε UInt64) = .ok (a * b) := require_bind h _

/-- `a + b` of 32-bit words that are small numbers. -/
def addU32 (a b : ℕ) : Checked ε ℕ := do
  require (a + b < 2 ^ 32)
  return a + b

theorem addU32_of {a b : ℕ} (h : a + b < 2 ^ 32) : (addU32 a b : Checked ε ℕ) = .ok (a + b) :=
  require_bind h _

/-- `v << k` of a 64-bit word. -/
def shiftLeft (v : UInt64) (k : ℕ) : Checked ε UInt64 := do
  require (k < 64)
  return v <<< UInt64.ofNat k

theorem shiftLeft_of {v : UInt64} {k : ℕ} (h : k < 64) :
    (shiftLeft v k : Checked ε UInt64) = .ok (v <<< UInt64.ofNat k) := require_bind h _

/-- `v << k` of a byte. -/
def shiftLeftU8 (v : UInt8) (k : ℕ) : Checked ε UInt8 := do
  require (k < 8)
  return v <<< UInt8.ofNat k

theorem shiftLeftU8_of {v : UInt8} {k : ℕ} (h : k < 8) :
    (shiftLeftU8 v k : Checked ε UInt8) = .ok (v <<< UInt8.ofNat k) := require_bind h _

/-- `v >> k` of a byte. -/
def shiftRightU8 (v : UInt8) (k : ℕ) : Checked ε UInt8 := do
  require (k < 8)
  return v >>> UInt8.ofNat k

theorem shiftRightU8_of {v : UInt8} {k : ℕ} (h : k < 8) :
    (shiftRightU8 v k : Checked ε UInt8) = .ok (v >>> UInt8.ofNat k) := require_bind h _

/-- The largest number of bytes that an allocation may ask for. -/
def maxAllocation : ℕ := 2 ^ 63 - 1

/-- A byte string that stands in memory as a slice. -/
def IsSlice (data : List UInt8) : Prop := data.length ≤ maxAllocation

instance (data : List UInt8) : Decidable (IsSlice data) := inferInstanceAs (Decidable (_ ≤ _))

theorem IsSlice.fits {data : List UInt8} (h : IsSlice data) : Fits data :=
  lt_of_le_of_lt h (by rw [maxAllocation, wordSize]; omega)

/-- `Vec::with_capacity(count)` for elements of `size` bytes. -/
def withCapacity (size count : ℕ) : Checked ε Unit := require (size * count ≤ maxAllocation)

theorem withCapacity_of {size count : ℕ} (h : size * count ≤ maxAllocation) :
    (withCapacity size count : Checked ε Unit) = .ok () := require_of h

/-- **Where an allocation panics**, if nothing after it does. -/
theorem TotalIff.withCapacity {size count : ℕ} {f : Unit → Checked ε β} {x : Except ε β}
    (h : f () = total x) :
    TotalIff (size * count ≤ maxAllocation) (Wire.withCapacity size count >>= f) x := by
  refine ⟨fun hle => ?_, fun hgt => ?_⟩
  · rw [ok_bind_eq (withCapacity_of hle), h]
  · rw [Wire.withCapacity, require, failIf, if_pos hgt]
    rfl

/-! ### Readers -/

namespace Reader

/-- A reader without panics as checked code. -/
def total (p : Reader ε α) : Reader (Fault ε) α := fun data c => Wire.total (p data c)

@[simp] theorem total_apply (p : Reader ε α) (data : List UInt8) (c : ℕ) :
    total p data c = Wire.total (p data c) := rfl

variable {data : List UInt8} {c : ℕ}

theorem total_remaining :
    (remaining : Reader (Fault ε) ℕ) data c = Wire.total ((remaining : Reader ε ℕ) data c) := rfl

theorem total_cursor :
    (cursor : Reader (Fault ε) ℕ) data c = Wire.total ((cursor : Reader ε ℕ) data c) := rfl

theorem total_lift_of {x' : Checked ε α} {x : Except ε α} (h : x' = Wire.total x) :
    (liftM x' : Reader (Fault ε) α) data c = Wire.total ((liftM x : Reader ε α) data c) := by
  subst h
  cases x <;> rfl

/-- **A sequence of reads is total when its parts are**, the second one where the first one
stops. -/
theorem total_bind_of {p' : Reader (Fault ε) α} {p : Reader ε α} {f' : α → Reader (Fault ε) β}
    {f : α → Reader ε β} (hp : p' data c = Wire.total (p data c))
    (hf : ∀ a c', p data c = .ok (a, c') → f' a data c' = Wire.total (f a data c')) :
    (p' >>= f') data c = Wire.total ((p >>= f) data c) := by
  cases h : p data c with
  | error e =>
      rw [h] at hp
      rw [bind_of_error h, bind_of_error hp]
      rfl
  | ok r =>
      obtain ⟨a, c'⟩ := r
      rw [h] at hp
      rw [bind_of_ok h, bind_of_ok hp]
      exact hf a c' h

/-- A reader that never panics may be repeated. -/
theorem total_repeatRead_of {p' : Reader (Fault ε) α} {p : Reader ε α}
    (h : ∀ c, p' data c = Wire.total (p data c)) (n : ℕ) (c : ℕ) :
    repeatRead p' n data c = Wire.total (repeatRead p n data c) := by
  induction n generalizing c with
  | zero => rfl
  | succ n ih =>
      rw [repeatRead, repeatRead]
      refine total_bind_of (h c) fun _ c₁ _ => ?_
      exact total_bind_of (ih c₁) fun _ _ _ => rfl

/-- A check that passes is followed by what comes after it. -/
theorem lift_bind_eq {x : Checked ε α} {a : α} (h : x = .ok a) (f : α → Reader (Fault ε) β) :
    ((liftM x : Reader (Fault ε) α) >>= f) data c = f a data c := lift_of_ok h

end Reader

theorem total_readExact (overflow truncated : ε) (len : ℕ) (data : List UInt8) (c : ℕ) :
    readExact (Fault.error overflow) (.error truncated) len data c =
      total (readExact overflow truncated len data c) := by
  unfold readExact
  split
  · rfl
  · split <;> rfl

namespace Checked

/-- `readExact` with a slice behind its checks. -/
def readExact (overflow truncated : ε) (len : ℕ) : Reader (Fault ε) (List UInt8) := fun data c =>
  if wordSize ≤ c + len then .error (.error overflow)
  else if data.length < c + len then .error (.error truncated)
  else do
    let bytes ← slice data c (c + len)
    return (bytes, c + len)

/-- Read one byte, which is taken out of what was read by its index. -/
def readUInt8 (rd : ℕ → Reader (Fault ε) (List UInt8)) : Reader (Fault ε) UInt8 := do
  let bytes ← rd 1
  liftM (index bytes 0 : Checked ε UInt8)

/-- Read a little-endian 16-bit word out of an array of two bytes. -/
def readUInt16 (rd : ℕ → Reader (Fault ε) (List UInt8)) : Reader (Fault ε) UInt16 := do
  let bytes ← rd 2
  liftM (require (bytes.length = 2) : Checked ε Unit)
  return u16OfLe bytes

/-- Read a little-endian 32-bit word out of an array of four bytes. -/
def readUInt32 (rd : ℕ → Reader (Fault ε) (List UInt8)) : Reader (Fault ε) UInt32 := do
  let bytes ← rd 4
  liftM (require (bytes.length = 4) : Checked ε Unit)
  return u32OfLe bytes

/-- Read a little-endian 64-bit word out of an array of eight bytes. -/
def readUInt64 (rd : ℕ → Reader (Fault ε) (List UInt8)) : Reader (Fault ε) UInt64 := do
  let bytes ← rd 8
  liftM (require (bytes.length = 8) : Checked ε Unit)
  return u64OfLe bytes

variable {overflow truncated : ε} {data : List UInt8} {c : ℕ}

theorem readExact_total (len : ℕ) : readExact overflow truncated len data c =
    total (Wire.readExact overflow truncated len data c) := by
  unfold readExact Wire.readExact
  split
  · rfl
  · split
    · rfl
    · rename_i hle
      rw [ok_bind_eq (slice_of (Nat.le_add_right ..) (not_lt.1 hle)), Nat.add_sub_cancel_left]
      rfl

/-- A reader of a given number of bytes that never panics. -/
def Reads (rd : ℕ → Reader (Fault ε) (List UInt8)) (overflow truncated : ε) : Prop :=
  ∀ (len : ℕ) (data : List UInt8) (c : ℕ),
    rd len data c = total (Wire.readExact overflow truncated len data c)

theorem reads_readExact : Reads (readExact overflow truncated) overflow truncated :=
  fun len _ _ => readExact_total len

variable {rd : ℕ → Reader (Fault ε) (List UInt8)} (hrd : Reads rd overflow truncated)
include hrd

theorem readUInt8_total :
    readUInt8 rd data c = total (Wire.readUInt8 (Wire.readExact overflow truncated) data c) := by
  refine Reader.total_bind_of (hrd 1 data c) fun bytes c' h => ?_
  obtain ⟨b, rfl⟩ := List.length_eq_one_iff.1 (readExact_at h).2.1
  rfl

theorem readUInt16_total :
    readUInt16 rd data c = total (Wire.readUInt16 (Wire.readExact overflow truncated) data c) := by
  refine Reader.total_bind_of (hrd 2 data c) fun bytes c' h => ?_
  rw [Reader.lift_bind_eq (require_of (readExact_at h).2.1)]
  rfl

theorem readUInt32_total :
    readUInt32 rd data c = total (Wire.readUInt32 (Wire.readExact overflow truncated) data c) := by
  refine Reader.total_bind_of (hrd 4 data c) fun bytes c' h => ?_
  rw [Reader.lift_bind_eq (require_of (readExact_at h).2.1)]
  rfl

theorem readUInt64_total :
    readUInt64 rd data c = total (Wire.readUInt64 (Wire.readExact overflow truncated) data c) := by
  refine Reader.total_bind_of (hrd 8 data c) fun bytes c' h => ?_
  rw [Reader.lift_bind_eq (require_of (readExact_at h).2.1)]
  rfl

end Checked

namespace Reader

variable {P : Prop} {data : List UInt8} {c : ℕ}

/-- **Where a sequence of reads panics.** -/
theorem totalIff_bind {p' : Reader (Fault ε) α} {p : Reader ε α} {R : α → ℕ → Prop}
    {f' : α → Reader (Fault ε) β} {f : α → Reader ε β} (h : TotalIff P (p' data c) (p data c))
    (hf : ∀ a c', p data c = .ok (a, c') → TotalIff (R a c') (f' a data c') (f a data c')) :
    TotalIff (P ∧ ∀ a c', p data c = .ok (a, c') → R a c') ((p' >>= f') data c)
      ((p >>= f) data c) := by
  have hrest : ∀ r : α × ℕ, p data c = .ok r →
      TotalIff (R r.1 r.2) (f' r.1 data r.2) (f r.1 data r.2) := fun r hr => hf r.1 r.2 hr
  have hleft : (p' >>= f') data c = (p' data c >>= fun r => f' r.1 data r.2) := by
    cases hp : p' data c with
    | error e => exact bind_of_error hp
    | ok r => exact bind_of_ok hp
  have hright : (p >>= f) data c = (p data c >>= fun r => f r.1 data r.2) := by
    cases hp : p data c with
    | error e => exact bind_of_error hp
    | ok r => exact bind_of_ok hp
  rw [hleft, hright]
  exact (h.bind hrest).congr (by simp only [Prod.forall])

/-- A first read that never panics. -/
theorem totalIff_bind_total {p' : Reader (Fault ε) α} {p : Reader ε α} {R : α → ℕ → Prop}
    {f' : α → Reader (Fault ε) β} {f : α → Reader ε β} (h : p' data c = Wire.total (p data c))
    (hf : ∀ a c', p data c = .ok (a, c') → TotalIff (R a c') (f' a data c') (f a data c')) :
    TotalIff (∀ a c', p data c = .ok (a, c') → R a c') ((p' >>= f') data c) ((p >>= f) data c) :=
  (totalIff_bind (.of_total trivial h) hf).congr (by rw [true_and])

/-- What comes behind a read that may panic never panics. -/
theorem totalIff_bind_of_total {p' : Reader (Fault ε) α} {p : Reader ε α}
    {f' : α → Reader (Fault ε) β} {f : α → Reader ε β} (h : TotalIff P (p' data c) (p data c))
    (hf : ∀ a c', p data c = .ok (a, c') → f' a data c' = Wire.total (f a data c')) :
    TotalIff P ((p' >>= f') data c) ((p >>= f) data c) :=
  (totalIff_bind h fun a c' ha => .of_total trivial (hf a c' ha)).congr (by simp)

/-- **Where an allocation panics**, if nothing after it does. -/
theorem totalIff_withCapacity {size count : ℕ} {f : Unit → Reader (Fault ε) β}
    {x : Except ε (β × ℕ)} (h : f () data c = Wire.total x) :
    TotalIff (size * count ≤ maxAllocation)
      (((liftM (withCapacity size count : Checked ε Unit) : Reader (Fault ε) Unit) >>= f) data c)
      x := by
  refine ⟨fun hle => ?_, fun hgt => ?_⟩
  · rw [lift_bind_eq (withCapacity_of hle), h]
  · rw [withCapacity, require, failIf, if_pos hgt]
    rfl

theorem totalIff_lift {x' : Checked ε α} {x : Except ε α} (h : TotalIff P x' x) :
    TotalIff P ((liftM x' : Reader (Fault ε) α) data c) ((liftM x : Reader ε α) data c) := by
  refine ⟨fun hP => total_lift_of (h.of_holds hP), fun hn => ?_⟩
  rw [h.of_not hn]
  rfl

end Reader

end Wire
