/-
**Readers: parsing a byte string with a cursor.**

A `Reader` is the shape of every decoder that walks an immutable slice with a mutable cursor: it
takes the slice and the cursor, and either fails or returns a value and the advanced cursor.  The
library reasons about readers by *exactness*: what a successful read means is stated as an
equivalence with the bytes that sit at the cursor (`Wire.At`), so that one lemma serves both the
round trip (the right bytes are accepted) and canonicity (nothing else is).

Main definitions:

* `Wire.Reader` — the reader monad, with `Wire.Reader.cursor`, `Wire.Reader.remaining`;
* `Wire.readExact` and `Wire.readUInt8` … `Wire.readUInt64` — the primitive reads;
* `Wire.Reader.Forward` — a reader that never moves its cursor back;
* `Wire.failIf` — stop with an error when a test fires;
* `Wire.Reader.repeatRead` — a counted loop that collects what it reads.

Main results:

* `Wire.bind_ok`, `Wire.Reader.bind_ok` — a sequence succeeds exactly when its parts do;
* `Wire.mapM_ok`, `Wire.foldlM_invariant` — loops over a list;
* `Wire.readExact_ok`, `Wire.readUInt16_ok`, `Wire.readUInt32_ok`, `Wire.readUInt64_ok` — the
  primitive reads are exact;
* `Wire.Reader.Forward.bind` — a reader made of readers that go forward goes forward;
* `Wire.Reader.repeatRead_sound`, `Wire.Reader.repeatRead_complete` — a counted loop is as exact as
  its body.
-/

import CompactCore.Wire.Bytes
import Mathlib.Data.List.Forall2
import Mathlib.Tactic.Linarith

set_option relaxedAutoImplicit false
set_option autoImplicit false

namespace Wire

variable {ε α β σ : Type}

/-! ### Computations that may fail -/

/-- Stop with `e` when `bad` holds. -/
def failIf (bad : Prop) [Decidable bad] (e : ε) : Except ε Unit :=
  if bad then .error e else .ok ()

/-- Take the value out of an option, or stop with `e`. -/
def okOr (e : ε) : Option α → Except ε α
  | some a => .ok a
  | none => .error e

@[simp] theorem failIf_ok {bad : Prop} [Decidable bad] {e : ε} {u : Unit} :
    failIf bad e = .ok u ↔ ¬bad := by
  unfold failIf
  split <;> simp_all

theorem failIf_of_not {bad : Prop} [Decidable bad] {e : ε} (h : ¬bad) : failIf bad e = .ok () :=
  if_neg h

/-- A table of identifiers is a chain of tests. -/
theorem ite_ok {p : Prop} [Decidable p] {a b : α} {x : Except ε α} :
    (if p then .ok b else x) = .ok a ↔ p ∧ b = a ∨ ¬p ∧ x = .ok a := by
  by_cases hp : p
  · simp [hp]
  · simp [hp]

@[simp] theorem okOr_ok {e : ε} {o : Option α} {a : α} : okOr e o = .ok a ↔ o = some a := by
  cases o <;> simp [okOr]

/-- A sequence of fallible steps succeeds exactly when both steps do. -/
@[simp] theorem bind_ok {x : Except ε α} {f : α → Except ε β} {b : β} :
    (x >>= f) = .ok b ↔ ∃ a, x = .ok a ∧ f a = .ok b := by
  cases x <;> simp [bind, Except.bind]

@[simp] theorem pure_ok {a b : α} : (pure a : Except ε α) = .ok b ↔ a = b := by
  simp [pure, Except.pure]

@[simp] theorem map_ok {x : Except ε α} {f : α → β} {b : β} :
    (f <$> x) = .ok b ↔ ∃ a, x = .ok a ∧ f a = b := by
  cases x <;> simp [Functor.map, Except.map]

/-- What does not succeed fails. -/
theorem exists_error_iff {x : Except ε α} : (∃ e, x = .error e) ↔ ∀ a, x ≠ .ok a := by
  cases x <;> simp

/-- `result.ok()`. -/
@[simp] theorem toOption_eq_some {x : Except ε α} {a : α} : x.toOption = some a ↔ x = .ok a := by
  cases x <;> simp [Except.toOption]

/-- Mapping a fallible function over a list succeeds exactly when it succeeds on every entry. -/
theorem mapM_ok {f : α → Except ε β} {xs : List α} {ys : List β} :
    xs.mapM f = .ok ys ↔ List.Forall₂ (fun x y => f x = .ok y) xs ys := by
  induction xs generalizing ys with
  | nil =>
      rw [List.mapM_nil, pure_ok, List.forall₂_nil_left_iff, eq_comm]
  | cons x xs ih =>
      simp only [List.mapM_cons, bind_ok, pure_ok, ih, List.forall₂_cons_left_iff]
      constructor
      · intro h
        obtain ⟨y, hy, ys', hys, rfl⟩ := h
        exact ⟨y, ys', hy, hys, rfl⟩
      · intro h
        obtain ⟨y, ys', hy, hys, rfl⟩ := h
        exact ⟨y, hy, ys', hys, rfl⟩

/-- A map succeeds where its function does on every item. -/
theorem exists_mapM {f : α → Except ε β} {xs : List α} (h : ∀ x ∈ xs, ∃ y, f x = .ok y) :
    ∃ ys, xs.mapM f = .ok ys := by
  induction xs with
  | nil => exact ⟨[], rfl⟩
  | cons x xs ih =>
      obtain ⟨y, hy⟩ := h x List.mem_cons_self
      obtain ⟨ys, hys⟩ := ih fun x hx => h x (List.mem_cons_of_mem _ hx)
      refine ⟨y :: ys, ?_⟩
      simp only [List.mapM_cons, bind_ok, pure_ok]
      exact ⟨y, hy, ys, hys, rfl⟩

theorem foldlM_invariant_from {f : σ → α → Except ε σ} {xs : List α} {P : List α → σ → Prop}
    (step : ∀ done x s s', P done s → f s x = .ok s' → P (done ++ [x]) s') {done : List α}
    {s s' : σ} (h : P done s) (hfold : xs.foldlM f s = .ok s') : P (done ++ xs) s' := by
  induction xs generalizing done s with
  | nil =>
      rw [List.foldlM_nil, pure_ok] at hfold
      rw [List.append_nil, ← hfold]
      exact h
  | cons x xs ih =>
      rw [List.foldlM_cons, bind_ok] at hfold
      obtain ⟨s₁, hstep, hrest⟩ := hfold
      have := ih (step done x s s₁ h hstep) hrest
      rwa [List.append_assoc, List.singleton_append] at this

/-- A property that every step of a fold preserves holds of its result. -/
theorem foldlM_invariant {f : σ → α → Except ε σ} {xs : List α} {P : List α → σ → Prop}
    (step : ∀ done x s s', P done s → f s x = .ok s' → P (done ++ [x]) s') {s s' : σ}
    (h : P [] s) (hfold : xs.foldlM f s = .ok s') : P xs s' :=
  foldlM_invariant_from step h hfold

/-- A fold succeeds where every step does, from a state with a property that every step
preserves. -/
theorem exists_foldlM {f : σ → α → Except ε σ} {xs : List α} {P : List α → σ → Prop}
    (step : ∀ done x rest s, xs = done ++ x :: rest → P done s →
      ∃ s', f s x = .ok s' ∧ P (done ++ [x]) s') {s : σ} (h : P [] s) :
    ∃ s', xs.foldlM f s = .ok s' ∧ P xs s' := by
  -- induction on the items that are left
  suffices hrest : ∀ rest done s, xs = done ++ rest → P done s →
      ∃ s', rest.foldlM f s = .ok s' ∧ P xs s' from hrest xs [] s rfl h
  intro rest
  induction rest with
  | nil =>
      intro done s hxs hs
      rw [List.append_nil] at hxs
      exact ⟨s, rfl, hxs ▸ hs⟩
  | cons x rest ih =>
      intro done s hxs hs
      obtain ⟨s₁, hstep, hs₁⟩ := step done x rest s hxs hs
      obtain ⟨s', hfold, hs'⟩ := ih (done ++ [x]) s₁ (by simp [hxs]) hs₁
      refine ⟨s', ?_, hs'⟩
      rw [List.foldlM_cons, bind_ok]
      exact ⟨s₁, hstep, hfold⟩

@[simp] theorem throw_ok {e : ε} {a : α} : (throw e : Except ε α) = .ok a ↔ False := by
  simp [throw, throwThe, MonadExceptOf.throw]

theorem exists_of_forall₂_mem_left {R : α → β → Prop} {as : List α} {bs : List β}
    (h : List.Forall₂ R as bs) {a : α} (hmem : a ∈ as) : ∃ b ∈ bs, R a b := by
  induction h with
  | nil => cases hmem
  | @cons a' b' as bs hfirst _ ih =>
      rcases List.mem_cons.1 hmem with rfl | hmem
      · exact ⟨b', List.mem_cons_self, hfirst⟩
      · obtain ⟨b, hb, hab⟩ := ih hmem
        exact ⟨b, List.mem_cons_of_mem _ hb, hab⟩

theorem exists_of_forall₂_mem_right {R : α → β → Prop} {as : List α} {bs : List β}
    (h : List.Forall₂ R as bs) {b : β} (hmem : b ∈ bs) : ∃ a ∈ as, R a b :=
  exists_of_forall₂_mem_left (List.Forall₂.flip h) hmem

/-- Entries that take at least `k` bytes each take at least `k` times their number. -/
theorem mul_length_le_flatten {E : α → List UInt8 → Prop} {as : List α}
    {parts : List (List UInt8)} (h : List.Forall₂ E as parts) {k : ℕ}
    (hk : ∀ a ∈ as, ∀ bs, E a bs → k ≤ bs.length) : as.length * k ≤ parts.flatten.length := by
  induction h with
  | nil => simp
  | @cons a bs as parts hbs _ ih =>
      have hhead := hk a List.mem_cons_self bs hbs
      have htail := ih fun a ha => hk a (List.mem_cons_of_mem _ ha)
      rw [List.length_cons, List.flatten_cons, List.length_append, Nat.succ_mul]
      omega

/-! ### The reader monad -/

/-- A reader over an immutable byte string, with a cursor into it. -/
def Reader (ε α : Type) : Type := List UInt8 → ℕ → Except ε (α × ℕ)

namespace Reader

instance : Monad (Reader ε) where
  pure a := fun _ c => .ok (a, c)
  bind p f := fun data c =>
    match p data c with
    | .ok (a, c') => f a data c'
    | .error e => .error e

instance : MonadLift (Except ε) (Reader ε) where
  monadLift x := fun _ c => x.map (·, c)

/-- The current cursor. -/
def cursor : Reader ε ℕ := fun _ c => .ok (c, c)

/-- The number of bytes after the cursor. -/
def remaining : Reader ε ℕ := fun data c => .ok (data.length - c, c)

/-- The whole byte string the cursor walks. -/
def input : Reader ε (List UInt8) := fun data c => .ok (data, c)

@[simp] theorem pure_ok {a b : α} {data : List UInt8} {c c' : ℕ} :
    (pure a : Reader ε α) data c = .ok (b, c') ↔ a = b ∧ c = c' := by
  simp [pure]

/-- A sequence of reads succeeds exactly when the second succeeds where the first stopped. -/
@[simp] theorem bind_ok {p : Reader ε α} {f : α → Reader ε β} {data : List UInt8} {c c'' : ℕ}
    {b : β} : (p >>= f) data c = .ok (b, c'') ↔
      ∃ a c', p data c = .ok (a, c') ∧ f a data c' = .ok (b, c'') := by
  show (match p data c with
    | .ok (a, c') => f a data c'
    | .error e => .error e) = _ ↔ _
  cases h : p data c with
  | error e => simp
  | ok r => obtain ⟨a, c'⟩ := r; simp

/-- A read whose result is known goes on with it. -/
theorem bind_of_ok {p : Reader ε α} {f : α → Reader ε β} {data : List UInt8} {c c' : ℕ} {a : α}
    (h : p data c = .ok (a, c')) : (p >>= f) data c = f a data c' := by
  show (match p data c with
    | .ok (a, c') => f a data c'
    | .error e => .error e) = _
  rw [h]

/-- A read that fails ends the sequence. -/
theorem bind_of_error {p : Reader ε α} {f : α → Reader ε β} {data : List UInt8} {c : ℕ} {e : ε}
    (h : p data c = .error e) : (p >>= f) data c = .error e := by
  show (match p data c with
    | .ok (a, c') => f a data c'
    | .error e => .error e) = _
  rw [h]

instance : LawfulMonad (Reader ε) := LawfulMonad.mk' (Reader ε)
  (fun p => by
    funext data c
    show (p >>= fun a => pure a) data c = p data c
    cases h : p data c with
    | error e => rw [bind_of_error h]
    | ok r => rw [bind_of_ok h]; rfl)
  (fun _ _ => rfl)
  (fun p f g => by
    funext data c
    cases h : p data c with
    | error e => rw [bind_of_error h, bind_of_error (bind_of_error h)]
    | ok r =>
        obtain ⟨a, c'⟩ := r
        rw [bind_of_ok h]
        show (match (p >>= f) data c with
          | .ok (b, c') => g b data c'
          | .error e => .error e) = _
        rw [bind_of_ok h]
        rfl)

/-- A computation that is known to succeed goes on with its result. -/
theorem lift_of_ok {x : Except ε α} {f : α → Reader ε β} {data : List UInt8} {c : ℕ} {a : α}
    (h : x = .ok a) : ((liftM x : Reader ε α) >>= f) data c = f a data c := by
  subst h
  rfl

@[simp] theorem lift_ok {x : Except ε α} {data : List UInt8} {c c' : ℕ} {a : α} :
    (liftM x : Reader ε α) data c = .ok (a, c') ↔ x = .ok a ∧ c = c' := by
  show Except.map _ x = _ ↔ _
  cases x <;> simp [Except.map]

@[simp] theorem cursor_ok {data : List UInt8} {c k c' : ℕ} :
    (cursor : Reader ε ℕ) data c = .ok (k, c') ↔ c = k ∧ c = c' := by
  simp [cursor]

@[simp] theorem remaining_ok {data : List UInt8} {c k c' : ℕ} :
    (remaining : Reader ε ℕ) data c = .ok (k, c') ↔ data.length - c = k ∧ c = c' := by
  simp [remaining]

@[simp] theorem input_ok {data bs : List UInt8} {c c' : ℕ} :
    (input : Reader ε (List UInt8)) data c = .ok (bs, c') ↔ data = bs ∧ c = c' := by
  simp [input]

/-- Run a reader `n` times and collect what it returns. -/
def repeatRead (p : Reader ε α) : ℕ → Reader ε (List α)
  | 0 => pure []
  | n + 1 => do
      let a ← p
      let as ← repeatRead p n
      return a :: as

/-- What a counted loop reads is a sequence of what its body reads. -/
theorem repeatRead_sound {p : Reader ε α} {E : α → List UInt8 → Prop} {data : List UInt8}
    (hp : ∀ a c c', p data c = .ok (a, c') → ∃ bs, E a bs ∧ At data c bs ∧ c' = c + bs.length)
    {n c c' : ℕ} {as : List α} (hc : c ≤ data.length)
    (h : repeatRead p n data c = .ok (as, c')) :
    as.length = n ∧ ∃ parts, List.Forall₂ E as parts ∧ At data c parts.flatten ∧
      c' = c + parts.flatten.length := by
  induction n generalizing c as with
  | zero =>
      rw [repeatRead, pure_ok] at h
      obtain ⟨rfl, rfl⟩ := h
      exact ⟨rfl, [], List.Forall₂.nil, at_nil.2 hc, rfl⟩
  | succ n ih =>
      simp only [repeatRead, bind_ok, pure_ok] at h
      obtain ⟨a, c₁, ha, as', c₂, has, rfl, rfl⟩ := h
      obtain ⟨bs, hbs, hat, rfl⟩ := hp a c c₁ ha
      obtain ⟨hlen, parts, hparts, hrest, hc'⟩ := ih hat.le has
      refine ⟨by rw [List.length_cons, hlen], bs :: parts, List.Forall₂.cons hbs hparts, ?_, ?_⟩
      · rw [List.flatten_cons, at_append]
        exact ⟨hat, hrest⟩
      · rw [List.flatten_cons, List.length_append, hc']
        omega

/-- A counted loop reads every sequence of what its body reads. -/
theorem repeatRead_complete {p : Reader ε α} {E : α → List UInt8 → Prop} {data : List UInt8}
    {as : List α} {parts : List (List UInt8)} (hparts : List.Forall₂ E as parts)
    (hp : ∀ a ∈ as, ∀ bs c, E a bs → At data c bs → p data c = .ok (a, c + bs.length)) {c : ℕ}
    (hat : At data c parts.flatten) :
    repeatRead p as.length data c = .ok (as, c + parts.flatten.length) := by
  induction hparts generalizing c with
  | nil => rfl
  | @cons a bs as parts hbs hparts ih =>
      rw [List.flatten_cons, at_append] at hat
      have ha := hp a List.mem_cons_self bs c hbs hat.1
      have has := ih (fun a ha => hp a (List.mem_cons_of_mem _ ha)) hat.2
      simp only [List.length_cons, repeatRead, bind_ok, pure_ok]
      refine ⟨a, _, ha, as, _, has, rfl, ?_⟩
      rw [List.flatten_cons, List.length_append]
      omega

end Reader

/-! ### Primitive reads -/

/-- The number of addressable positions of a 64-bit machine. -/
def wordSize : ℕ := 2 ^ 64

/-- Read exactly `len` bytes.  The end of the range is computed in a machine word, so a length
that leaves the word fails with `overflow`; a range past the end fails with `truncated`. -/
def readExact (overflow truncated : ε) (len : ℕ) : Reader ε (List UInt8) := fun data c =>
  if wordSize ≤ c + len then .error overflow
  else if data.length < c + len then .error truncated
  else .ok ((data.drop c).take len, c + len)

/-- A byte string that a machine can address. -/
def Fits (data : List UInt8) : Prop := data.length < wordSize

instance (data : List UInt8) : Decidable (Fits data) := inferInstanceAs (Decidable (_ < _))

theorem Fits.take {data : List UInt8} (h : Fits data) (n : ℕ) : Fits (data.take n) := by
  have hle : (data.take n).length ≤ data.length := by simp
  exact lt_of_le_of_lt hle h

theorem Fits.drop {data : List UInt8} (h : Fits data) (n : ℕ) : Fits (data.drop n) := by
  have hle : (data.drop n).length ≤ data.length := by simp
  exact lt_of_le_of_lt hle h

/-- What stands in a byte string that a machine can address fits as well. -/
theorem Fits.of_at {data bs : List UInt8} {c : ℕ} (h : Fits data) (hat : At data c bs) :
    Fits bs := by
  have hle := hat.le
  exact lt_of_le_of_lt (show bs.length ≤ data.length by omega) h

theorem Fits.of_append {as bs : List UInt8} (h : Fits (as ++ bs)) : Fits as := by
  have hlen := h
  rw [Fits, List.length_append] at hlen
  exact lt_of_le_of_lt (Nat.le_add_right ..) hlen

/-- A successful read returns the bytes at the cursor. -/
theorem readExact_at {overflow truncated : ε} {len : ℕ} {data bs : List UInt8} {c c' : ℕ}
    (h : readExact overflow truncated len data c = .ok (bs, c')) :
    At data c bs ∧ bs.length = len ∧ c' = c + len := by
  unfold readExact at h
  split at h
  · cases h
  · split at h
    · cases h
    · rename_i hle
      cases h
      have hlen : ((data.drop c).take len).length = len := by
        rw [List.length_take, List.length_drop]
        omega
      exact ⟨at_take_drop (by omega), hlen, rfl⟩

/-- **A read is exact**: it succeeds precisely on the bytes that sit at the cursor. -/
theorem readExact_ok {overflow truncated : ε} {len : ℕ} {data bs : List UInt8} {c c' : ℕ}
    (hfit : Fits data) : readExact overflow truncated len data c = .ok (bs, c') ↔
      At data c bs ∧ bs.length = len ∧ c' = c + len := by
  refine ⟨readExact_at, ?_⟩
  rintro ⟨hat, rfl, rfl⟩
  have hle := hat.le
  have hlt : c + bs.length < wordSize := lt_of_le_of_lt hle hfit
  rw [readExact, if_neg (by omega), if_neg (by omega), hat.2]

/-! ### Readers go forward -/

/-- A reader never moves its cursor back. -/
def Reader.Forward (p : Reader ε α) : Prop :=
  ∀ (data : List UInt8) (c c' : ℕ) (a : α), p data c = .ok (a, c') → c ≤ c'

namespace Reader.Forward

theorem pure (a : α) : Forward (pure a : Reader ε α) := fun _ _ _ _ h => (Reader.pure_ok.1 h).2.le

theorem lift (x : Except ε α) : Forward (liftM x : Reader ε α) := fun _ _ _ _ h =>
  (Reader.lift_ok.1 h).2.le

theorem cursor : Forward (Reader.cursor : Reader ε ℕ) := fun _ _ _ _ h =>
  (Reader.cursor_ok.1 h).2.le

theorem remaining : Forward (Reader.remaining : Reader ε ℕ) := fun _ _ _ _ h =>
  (Reader.remaining_ok.1 h).2.le

theorem input : Forward (Reader.input : Reader ε (List UInt8)) := fun _ _ _ _ h =>
  (Reader.input_ok.1 h).2.le

theorem bind {p : Reader ε α} {f : α → Reader ε β} (hp : Forward p) (hf : ∀ a, Forward (f a)) :
    Forward (p >>= f) := by
  intro data c c'' b h
  obtain ⟨a, c', ha, hb⟩ := Reader.bind_ok.1 h
  exact le_trans (hp data c c' a ha) (hf a data c' c'' b hb)

theorem readExact (overflow truncated : ε) (len : ℕ) :
    Forward (Wire.readExact overflow truncated len) := by
  intro data c c' bs h
  have := (readExact_at h).2.2
  omega

end Reader.Forward

/-- Read one byte. -/
def readUInt8 (rd : ℕ → Reader ε (List UInt8)) : Reader ε UInt8 := do
  let bytes ← rd 1
  return bytes.getD 0 0

/-- Read a little-endian 16-bit word. -/
def readUInt16 (rd : ℕ → Reader ε (List UInt8)) : Reader ε UInt16 := do
  let bytes ← rd 2
  return u16OfLe bytes

/-- Read a little-endian 32-bit word. -/
def readUInt32 (rd : ℕ → Reader ε (List UInt8)) : Reader ε UInt32 := do
  let bytes ← rd 4
  return u32OfLe bytes

/-- Read a little-endian 64-bit word. -/
def readUInt64 (rd : ℕ → Reader ε (List UInt8)) : Reader ε UInt64 := do
  let bytes ← rd 8
  return u64OfLe bytes

theorem Reader.Forward.readUInt32 {rd : ℕ → Reader ε (List UInt8)} (h : ∀ len, Forward (rd len)) :
    Forward (Wire.readUInt32 rd) := (h 4).bind fun _ => .pure _

theorem Reader.Forward.readUInt64 {rd : ℕ → Reader ε (List UInt8)} (h : ∀ len, Forward (rd len)) :
    Forward (Wire.readUInt64 rd) := (h 8).bind fun _ => .pure _

section Words

variable {overflow truncated : ε} {data : List UInt8} {c c' : ℕ}

theorem readUInt8_ok {v : UInt8} (hfit : Fits data) :
    readUInt8 (readExact overflow truncated) data c = .ok (v, c') ↔
      At data c [v] ∧ c' = c + 1 := by
  simp only [readUInt8, Reader.bind_ok, readExact_ok hfit, Reader.pure_ok]
  constructor
  · rintro ⟨bs, _, ⟨hat, hlen, rfl⟩, hv, rfl⟩
    obtain ⟨b, rfl⟩ := List.length_eq_one_iff.1 hlen
    obtain rfl : b = v := hv
    exact ⟨hat, rfl⟩
  · rintro ⟨hat, rfl⟩
    exact ⟨[v], _, ⟨hat, rfl, rfl⟩, rfl, rfl⟩

theorem readUInt16_ok {v : UInt16} (hfit : Fits data) :
    readUInt16 (readExact overflow truncated) data c = .ok (v, c') ↔
      At data c (le16 v) ∧ c' = c + 2 := by
  simp only [readUInt16, Reader.bind_ok, readExact_ok hfit, Reader.pure_ok]
  constructor
  · rintro ⟨bs, _, ⟨hat, hlen, rfl⟩, hv, rfl⟩
    exact ⟨(u16OfLe_eq_iff hlen v).1 hv ▸ hat, rfl⟩
  · rintro ⟨hat, rfl⟩
    exact ⟨le16 v, _, ⟨hat, length_le16 v, rfl⟩, u16OfLe_le16 v, rfl⟩

theorem readUInt32_ok {v : UInt32} (hfit : Fits data) :
    readUInt32 (readExact overflow truncated) data c = .ok (v, c') ↔
      At data c (le32 v) ∧ c' = c + 4 := by
  simp only [readUInt32, Reader.bind_ok, readExact_ok hfit, Reader.pure_ok]
  constructor
  · rintro ⟨bs, _, ⟨hat, hlen, rfl⟩, hv, rfl⟩
    exact ⟨(u32OfLe_eq_iff hlen v).1 hv ▸ hat, rfl⟩
  · rintro ⟨hat, rfl⟩
    exact ⟨le32 v, _, ⟨hat, length_le32 v, rfl⟩, u32OfLe_le32 v, rfl⟩

theorem readUInt64_ok {v : UInt64} (hfit : Fits data) :
    readUInt64 (readExact overflow truncated) data c = .ok (v, c') ↔
      At data c (le64 v) ∧ c' = c + 8 := by
  simp only [readUInt64, Reader.bind_ok, readExact_ok hfit, Reader.pure_ok]
  constructor
  · rintro ⟨bs, _, ⟨hat, hlen, rfl⟩, hv, rfl⟩
    exact ⟨(u64OfLe_eq_iff hlen v).1 hv ▸ hat, rfl⟩
  · rintro ⟨hat, rfl⟩
    exact ⟨le64 v, _, ⟨hat, length_le64 v, rfl⟩, u64OfLe_le64 v, rfl⟩

end Words

end Wire
