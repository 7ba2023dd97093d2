/-
**Buffers that cross the C interface.**

A call that encodes or decodes bytes hands a vector over to its caller: a pointer, a length and a
capacity.  The caller gives them back to be freed.  Nothing but this protocol keeps the memory of
the process sound, since a wrong pointer is undefined behaviour: reading memory that is not there,
freeing a block twice, or freeing it with another capacity.

The calls of this module are those of the source, over a memory in which such an access has no
result.  The allocator may place a vector wherever there is room.  The results are about every
sequence of calls that keeps to the documented contract, which asks only that an input can be read.

Main definitions:

* `CompactCore.Ffi.Memory` — blocks of memory, and what may be done with them;
* `CompactCore.Ffi.CompactBuffer`, `CompactCore.Ffi.withInputSlice`,
  `CompactCore.Ffi.compactBufferFree` — the interface;
* `CompactCore.Ffi.State`, `CompactCore.Ffi.Steps` — the buffers of a caller, and its calls.

Main results:

* `CompactCore.Ffi.State.Owned` — the invariant: every block belongs to one buffer;
* `CompactCore.Ffi.steps_sound` — **no sequence of calls goes wrong or loses memory**;
* `CompactCore.Ffi.encode_decode_bytes` — **encoded bytes decode to the input**, whatever calls are
  made in between.
-/

import CompactCore.Framing
import CompactCore.Reference
import Mathlib.Logic.Function.Basic
import Mathlib.Logic.Relation

set_option relaxedAutoImplicit false
set_option autoImplicit false

namespace CompactCore.Ffi

open Wire CompactError

/-! ### Memory -/

/-- A block of the heap: the bytes of a vector, and how many it has room for. -/
structure Block where
  bytes : List UInt8
  capacity : ℕ

/-- The memory of the caller, and the heap of the library.  Address `0` is the null pointer. -/
structure Memory where
  caller : ℕ → Option (List UInt8)
  heap : ℕ → Option Block

/-- Where the allocator puts a vector. -/
structure Placement where
  ptr : ℕ
  capacity : ℕ

namespace Memory

/-- `slice::from_raw_parts`, which has no result where there are no such bytes. -/
def slice (m : Memory) (ptr len : ℕ) : Option (List UInt8) :=
  match m.caller ptr, m.heap ptr with
  | some bytes, _ => if len ≤ bytes.length then some (bytes.take len) else none
  | none, some block => if len ≤ block.bytes.length then some (block.bytes.take len) else none
  | none, none => none

/-- A vector of these bytes; one without capacity has no block. -/
def store (m : Memory) (place : Placement) (bytes : List UInt8) : Memory :=
  if place.capacity = 0 then m
  else { m with heap := Function.update m.heap place.ptr (some ⟨bytes, place.capacity⟩) }

/-- `Vec::from_raw_parts` and `drop`, which have no result unless these are the parts of a
vector. -/
def release (m : Memory) (ptr len capacity : ℕ) : Option Memory :=
  match m.heap ptr with
  | some block =>
      if len = block.bytes.length ∧ capacity = block.capacity then
        some { m with heap := Function.update m.heap ptr none }
      else none
  | none => none

end Memory

/-- The dangling pointer of a vector without capacity. -/
def dangling : ℕ := 1

/-- What the allocator promises of a vector. -/
structure Placement.Valid (place : Placement) (m : Memory) (bytes : List UInt8) : Prop where
  room : bytes.length ≤ place.capacity
  dangling : place.capacity = 0 → place.ptr = Ffi.dangling
  nonnull : place.ptr ≠ 0
  free : place.capacity ≠ 0 → m.heap place.ptr = none ∧ m.caller place.ptr = none

/-! ### The interface -/

inductive Status
  | ok | nullPtr | unimplemented | io | invalidInput | panic
  deriving DecidableEq, Repr

/-- A buffer that the library hands over. -/
structure CompactBuffer where
  ptr : ℕ
  len : ℕ
  capacity : ℕ
  deriving DecidableEq, Repr

/-- `CompactBuffer::default`. -/
def CompactBuffer.empty : CompactBuffer := ⟨0, 0, 0⟩

def writeOutputBuffer (m : Memory) (place : Placement) (data : List UInt8) :
    Memory × CompactBuffer :=
  (m.store place data, ⟨place.ptr, data.length, place.capacity⟩)

/-- The bytes that a call reads; without any it does not look at the pointer. -/
def Memory.input (m : Memory) (inputPtr inputLen : ℕ) : Option (List UInt8) :=
  if inputLen = 0 then some [] else m.slice inputPtr inputLen

/-- A call with an input and an output buffer; no result is undefined behaviour.  `alloc` says where
the vector of the result has been put. -/
def withInputSlice (m : Memory) (alloc : List UInt8 → Placement) (inputPtr inputLen : ℕ)
    (output : Option CompactBuffer) (operation : List UInt8 → Result (List UInt8)) :
    Option (Memory × Option CompactBuffer × Status) :=
  match output with
  | none => some (m, none, .nullPtr)
  | some buffer =>
      if inputPtr = 0 ∧ inputLen ≠ 0 then some (m, output, .nullPtr)
      else
        match m.input inputPtr inputLen with
        | none => none
        | some input =>
            if buffer.ptr ≠ 0 ∨ buffer.len ≠ 0 ∨ buffer.capacity ≠ 0 then
              some (m, output, .invalidInput)
            else
              match operation input with
              | .error _ => some (m, output, .invalidInput)
              | .ok encoded =>
                  let (m', written) := writeOutputBuffer m (alloc encoded) encoded
                  some (m', some written, .ok)

def rawRleConfig : EncodeConfig := ⟨.rawBytes, .none, .rle⟩

def compactBufferFree (m : Memory) : Option CompactBuffer → Option (Memory × Option CompactBuffer)
  | none => some (m, none)
  | some buffer =>
      if buffer.ptr ≠ 0 ∧ buffer.capacity ≠ 0 then
        match m.release buffer.ptr buffer.len buffer.capacity with
        | none => none
        | some m' => some (m', some .empty)
      else some (m, some .empty)

section

variable [Crc32Fast]

def compactEncodeBytesRle (m : Memory) (alloc : List UInt8 → Placement) (inputPtr inputLen : ℕ)
    (output : Option CompactBuffer) : Option (Memory × Option CompactBuffer × Status) :=
  withInputSlice m alloc inputPtr inputLen output (encodeBytesFrame rawRleConfig)

def compactDecodeBytesRle (m : Memory) (alloc : List UInt8 → Placement) (inputPtr inputLen : ℕ)
    (output : Option CompactBuffer) : Option (Memory × Option CompactBuffer × Status) :=
  withInputSlice m alloc inputPtr inputLen output (decodeBytesFrame rawRleConfig)

/-! ### A caller -/

/-- The memory, and the buffers that a caller has declared. -/
structure State (Name : Type) where
  memory : Memory
  buffers : Name → CompactBuffer

inductive Call (Name : Type)
  | encode (inputPtr inputLen : ℕ) (output : Option Name)
  | decode (inputPtr inputLen : ℕ) (output : Option Name)
  | free (buffer : Option Name)

variable {Name : Type} [DecidableEq Name]

def Call.target : Call Name → Option Name
  | .encode _ _ output | .decode _ _ output => output
  | .free buffer => buffer

/-- What the contract asks of a caller: there are as many bytes as it says. -/
def Call.Allowed (s : State Name) : Call Name → Prop
  | .encode inputPtr inputLen _ | .decode inputPtr inputLen _ =>
      inputPtr = 0 ∨ s.memory.input inputPtr inputLen ≠ none
  | .free _ => True

/-- The buffer of a call is what the call has left there. -/
def State.put (s : State Name) (m : Memory) (target : Option Name) (buffer : Option CompactBuffer) :
    State Name :=
  match target, buffer with
  | some name, some buffer => ⟨m, Function.update s.buffers name buffer⟩
  | _, _ => ⟨m, s.buffers⟩

/-- A call, with the status that it returns. -/
def Call.run (alloc : List UInt8 → Placement) (s : State Name) :
    Call Name → Option (State Name × Option Status)
  | .encode inputPtr inputLen output =>
      (compactEncodeBytesRle s.memory alloc inputPtr inputLen (output.map s.buffers)).map
        fun result => (s.put result.1 output result.2.1, some result.2.2)
  | .decode inputPtr inputLen output =>
      (compactDecodeBytesRle s.memory alloc inputPtr inputLen (output.map s.buffers)).map
        fun result => (s.put result.1 output result.2.1, some result.2.2)
  | .free buffer =>
      (compactBufferFree s.memory (buffer.map s.buffers)).map
        fun result => (s.put result.1 buffer result.2, none)

/-- An allocator that keeps its promise in this memory. -/
def AllocValid (m : Memory) (alloc : List UInt8 → Placement) : Prop :=
  ∀ bytes, (alloc bytes).Valid m bytes

/-- A call that keeps to the contract, and has a result. -/
def Step (s s' : State Name) (call : Call Name) (status : Option Status) : Prop :=
  ∃ alloc, call.Allowed s ∧ AllocValid s.memory alloc ∧ call.run alloc s = some (s', status)

/-- The caller changes its own memory, or has memory of the system that the library does not use. -/
structure State.Writes (s s' : State Name) : Prop where
  buffers : s'.buffers = s.buffers
  heap : s'.memory.heap = s.memory.heap
  own : ∀ ptr, s.memory.heap ptr ≠ none → s'.memory.caller ptr = none

/-- Calls of some kinds and writes of the caller, one after another. -/
def Steps (Made : Call Name → Prop) : State Name → State Name → Prop :=
  Relation.ReflTransGen fun s s' =>
    (∃ call status, Made call ∧ Step s s' call status) ∨ s.Writes s'

/-- A caller before its first call: no buffer has been filled. -/
structure State.Initial (s : State Name) : Prop where
  heap : ∀ ptr, s.memory.heap ptr = none
  buffers : ∀ name, s.buffers name = .empty

/-- The bytes in a buffer. -/
def State.bytes (s : State Name) (name : Name) : List UInt8 :=
  if (s.buffers name).capacity = 0 then []
  else ((s.memory.heap (s.buffers name).ptr).map Block.bytes).getD []

/-- A buffer has a block, with as many bytes and as much room as it says. -/
structure State.Backed (s : State Name) (buffer : CompactBuffer) (block : Block) : Prop where
  nonnull : buffer.ptr ≠ 0
  heap : s.memory.heap buffer.ptr = some block
  len : buffer.len = block.bytes.length
  capacity : buffer.capacity = block.capacity
  own : s.memory.caller buffer.ptr = none

/-- **The invariant**: every buffer with capacity has a block of its own, and every block has a
buffer. -/
structure State.Owned (s : State Name) : Prop where
  backed : ∀ name, (s.buffers name).capacity ≠ 0 → ∃ block, s.Backed (s.buffers name) block
  alone : ∀ name name', (s.buffers name).capacity ≠ 0 → (s.buffers name').capacity ≠ 0 →
    (s.buffers name).ptr = (s.buffers name').ptr → name = name'
  kept : ∀ ptr, s.memory.heap ptr ≠ none → ∃ name, (s.buffers name).ptr = ptr ∧
    (s.buffers name).capacity ≠ 0
  vacant : ∀ name, (s.buffers name).capacity = 0 → (s.buffers name).len = 0

/-! ### What a call does -/

end

section

variable {Name : Type} {s : State Name} {m : Memory} {name : Name} {ptr : ℕ} {data : List UInt8}
  {place : Placement} {block : Block}

theorem Memory.store_heap_ne (h : ptr ≠ place.ptr) :
    (m.store place data).heap ptr = m.heap ptr := by
  rw [Memory.store]
  split
  · rfl
  · exact Function.update_of_ne h ..

theorem Memory.store_heap_self (h : place.capacity ≠ 0) :
    (m.store place data).heap place.ptr = some ⟨data, place.capacity⟩ := by
  rw [Memory.store, if_neg h]
  exact Function.update_self ..

theorem Memory.store_caller : (m.store place data).caller = m.caller := by
  rw [Memory.store]
  split <;> rfl

/-- A call reads as many bytes as it says. -/
theorem Memory.input_length {m : Memory} {inputPtr inputLen : ℕ} {input : List UInt8}
    (h : m.input inputPtr inputLen = some input) : input.length = inputLen := by
  have htake : ∀ bytes : List UInt8,
      (if inputLen ≤ bytes.length then some (bytes.take inputLen) else none) = some input →
      input.length = inputLen := by
    intro bytes h
    rw [Option.ite_none_right_eq_some] at h
    obtain ⟨hle, h⟩ := h
    cases h
    exact List.length_take_of_le hle
  rw [Memory.input] at h
  split at h
  next hzero =>
    cases h
    exact hzero.symm
  next =>
    rw [Memory.slice] at h
    split at h
    · exact htake _ h
    · exact htake _ h
    · cases h

variable [DecidableEq Name]

omit [DecidableEq Name] in
/-- The allocator never gives out a block that a buffer has. -/
theorem State.Owned.ne_place (h : s.Owned) (hplace : place.Valid s.memory data)
    (hcap : place.capacity ≠ 0) (hname : (s.buffers name).capacity ≠ 0) :
    (s.buffers name).ptr ≠ place.ptr := by
  intro heq
  obtain ⟨block, hblock⟩ := h.backed name hname
  have hheap := hblock.heap
  rw [heq, (hplace.free hcap).1] at hheap
  cases hheap

omit [DecidableEq Name] in
/-- Blocks at other addresses back what they backed. -/
theorem State.Backed.of_heap {s s' : State Name} {buffer : CompactBuffer}
    (h : s.Backed buffer block) (hheap : s'.memory.heap buffer.ptr = s.memory.heap buffer.ptr)
    (hcaller : s'.memory.caller = s.memory.caller) : s'.Backed buffer block where
  nonnull := h.nonnull
  heap := hheap.trans h.heap
  len := h.len
  capacity := h.capacity
  own := by rw [hcaller, h.own]

/-- A buffer that is written to gets a new block. -/
theorem State.Owned.write (h : s.Owned) (hempty : s.buffers name = .empty)
    (hplace : place.Valid s.memory data) :
    State.Owned ⟨s.memory.store place data,
      Function.update s.buffers name ⟨place.ptr, data.length, place.capacity⟩⟩ := by
  have hkeep : ∀ other, (s.buffers other).capacity ≠ 0 →
      (s.memory.store place data).heap (s.buffers other).ptr
        = s.memory.heap (s.buffers other).ptr := by
    intro other hother
    by_cases hcap : place.capacity = 0
    · rw [Memory.store, if_pos hcap]
    · exact Memory.store_heap_ne (h.ne_place hplace hcap hother)
  have hname : ∀ other, (s.buffers other).capacity ≠ 0 → other ≠ name := by
    rintro other hother rfl
    exact hother (by rw [hempty]; rfl)
  refine ⟨?_, ?_, ?_, ?_⟩
  · intro other hother
    by_cases heq : other = name
    · subst heq
      simp only [Function.update_self] at hother ⊢
      exact ⟨⟨data, place.capacity⟩, hplace.nonnull, Memory.store_heap_self hother, rfl, rfl,
        by rw [Memory.store_caller]; exact (hplace.free hother).2⟩
    · simp only [Function.update_of_ne heq] at hother ⊢
      obtain ⟨block, hblock⟩ := h.backed other hother
      exact ⟨block, hblock.of_heap (hkeep other hother) Memory.store_caller⟩
  · intro one two hone htwo hptr
    by_cases h₁ : one = name <;> by_cases h₂ : two = name
    · rw [h₁, h₂]
    · subst h₁
      simp only [Function.update_self, Function.update_of_ne h₂] at hone htwo hptr
      exact absurd hptr.symm (h.ne_place hplace hone htwo)
    · subst h₂
      simp only [Function.update_self, Function.update_of_ne h₁] at hone htwo hptr
      exact absurd hptr (h.ne_place hplace htwo hone)
    · simp only [Function.update_of_ne h₁, Function.update_of_ne h₂] at hone htwo hptr
      exact h.alone one two hone htwo hptr
  · intro ptr hptr
    by_cases hnew : ptr = place.ptr ∧ place.capacity ≠ 0
    · exact ⟨name, by simp [hnew]⟩
    · have hold : s.memory.heap ptr ≠ none := by
        by_cases hcap : place.capacity = 0
        · rwa [Memory.store, if_pos hcap] at hptr
        · rwa [Memory.store_heap_ne fun heq => hnew ⟨heq, hcap⟩] at hptr
      obtain ⟨other, hother, hcap⟩ := h.kept ptr hold
      exact ⟨other, by simpa [Function.update_of_ne (hname other hcap)] using ⟨hother, hcap⟩⟩
  · intro other hother
    by_cases heq : other = name
    · subst heq
      simp only [Function.update_self] at hother ⊢
      have hroom := hplace.room
      omega
    · simp only [Function.update_of_ne heq] at hother ⊢
      exact h.vacant other hother

omit [DecidableEq Name] in
/-- The parts of a buffer are those of its block. -/
theorem State.Owned.release (h : s.Owned) (hcap : (s.buffers name).capacity ≠ 0) :
    s.memory.release (s.buffers name).ptr (s.buffers name).len (s.buffers name).capacity
      = some { s.memory with heap := Function.update s.memory.heap (s.buffers name).ptr none } := by
  obtain ⟨block, hblock⟩ := h.backed name hcap
  rw [Memory.release, hblock.heap]
  exact if_pos ⟨hblock.len, hblock.capacity⟩

/-- A buffer that is freed takes its block along. -/
theorem State.Owned.free (h : s.Owned) (hcap : (s.buffers name).capacity ≠ 0) :
    State.Owned ⟨{ s.memory with heap := Function.update s.memory.heap (s.buffers name).ptr none },
      Function.update s.buffers name .empty⟩ := by
  have hne : ∀ other,
      (Function.update s.buffers name .empty other).capacity ≠ 0 → other ≠ name := by
    rintro other hother rfl
    simp [CompactBuffer.empty] at hother
  refine ⟨?_, ?_, ?_, ?_⟩
  · intro other hother
    have heq := hne other hother
    simp only [Function.update_of_ne heq] at hother ⊢
    obtain ⟨block, hblock⟩ := h.backed other hother
    refine ⟨block, hblock.of_heap (Function.update_of_ne (fun hptr => heq ?_) ..) rfl⟩
    exact h.alone other name hother hcap hptr
  · intro one two hone htwo hptr
    have h₁ := hne one hone
    have h₂ := hne two htwo
    simp only [Function.update_of_ne h₁, Function.update_of_ne h₂] at hone htwo hptr
    exact h.alone one two hone htwo hptr
  · intro ptr hptr
    by_cases heq : ptr = (s.buffers name).ptr
    · subst heq
      simp at hptr
    · simp only [Function.update_of_ne heq] at hptr
      obtain ⟨other, hother, hother'⟩ := h.kept ptr hptr
      have hdiff : other ≠ name := by
        rintro rfl
        exact heq hother.symm
      exact ⟨other, by simpa [Function.update_of_ne hdiff] using ⟨hother, hother'⟩⟩
  · intro other hother
    by_cases heq : other = name
    · subst heq
      simp [CompactBuffer.empty]
    · simp only [Function.update_of_ne heq] at hother ⊢
      exact h.vacant other hother

/-- A buffer without a block is only cleared. -/
theorem State.Owned.clear (h : s.Owned) (hcap : (s.buffers name).capacity = 0) :
    State.Owned ⟨s.memory, Function.update s.buffers name .empty⟩ := by
  have hne : ∀ other, (s.buffers other).capacity ≠ 0 → other ≠ name := by
    rintro other hother rfl
    exact hother hcap
  have hsame : ∀ other, (Function.update s.buffers name .empty other).capacity ≠ 0 →
      Function.update s.buffers name .empty other = s.buffers other := by
    intro other hother
    by_cases heq : other = name
    · subst heq
      simp [CompactBuffer.empty] at hother
    · exact Function.update_of_ne heq ..
  refine ⟨?_, ?_, ?_, ?_⟩
  · intro other hother
    simp only [hsame other hother] at hother ⊢
    obtain ⟨block, hblock⟩ := h.backed other hother
    exact ⟨block, hblock.of_heap rfl rfl⟩
  · intro one two hone htwo hptr
    simp only [hsame one hone, hsame two htwo] at hone htwo hptr
    exact h.alone one two hone htwo hptr
  · intro ptr hptr
    obtain ⟨other, hother, hcap'⟩ := h.kept ptr hptr
    exact ⟨other, by simpa [Function.update_of_ne (hne other hcap')] using ⟨hother, hcap'⟩⟩
  · intro other hother
    by_cases heq : other = name
    · subst heq
      simp [CompactBuffer.empty]
    · simp only [Function.update_of_ne heq] at hother ⊢
      exact h.vacant other hother

omit [DecidableEq Name] in
/-- The caller cannot reach a block through memory of its own. -/
theorem State.Owned.writes {s' : State Name} (h : s.Owned) (hwrites : s.Writes s') : s'.Owned := by
  refine ⟨?_, ?_, ?_, ?_⟩
  · intro name hcap
    rw [hwrites.buffers] at hcap ⊢
    obtain ⟨block, hblock⟩ := h.backed name hcap
    have hheap : s'.memory.heap (s.buffers name).ptr = some block := by
      rw [hwrites.heap, hblock.heap]
    exact ⟨block, hblock.nonnull, hheap, hblock.len, hblock.capacity,
      hwrites.own _ (by rw [hblock.heap]; exact Option.some_ne_none _)⟩
  · rw [hwrites.buffers]
    exact h.alone
  · rw [hwrites.buffers, hwrites.heap]
    exact h.kept
  · rw [hwrites.buffers]
    exact h.vacant

omit [DecidableEq Name] in
/-- Before the first call nothing is owned. -/
theorem State.Initial.owned (h : s.Initial) : s.Owned := by
  have hcap : ∀ name, ¬ (s.buffers name).capacity ≠ 0 := by
    intro name hne
    rw [h.buffers name] at hne
    exact hne rfl
  refine ⟨?_, ?_, ?_, ?_⟩
  · intro name hne
    exact absurd hne (hcap name)
  · intro one two hone
    exact absurd hone (hcap one)
  · intro ptr hptr
    exact absurd (h.heap ptr) hptr
  · intro name _
    rw [h.buffers name]
    rfl

end

/-! ### The bytes in a buffer -/

section

variable {Name : Type} [DecidableEq Name] {s s' : State Name} {name other : Name}
  {data : List UInt8}
  {place : Placement}

omit [DecidableEq Name] in
/-- The bytes of a buffer are at its address, as many as it says. -/
theorem State.Owned.slice (h : s.Owned) (hcap : (s.buffers name).capacity ≠ 0) :
    s.memory.slice (s.buffers name).ptr (s.buffers name).len = some (s.bytes name) := by
  obtain ⟨block, hblock⟩ := h.backed name hcap
  rw [Memory.slice, hblock.own, hblock.heap, State.bytes, if_neg hcap, hblock.heap]
  rw [hblock.len]
  simp

theorem State.bytes_written (hplace : place.Valid s.memory data) :
    State.bytes ⟨s.memory.store place data,
      Function.update s.buffers name ⟨place.ptr, data.length, place.capacity⟩⟩ name = data := by
  rw [State.bytes]
  simp only [Function.update_self]
  split
  next hcap =>
    have hroom := hplace.room
    rw [hcap, Nat.le_zero, List.length_eq_zero_iff] at hroom
    exact hroom.symm
  next hcap =>
    rw [Memory.store_heap_self hcap]
    rfl

omit [DecidableEq Name] in
/-- A buffer and its block that are as they were hold what they held. -/
theorem State.bytes_eq (hbuffer : s'.buffers name = s.buffers name)
    (hheap : (s.buffers name).capacity ≠ 0 →
      s'.memory.heap (s.buffers name).ptr = s.memory.heap (s.buffers name).ptr) :
    s'.bytes name = s.bytes name := by
  rw [State.bytes, State.bytes, hbuffer]
  split
  · rfl
  next hcap => rw [hheap hcap]

/-- What a call has left of the state it was made in. -/
structure State.Keeps (s s' : State Name) (target : Option Name) : Prop where
  owned : s'.Owned
  caller : s'.memory.caller = s.memory.caller
  buffers : ∀ other, target ≠ some other → s'.buffers other = s.buffers other
  bytes : ∀ other, target ≠ some other → s'.bytes other = s.bytes other

omit [DecidableEq Name] in
theorem State.Owned.keeps_self (h : s.Owned) (target : Option Name) : s.Keeps s target where
  owned := h
  caller := rfl
  buffers := fun _ _ => rfl
  bytes := fun _ _ => rfl

theorem State.Owned.keeps_write (h : s.Owned) (hempty : s.buffers name = .empty)
    (hplace : place.Valid s.memory data) :
    s.Keeps ⟨s.memory.store place data,
      Function.update s.buffers name ⟨place.ptr, data.length, place.capacity⟩⟩ (some name) := by
  have hother : ∀ other, some name ≠ some other →
      Function.update s.buffers name ⟨place.ptr, data.length, place.capacity⟩ other
        = s.buffers other := by
    intro other hne
    exact Function.update_of_ne (fun heq => hne (by rw [heq])) ..
  refine ⟨h.write hempty hplace, Memory.store_caller, hother, ?_⟩
  intro other hne
  refine State.bytes_eq (hother other hne) ?_
  intro hcap
  by_cases hplaced : place.capacity = 0
  · simp only [Memory.store, if_pos hplaced]
  · exact Memory.store_heap_ne (h.ne_place hplace hplaced hcap)

theorem State.Owned.keeps_free (h : s.Owned) (hcap : (s.buffers name).capacity ≠ 0) :
    s.Keeps ⟨{ s.memory with heap := Function.update s.memory.heap (s.buffers name).ptr none },
      Function.update s.buffers name .empty⟩ (some name) := by
  have hother : ∀ other, some name ≠ some other →
      Function.update s.buffers name .empty other = s.buffers other := by
    intro other hne
    exact Function.update_of_ne (fun heq => hne (by rw [heq])) ..
  refine ⟨h.free hcap, rfl, hother, ?_⟩
  intro other hne
  refine State.bytes_eq (hother other hne) ?_
  intro hcap'
  refine Function.update_of_ne ?_ ..
  intro hptr
  exact hne (by rw [h.alone other name hcap' hcap hptr])

theorem State.Owned.keeps_clear (h : s.Owned) (hcap : (s.buffers name).capacity = 0) :
    s.Keeps ⟨s.memory, Function.update s.buffers name .empty⟩ (some name) := by
  have hother : ∀ other, some name ≠ some other →
      Function.update s.buffers name .empty other = s.buffers other := by
    intro other hne
    exact Function.update_of_ne (fun heq => hne (by rw [heq])) ..
  exact ⟨h.clear hcap, rfl, hother, fun other hne => State.bytes_eq (hother other hne) fun _ => rfl⟩

/-! ### What a call does -/

/-- A call that can read its input and write its output. -/
theorem withInputSlice_read {m : Memory} {alloc : List UInt8 → Placement} {inputPtr inputLen : ℕ}
    {input : List UInt8} {buffer : CompactBuffer} {operation : List UInt8 → Result (List UInt8)}
    (hnull : ¬(inputPtr = 0 ∧ inputLen ≠ 0)) (hinput : m.input inputPtr inputLen = some input) :
    withInputSlice m alloc inputPtr inputLen (some buffer) operation
      = if buffer.ptr ≠ 0 ∨ buffer.len ≠ 0 ∨ buffer.capacity ≠ 0 then
          some (m, some buffer, .invalidInput)
        else match operation input with
          | .error _ => some (m, some buffer, .invalidInput)
          | .ok encoded => some (m.store (alloc encoded) encoded,
              some ⟨(alloc encoded).ptr, encoded.length, (alloc encoded).capacity⟩, .ok) := by
  rw [withInputSlice]
  simp only [if_neg hnull, hinput]
  rfl

/-- A call that fills an empty buffer. -/
theorem withInputSlice_filled {alloc : List UInt8 → Placement} {inputPtr inputLen : ℕ}
    {input : List UInt8} {operation : List UInt8 → Result (List UInt8)}
    (hnull : ¬(inputPtr = 0 ∧ inputLen ≠ 0))
    (hinput : s.memory.input inputPtr inputLen = some input)
    (hempty : s.buffers name = .empty) (hoperation : operation input = .ok data) :
    (withInputSlice s.memory alloc inputPtr inputLen (some (s.buffers name)) operation).map
        (fun result => (s.put result.1 (some name) result.2.1, some result.2.2))
      = some (⟨s.memory.store (alloc data) data, Function.update s.buffers name
          ⟨(alloc data).ptr, data.length, (alloc data).capacity⟩⟩, some .ok) := by
  rw [withInputSlice_read hnull hinput, hoperation, hempty, if_neg (by simp [CompactBuffer.empty])]
  rfl

/-- A call that frees the block of a buffer. -/
theorem compactBufferFree_released {m : Memory} (hnonnull : (s.buffers name).ptr ≠ 0)
    (hcap : (s.buffers name).capacity ≠ 0) (hrelease : s.memory.release (s.buffers name).ptr
      (s.buffers name).len (s.buffers name).capacity = some m) :
    (compactBufferFree s.memory (some (s.buffers name))).map
        (fun result => (s.put result.1 (some name) result.2, (none : Option Status)))
      = some (⟨m, Function.update s.buffers name .empty⟩, none) := by
  rw [compactBufferFree, if_pos ⟨hnonnull, hcap⟩, hrelease]
  rfl

omit [DecidableEq Name] in
/-- What a call with an input does: it is refused and changes nothing, or fills an empty buffer. -/
theorem withInputSlice_eq {alloc : List UInt8 → Placement} {inputPtr inputLen : ℕ}
    (hinput : inputPtr = 0 ∨ s.memory.input inputPtr inputLen ≠ none) (output : Option Name)
    (operation : List UInt8 → Result (List UInt8)) :
    (∃ status, status ≠ .ok ∧
      withInputSlice s.memory alloc inputPtr inputLen (output.map s.buffers) operation
        = some (s.memory, output.map s.buffers, status)) ∨
    ∃ name input data, output = some name ∧ s.buffers name = .empty ∧
      s.memory.input inputPtr inputLen = some input ∧ operation input = .ok data ∧
      withInputSlice s.memory alloc inputPtr inputLen (output.map s.buffers) operation
        = some (s.memory.store (alloc data) data,
            some ⟨(alloc data).ptr, data.length, (alloc data).capacity⟩, .ok) := by
  cases output with
  | none => exact .inl ⟨.nullPtr, by simp, rfl⟩
  | some name =>
      by_cases hnull : inputPtr = 0 ∧ inputLen ≠ 0
      · exact .inl ⟨.nullPtr, by simp, by rw [Option.map_some, withInputSlice]; exact if_pos hnull⟩
      have hsome : ∃ input, s.memory.input inputPtr inputLen = some input := by
        rcases hinput with rfl | hinput
        · have hzero : inputLen = 0 := by simpa using hnull
          exact ⟨[], by rw [Memory.input, if_pos hzero]⟩
        · exact Option.ne_none_iff_exists'.mp hinput
      obtain ⟨input, hinput⟩ := hsome
      rw [Option.map_some, withInputSlice_read hnull hinput]
      by_cases hfull : (s.buffers name).ptr ≠ 0 ∨ (s.buffers name).len ≠ 0 ∨
          (s.buffers name).capacity ≠ 0
      · exact .inl ⟨.invalidInput, by simp, if_pos hfull⟩
      rw [if_neg hfull]
      have hempty : s.buffers name = .empty := by
        rcases hbuffer : s.buffers name with ⟨ptr, len, capacity⟩
        simp only [hbuffer, ne_eq, not_or, not_not] at hfull
        rw [hfull.1, hfull.2.1, hfull.2.2, CompactBuffer.empty]
      cases hoperation : operation input with
      | error e => exact .inl ⟨.invalidInput, by simp, rfl⟩
      | ok data => exact .inr ⟨name, input, data, rfl, hempty, hinput, hoperation, rfl⟩

theorem State.put_self (output : Option Name) :
    s.put s.memory output (output.map s.buffers) = s := by
  cases output with
  | none => rfl
  | some name =>
      simp only [Option.map_some, State.put, Function.update_eq_self]

theorem withInputSlice_sound (h : s.Owned) {alloc : List UInt8 → Placement} {inputPtr inputLen : ℕ}
    (hinput : inputPtr = 0 ∨ s.memory.input inputPtr inputLen ≠ none)
    (halloc : AllocValid s.memory alloc) (output : Option Name)
    (operation : List UInt8 → Result (List UInt8)) :
    ∃ s' status,
      (withInputSlice s.memory alloc inputPtr inputLen (output.map s.buffers) operation).map
          (fun result => (s.put result.1 output result.2.1, some result.2.2)) =
            some (s', some status) ∧
        s.Keeps s' output ∧ (status ≠ .ok → s' = s) ∧
        (status = .ok → ∃ name input data, output = some name ∧ s.buffers name = .empty ∧
          s.memory.input inputPtr inputLen = some input ∧ operation input = .ok data ∧
          (s'.buffers name).len = data.length ∧ s'.bytes name = data) := by
  rcases withInputSlice_eq hinput output operation with
    ⟨status, hstatus, hcall⟩ | ⟨name, input, data, rfl, hempty, hread, hdata, hcall⟩
  · refine ⟨s, status, ?_, h.keeps_self output, fun _ => rfl, fun hok => absurd hok hstatus⟩
    rw [hcall, Option.map_some, State.put_self]
  · rw [hcall]
    refine ⟨_, .ok, rfl, h.keeps_write hempty (halloc data), fun hne => absurd rfl hne, fun _ => ?_⟩
    refine ⟨name, input, data, rfl, hempty, hread, hdata, ?_, State.bytes_written (halloc data)⟩
    simp only [State.put, Function.update_self]

theorem compactBufferFree_sound (h : s.Owned) (buffer : Option Name) :
    ∃ s', (compactBufferFree s.memory (buffer.map s.buffers)).map
          (fun result => (s.put result.1 buffer result.2, (none : Option Status))) =
            some (s', none) ∧
        s.Keeps s' buffer := by
  cases buffer with
  | none => exact ⟨s, rfl, h.keeps_self none⟩
  | some name =>
      rw [Option.map_some, compactBufferFree]
      by_cases hcap : (s.buffers name).capacity = 0
      · rw [if_neg fun hfull => hfull.2 hcap]
        exact ⟨_, rfl, h.keeps_clear hcap⟩
      · obtain ⟨block, hblock⟩ := h.backed name hcap
        rw [if_pos ⟨hblock.nonnull, hcap⟩, h.release hcap]
        exact ⟨_, rfl, h.keeps_free hcap⟩

variable [Crc32Fast]

/-- **What one call does**: it has a result, keeps the invariant, and touches no other buffer.  It
frees, or is refused and changes nothing, or fills a buffer that was empty. -/
theorem Call.run_sound (h : s.Owned) (call : Call Name) {alloc : List UInt8 → Placement}
    (hallowed : call.Allowed s) (halloc : AllocValid s.memory alloc) :
    ∃ s' status, call.run alloc s = some (s', status) ∧ s.Keeps s' call.target ∧
      (status = none ∧ call = .free call.target ∨
        (∃ code, status = some code ∧ code ≠ .ok) ∧ s' = s ∨
        status = some .ok ∧ ∃ name, call.target = some name ∧ s.buffers name = .empty) := by
  have hdata : ∀ (s' : State Name) (code : Status) (output : Option Name), (code ≠ .ok → s' = s) →
      (code = .ok → ∃ name, output = some name ∧ s.buffers name = .empty) →
      (∃ code', some code = some code' ∧ code' ≠ .ok) ∧ s' = s ∨
        some code = some .ok ∧ ∃ name, output = some name ∧ s.buffers name = .empty := by
    intro s' code output hrefused hfilled
    by_cases hcode : code = .ok
    · exact .inr ⟨by rw [hcode], hfilled hcode⟩
    · exact .inl ⟨⟨code, rfl, hcode⟩, hrefused hcode⟩
  cases call with
  | encode inputPtr inputLen output =>
      obtain ⟨s', code, hrun, hkeeps, hrefused, hfilled⟩ :=
        withInputSlice_sound h hallowed halloc output (encodeBytesFrame rawRleConfig)
      refine ⟨s', some code, hrun, hkeeps, .inr (hdata s' code output hrefused ?_)⟩
      intro hcode
      obtain ⟨name, _, _, houtput, hempty, -⟩ := hfilled hcode
      exact ⟨name, houtput, hempty⟩
  | decode inputPtr inputLen output =>
      obtain ⟨s', code, hrun, hkeeps, hrefused, hfilled⟩ :=
        withInputSlice_sound h hallowed halloc output (decodeBytesFrame rawRleConfig)
      refine ⟨s', some code, hrun, hkeeps, .inr (hdata s' code output hrefused ?_)⟩
      intro hcode
      obtain ⟨name, _, _, houtput, hempty, -⟩ := hfilled hcode
      exact ⟨name, houtput, hempty⟩
  | free buffer =>
      obtain ⟨s', hrun, hkeeps⟩ := compactBufferFree_sound h buffer
      exact ⟨s', none, hrun, hkeeps, .inl ⟨rfl, rfl⟩⟩

/-- Whatever a caller has done, every block has its buffer. -/
theorem Steps.owned {Made : Call Name → Prop} (hsteps : Steps Made s s') (h : s.Owned) :
    s'.Owned := by
  induction hsteps with
  | refl => exact h
  | tail _ hstep ih =>
      rcases hstep with ⟨call, status, -, alloc, hallowed, halloc, hrun⟩ | hwrites
      · obtain ⟨s'', status', hrun', hkeeps, -⟩ := call.run_sound ih hallowed halloc
        rw [hrun] at hrun'
        cases hrun'
        exact hkeeps.owned
      · exact ih.writes hwrites

/-- Only a call that frees it changes a buffer with something in it. -/
theorem Step.held {call : Call Name} {status : Option Status} (hstep : Step s s' call status)
    (h : s.Owned) (hcall : call ≠ .free (some name)) (hcap : (s.buffers name).capacity ≠ 0) :
    s'.buffers name = s.buffers name ∧ s'.bytes name = s.bytes name := by
  obtain ⟨alloc, hallowed, halloc, hrun⟩ := hstep
  obtain ⟨s'', status', hrun', hkeeps, hdone⟩ := call.run_sound h hallowed halloc
  rw [hrun] at hrun'
  cases hrun'
  by_cases htarget : call.target = some name
  · rcases hdone with ⟨-, hfree⟩ | ⟨-, rfl⟩ | ⟨-, name', hname', hempty⟩
    · rw [htarget] at hfree
      exact absurd hfree hcall
    · exact ⟨rfl, rfl⟩
    · rw [htarget] at hname'
      cases hname'
      exact absurd (by rw [hempty]; rfl) hcap
  · exact ⟨hkeeps.buffers name htarget, hkeeps.bytes name htarget⟩

/-- A buffer keeps what it holds until it is freed. -/
theorem Steps.held (hsteps : Steps (fun call => call ≠ .free (some name)) s s') (h : s.Owned)
    (hcap : (s.buffers name).capacity ≠ 0) :
    s'.buffers name = s.buffers name ∧ s'.bytes name = s.bytes name := by
  induction hsteps with
  | refl => exact ⟨rfl, rfl⟩
  | tail hsteps hstep ih =>
      rcases hstep with ⟨call, status, hmade, hstep⟩ | hwrites
      · obtain ⟨hbuffer, hbytes⟩ :=
          hstep.held (Steps.owned hsteps h) hmade (by rw [ih.1]; exact hcap)
        exact ⟨hbuffer.trans ih.1, hbytes.trans ih.2⟩
      · have hbytes := State.bytes_eq (congrFun hwrites.buffers name) fun _ =>
          congrFun hwrites.heap _
        exact ⟨(congrFun hwrites.buffers name).trans ih.1, hbytes.trans ih.2⟩

/-- **No sequence of calls goes wrong.**  After any calls from any start, a call that keeps to the
contract reads and frees only what is there; it leaves the other buffers and the memory of the
caller alone, and changes nothing at all when it reports an error.  Every block then belongs to one
buffer with room, so that freeing the buffers frees the memory. -/
theorem steps_sound {Made : Call Name → Prop} {s₀ : State Name} (hinitial : s₀.Initial)
    (hsteps : Steps Made s₀ s) (call : Call Name) {alloc : List UInt8 → Placement}
    (hallowed : call.Allowed s) (halloc : AllocValid s.memory alloc) :
    ∃ s' status, call.run alloc s = some (s', status) ∧ s.Keeps s' call.target ∧
      (∀ code, status = some code → code ≠ .ok → s' = s) ∧
      ∀ ptr, s'.memory.heap ptr ≠ none →
        ∃! name, (s'.buffers name).ptr = ptr ∧ (s'.buffers name).capacity ≠ 0 := by
  obtain ⟨s', status, hrun, hkeeps, hdone⟩ :=
    call.run_sound (hsteps.owned hinitial.owned) hallowed halloc
  refine ⟨s', status, hrun, hkeeps, ?_, ?_⟩
  · rintro code rfl hcode
    rcases hdone with ⟨⟨⟩, -⟩ | ⟨-, heq⟩ | ⟨hok, -⟩
    · exact heq
    · cases hok
      exact absurd rfl hcode
  · intro ptr hptr
    obtain ⟨name, hname, hcap⟩ := hkeeps.owned.kept ptr hptr
    refine ⟨name, ⟨hname, hcap⟩, ?_⟩
    rintro other ⟨hother, hcap'⟩
    exact hkeeps.owned.alone other name hcap' hcap (hother.trans hname.symm)

theorem rawRleFrame (input : List UInt8) :
    encodeBytesFrame rawRleConfig input = .ok (Framing.encodeV1 .rle (Rle.encodeRle input)) := rfl

theorem decodeBytesFrame_rawRle {input : List UInt8} (hlen : input.length ≤ maxDecodedBytes) :
    decodeBytesFrame rawRleConfig (Framing.encodeV1 .rle (Rle.encodeRle input)) = .ok input := by
  have hruns := Rle.length_encodeRle_le input
  have hroom : 18 + 2 * maxDecodedBytes < wordSize := by decide
  refine decodeBytesFrame_encodeBytesFrame (rawRleFrame input) hlen ?_ ?_
  · rw [Fits]
    omega
  · rw [Fits, Framing.length_encodeV1, Framing.headerLen]
    omega

/-- **Encoded bytes decode to the input.**  What one call has put into a buffer another call
decodes, with any calls in between that do not free it. -/
theorem encode_decode_bytes {s₀ s₁ s₂ s₃ : State Name} {a b : Name} {inputPtr inputLen : ℕ}
    {alloc : List UInt8 → Placement} (hinitial : s₀.Initial) {Made : Call Name → Prop}
    (hbefore : Steps Made s₀ s₁)
    (hencode : Step s₁ s₂ (.encode inputPtr inputLen (some a)) (some .ok))
    (hlen : inputLen ≤ maxDecodedBytes)
    (hbetween : Steps (fun call => call ≠ .free (some a)) s₂ s₃)
    (hempty : s₃.buffers b = .empty) (halloc : AllocValid s₃.memory alloc) :
    ∃ input s₄, s₁.memory.input inputPtr inputLen = some input ∧
      Call.run alloc s₃ (.decode (s₃.buffers a).ptr (s₃.buffers a).len (some b))
        = some (s₄, some .ok) ∧
      s₄.bytes b = input ∧ s₄.bytes a = s₃.bytes a := by
  obtain ⟨alloc₁, hallowed, halloc₁, hrun⟩ := hencode
  have howned₁ := hbefore.owned hinitial.owned
  obtain ⟨s', status, hrun', hkeeps, -, hfilled⟩ :=
    withInputSlice_sound howned₁ hallowed halloc₁ (some a) (encodeBytesFrame rawRleConfig)
  rw [Call.run, compactEncodeBytesRle, hrun'] at hrun
  cases hrun
  obtain ⟨_, input, frame, ⟨⟩, -, hread, hframe, hlength, hbytes⟩ := hfilled rfl
  rw [rawRleFrame] at hframe
  cases hframe
  have hpositive : (s₂.buffers a).len ≠ 0 := by
    rw [hlength, Framing.length_encodeV1, Framing.headerLen]
    omega
  have hcap : (s₂.buffers a).capacity ≠ 0 := fun hzero => hpositive (hkeeps.owned.vacant a hzero)
  -- Nothing in between has touched the frame, so that it can be read where the buffer says.
  obtain ⟨hheld, hheldBytes⟩ := hbetween.held hkeeps.owned hcap
  have howned₃ := hbetween.owned hkeeps.owned
  have hcap₃ : (s₃.buffers a).capacity ≠ 0 := by rw [hheld]; exact hcap
  obtain ⟨block, hblock⟩ := howned₃.backed a hcap₃
  have hreads : s₃.memory.input (s₃.buffers a).ptr (s₃.buffers a).len
      = some (Framing.encodeV1 .rle (Rle.encodeRle input)) := by
    rw [Memory.input, if_neg (by rw [hheld]; exact hpositive), howned₃.slice hcap₃, hheldBytes,
      hbytes]
  have hdecode := decodeBytesFrame_rawRle (by rw [Memory.input_length hread]; exact hlen)
  have hdifferent : some b ≠ some a := by
    rintro ⟨⟩
    rw [hempty] at hcap₃
    exact hcap₃ rfl
  exact ⟨input, _, hread,
    withInputSlice_filled (fun hnull => hblock.nonnull hnull.1) hreads hempty hdecode,
    State.bytes_written (halloc input),
    (howned₃.keeps_write hempty (halloc input)).bytes a hdifferent⟩

end

/-! ### An instance -/

section

open scoped CompactCore.Reference

/-- A caller with some bytes of its own, before its first call. -/
def sevens : State Bool :=
  ⟨⟨fun ptr => if ptr = 10 then some [7, 7, 7] else none, fun _ => none⟩, fun _ => .empty⟩

/-- An allocator that has room at one address. -/
def roomAt (ptr : ℕ) (bytes : List UInt8) : Placement :=
  ⟨if bytes.length = 0 then dangling else ptr, bytes.length⟩

theorem allocValid_roomAt {m : Memory} {ptr : ℕ} (hptr : ptr ≠ 0) (hheap : m.heap ptr = none)
    (hcaller : m.caller ptr = none) : AllocValid m (roomAt ptr) := by
  intro bytes
  refine ⟨le_rfl, ?_, ?_, ?_⟩
  · intro hcap
    exact if_pos hcap
  · rw [roomAt]
    split
    · exact Nat.one_ne_zero
    · exact hptr
  · intro hcap
    have hplace : (roomAt ptr bytes).ptr = ptr := if_neg hcap
    rw [hplace]
    exact ⟨hheap, hcaller⟩

theorem sevens_initial : sevens.Initial where
  heap := fun _ => rfl
  buffers := fun _ => rfl

theorem sevens_allowed : Call.Allowed sevens (.encode 10 3 (some true)) :=
  .inr (by simp [sevens, Memory.input, Memory.slice])

/-- The bytes as a frame. -/
def sevensFrame : List UInt8 := Framing.encodeV1 .rle (Rle.encodeRle [7, 7, 7])

/-- The state that encoding the bytes leaves. -/
def sevensEncoded : State Bool :=
  ⟨sevens.memory.store (roomAt 20 sevensFrame) sevensFrame,
    Function.update sevens.buffers true
      ⟨(roomAt 20 sevensFrame).ptr, sevensFrame.length, (roomAt 20 sevensFrame).capacity⟩⟩

/-- The state that decoding the frame leaves. -/
def sevensDecoded : State Bool :=
  ⟨sevensEncoded.memory.store (roomAt 30 [7, 7, 7]) [7, 7, 7],
    Function.update sevensEncoded.buffers false ⟨30, 3, 3⟩⟩

/-- The state in which the frame has been freed. -/
def sevensFreed : State Bool :=
  ⟨{ sevensDecoded.memory with heap := Function.update sevensDecoded.memory.heap 20 none },
    Function.update sevensDecoded.buffers true .empty⟩

theorem roomAt_sevensFrame (ptr : ℕ) : roomAt ptr sevensFrame = ⟨ptr, 20⟩ := by
  have hlen : sevensFrame.length = 20 := by decide +kernel
  rw [roomAt, hlen, if_neg (by decide)]

theorem sevensEncoded_eq : sevensEncoded =
    ⟨⟨sevens.memory.caller, Function.update sevens.memory.heap 20 (some ⟨sevensFrame, 20⟩)⟩,
      Function.update sevens.buffers true ⟨20, 20, 20⟩⟩ := by
  have hlen : sevensFrame.length = 20 := by decide +kernel
  rw [sevensEncoded, roomAt_sevensFrame, hlen]
  rfl

theorem step_sevensEncoded : Step sevens sevensEncoded (.encode 10 3 (some true)) (some .ok) :=
  ⟨roomAt 20, sevens_allowed, allocValid_roomAt (by decide) rfl rfl, rfl⟩

theorem step_sevensDecoded :
    Step sevensEncoded sevensDecoded (.decode 20 20 (some false)) (some .ok) := by
  have hread : sevensEncoded.memory.input 20 20 = some sevensFrame := by
    rw [sevensEncoded_eq]
    decide +kernel
  refine ⟨roomAt 30, .inr (by rw [hread]; exact Option.some_ne_none _), ?_, ?_⟩
  · rw [sevensEncoded_eq]
    exact allocValid_roomAt (by decide) rfl rfl
  · exact withInputSlice_filled (by decide) hread (by rw [sevensEncoded_eq]; rfl)
      (decodeBytesFrame_rawRle (by decide))

theorem step_sevensFreed : Step sevensDecoded sevensFreed (.free (some true)) none := by
  refine ⟨roomAt 40, trivial, ?_, ?_⟩
  · rw [sevensDecoded, sevensEncoded_eq]
    exact allocValid_roomAt (by decide) rfl rfl
  · refine compactBufferFree_released ?_ ?_ ?_
    · rw [sevensDecoded, sevensEncoded_eq]
      decide
    · rw [sevensDecoded, sevensEncoded_eq]
      decide
    · have hlen : sevensFrame.length = 20 := by decide +kernel
      rw [sevensDecoded, sevensEncoded_eq, Memory.release]
      exact if_pos ⟨hlen.symm, rfl⟩

/-- The bytes are encoded and decoded, the frame is freed, and another one is put in its place. -/
theorem steps_sound_sevens : Steps (fun _ => True) sevens sevensFreed ∧ ∃ s' status,
    Call.run (roomAt 20) sevensFreed (.encode 10 3 (some true)) = some (s', status) ∧
      s'.memory.caller = sevens.memory.caller ∧ s'.bytes false = [7, 7, 7] ∧
      ∀ ptr, s'.memory.heap ptr ≠ none →
        ∃! name, (s'.buffers name).ptr = ptr ∧ (s'.buffers name).capacity ≠ 0 := by
  have hsteps : Steps (fun _ => True) sevens sevensFreed :=
    .tail (.tail (.tail .refl (.inl ⟨_, _, trivial, step_sevensEncoded⟩))
      (.inl ⟨_, _, trivial, step_sevensDecoded⟩)) (.inl ⟨_, _, trivial, step_sevensFreed⟩)
  have hallowed : Call.Allowed sevensFreed (.encode 10 3 (some true)) := by
    rw [sevensFreed, sevensDecoded, sevensEncoded_eq]
    exact .inr (by decide)
  have halloc : AllocValid sevensFreed.memory (roomAt 20) := by
    rw [sevensFreed, sevensDecoded, sevensEncoded_eq]
    exact allocValid_roomAt (by decide) rfl rfl
  obtain ⟨s', status, hrun, hkeeps, -, hblocks⟩ :=
    steps_sound sevens_initial hsteps (.encode 10 3 (some true)) hallowed halloc
  refine ⟨hsteps, s', status, hrun, ?_, ?_, hblocks⟩
  · rw [hkeeps.caller, sevensFreed, sevensDecoded, sevensEncoded_eq]
    rfl
  · rw [hkeeps.bytes false (by decide), sevensFreed, sevensDecoded, sevensEncoded_eq]
    decide

/-- The encoded bytes, when the caller has given up its own. -/
def sevensGone : State Bool :=
  ⟨{ sevensEncoded.memory with caller := fun _ => none }, sevensEncoded.buffers⟩

theorem encode_decode_bytes_sevens : ∃ s₄,
    Call.run (roomAt 30) sevensGone
        (.decode (sevensGone.buffers true).ptr (sevensGone.buffers true).len (some false))
      = some (s₄, some .ok) ∧ s₄.bytes false = [7, 7, 7] := by
  have hbefore : Steps (fun _ => True) sevens sevens := .refl
  have hbetween : Steps (fun call => call ≠ .free (some true)) sevensEncoded sevensGone :=
    .single (.inr ⟨rfl, rfl, fun _ _ => rfl⟩)
  have halloc : AllocValid sevensGone.memory (roomAt 30) := by
    rw [sevensGone, sevensEncoded_eq]
    exact allocValid_roomAt (by decide) rfl rfl
  obtain ⟨input, s₄, hinput, hrun, hbytes, -⟩ :=
    encode_decode_bytes (b := false) sevens_initial hbefore step_sevensEncoded (by decide) hbetween
      (by rw [sevensGone, sevensEncoded_eq]; rfl) halloc
  cases hinput
  exact ⟨s₄, hrun, hbytes⟩

end

end CompactCore.Ffi
