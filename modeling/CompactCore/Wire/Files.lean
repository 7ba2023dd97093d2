/-
**Files that are replaced whole.**

A file system gives names to files.  What has been written to a file is on the disk once the file
has been synced, and a change of a name may get lost as long as the power can fail.  A program that
wants a file to be complete at any time writes a temporary file, syncs it, and renames it.

The discipline of this module says that this works, whatever other processes do that keep to it.  A
process owns the temporary files that it has created, and only writes, renames and removes these.
Then every other name is, at any time and behind any power failure, that of a file that is complete.

Main definitions:

* `Wire.Disk`, `Wire.FileCall`, `Wire.fileKernel` — a file system, and its calls;
* `Wire.FileShare`, `Wire.fileDiscipline` — the temporary file that a process owns, and the files
  that it reads.

Main results:

* `Wire.safe_openRead`, `Wire.safe_read`, `Wire.safe_createNew`, `Wire.safe_writeAll`,
  `Wire.safe_syncAll`, `Wire.safe_rename`, `Wire.safe_remove` — the rule for each call;
* `Wire.Disk.Inv.content` — **what a name that is not temporary stands for**.
-/

import CompactCore.Wire.Process
import Mathlib.Data.Nat.Notation

set_option relaxedAutoImplicit false
set_option autoImplicit false

namespace Wire

/-! ### The file system -/

/-- A file, and whether all of it is on the disk. -/
structure File where
  bytes : List UInt8
  synced : Bool

inductive ErrorKind
  | notFound | alreadyExists | other
  deriving DecidableEq

/-- A file system, and the counters in the memory of the processes. -/
structure Disk (Path Pid : Type) where
  entries : Path → Option ℕ
  /-- What a name may stand for when the power comes back. -/
  recent : Path → List (Option ℕ)
  file : ℕ → File
  /-- Files from this number on have never been in use. -/
  unused : ℕ
  counters : Pid → UInt64

inductive FileCall (Path Pid : Type)
  | openRead (path : Path)
  | read (file : ℕ)
  | createNew (path : Path)
  | writeAll (file : ℕ) (bytes : List UInt8)
  | syncAll (file : ℕ)
  | rename (source target : Path)
  | remove (path : Path)
  | metadata (path : Path)
  /-- The memory of a new process. -/
  | exec (pid : Pid)
  | fetchAdd (pid : Pid)

variable {Path Pid : Type}

def FileCall.Reply : FileCall Path Pid → Type
  | openRead _ | createNew _ | metadata _ => Except ErrorKind ℕ
  | read _ => Except ErrorKind (List UInt8)
  | writeAll _ _ | syncAll _ | rename _ _ | remove _ => Except ErrorKind Unit
  | exec _ => Unit
  | fetchAdd _ => UInt64

namespace Disk

def setFile (s : Disk Path Pid) (i : ℕ) (file : File) : Disk Path Pid :=
  { s with file := Function.update s.file i file }

def append (s : Disk Path Pid) (i : ℕ) (bytes : List UInt8) : Disk Path Pid :=
  s.setFile i ⟨(s.file i).bytes ++ bytes, false⟩

/-- What a name stands for. -/
def content (s : Disk Path Pid) (path : Path) : Option (List UInt8) :=
  (s.entries path).map fun i => (s.file i).bytes

variable {s : Disk Path Pid} {path other : Path} {entry e : Option ℕ} {i j : ℕ} {file : File}

theorem setFile_file_self : (s.setFile i file).file i = file := Function.update_self ..

theorem setFile_file_ne (h : j ≠ i) : (s.setFile i file).file j = s.file j :=
  Function.update_of_ne h ..

variable [DecidableEq Path]

/-- A name stands for another file, or for none. -/
def link (s : Disk Path Pid) (path : Path) (entry : Option ℕ) : Disk Path Pid :=
  { s with
    entries := Function.update s.entries path entry
    recent := Function.update s.recent path (s.recent path ++ [entry]) }

/-- A new, empty file. -/
def create (s : Disk Path Pid) (path : Path) : Disk Path Pid :=
  { (s.setFile s.unused ⟨[], false⟩).link path (some s.unused) with unused := s.unused + 1 }

/-- Both names change: the target stands for the file of the source, the source for none. -/
def move (s : Disk Path Pid) (source target : Path) : Disk Path Pid :=
  (s.link target (s.entries source)).link source none

@[simp] theorem link_file : (s.link path entry).file = s.file := rfl

@[simp] theorem link_unused : (s.link path entry).unused = s.unused := rfl

theorem link_entries :
    (s.link path entry).entries other = if other = path then entry else s.entries other := by
  simp only [link, Function.update_apply]

theorem mem_link_recent :
    e ∈ (s.link path entry).recent other ↔ e ∈ s.recent other ∨ other = path ∧ e = entry := by
  simp only [link, Function.update_apply]
  split <;> simp_all

theorem create_entries : (s.create path).entries other =
    if other = path then some s.unused else s.entries other := link_entries

theorem create_file : (s.create path).file = (s.setFile s.unused ⟨[], false⟩).file := rfl

theorem content_move {source : Path} (hne : source ≠ path) :
    (s.move source path).content other =
      if other = path then s.content source
      else if other = source then none else s.content other := by
  simp only [content, move, link_file, link_entries]
  by_cases hpath : other = path
  · subst hpath
    rw [if_neg (Ne.symm hne), if_pos rfl, if_pos rfl]
  · rw [if_neg hpath, if_neg hpath]
    split
    · rfl
    · rfl

theorem mem_create_recent : e ∈ (s.create path).recent other ↔
    e ∈ s.recent other ∨ other = path ∧ e = some s.unused := mem_link_recent

end Disk

/-- How a file system answers.  Every call but those that touch memory may fail; a write that fails
may have written the beginning of its bytes. -/
inductive FileCall.Answers [DecidableEq Path] [DecidableEq Pid] :
    Disk Path Pid → (call : FileCall Path Pid) → call.Reply → Disk Path Pid → Prop
  | opened {s : Disk Path Pid} {path : Path} {i : ℕ} (h : s.entries path = some i) :
      Answers s (.openRead path) (.ok i) s
  | notFound {s : Disk Path Pid} {path : Path} (h : s.entries path = none) :
      Answers s (.openRead path) (.error .notFound) s
  | openFails {s : Disk Path Pid} {path : Path} : Answers s (.openRead path) (.error .other) s
  | gotten {s : Disk Path Pid} {i : ℕ} : Answers s (.read i) (.ok (s.file i).bytes) s
  | readFails {s : Disk Path Pid} {i : ℕ} : Answers s (.read i) (.error .other) s
  | created {s : Disk Path Pid} {path : Path} (h : s.entries path = none) :
      Answers s (.createNew path) (.ok s.unused) (s.create path)
  | alreadyExists {s : Disk Path Pid} {path : Path} {i : ℕ} (h : s.entries path = some i) :
      Answers s (.createNew path) (.error .alreadyExists) s
  | createFails {s : Disk Path Pid} {path : Path} : Answers s (.createNew path) (.error .other) s
  | written {s : Disk Path Pid} {i : ℕ} {bytes : List UInt8} :
      Answers s (.writeAll i bytes) (.ok ()) (s.append i bytes)
  | writeFails {s : Disk Path Pid} {i : ℕ} {bytes : List UInt8} (n : ℕ) :
      Answers s (.writeAll i bytes) (.error .other) (s.append i (bytes.take n))
  | synced {s : Disk Path Pid} {i : ℕ} :
      Answers s (.syncAll i) (.ok ()) (s.setFile i ⟨(s.file i).bytes, true⟩)
  | syncFails {s : Disk Path Pid} {i : ℕ} : Answers s (.syncAll i) (.error .other) s
  | renamed {s : Disk Path Pid} {source target : Path} {i : ℕ} (h : s.entries source = some i)
      (hne : source ≠ target) : Answers s (.rename source target) (.ok ()) (s.move source target)
  | renameFails {s : Disk Path Pid} {source target : Path} (e : ErrorKind) :
      Answers s (.rename source target) (.error e) s
  | removed {s : Disk Path Pid} {path : Path} {i : ℕ} (h : s.entries path = some i) :
      Answers s (.remove path) (.ok ()) (s.link path none)
  | removeFails {s : Disk Path Pid} {path : Path} (e : ErrorKind) :
      Answers s (.remove path) (.error e) s
  | measured {s : Disk Path Pid} {path : Path} {i : ℕ} (h : s.entries path = some i) :
      Answers s (.metadata path) (.ok (s.file i).bytes.length) s
  | metadataFails {s : Disk Path Pid} {path : Path} (e : ErrorKind) :
      Answers s (.metadata path) (.error e) s
  | execed {s : Disk Path Pid} {pid : Pid} :
      Answers s (.exec pid) () { s with counters := Function.update s.counters pid 0 }
  | fetched {s : Disk Path Pid} {pid : Pid} :
      Answers s (.fetchAdd pid) (s.counters pid)
        { s with counters := Function.update s.counters pid (s.counters pid + 1) }

/-- What a power failure may do: a name may stand for what it stood for at an earlier time, and the
bytes of a file that is not synced may be any. -/
structure Disk.Fails (s s' : Disk Path Pid) : Prop where
  entries : ∀ path, s'.entries path ∈ s.recent path
  recent : ∀ path, s'.recent path = [s'.entries path]
  file : ∀ i, (s.file i).synced = true → s'.file i = s.file i
  unused : s'.unused = s.unused

/-- The kernel of a file system. -/
def fileKernel (Path Pid : Type) [DecidableEq Path] [DecidableEq Pid] : Kernel where
  State := Disk Path Pid
  Call := FileCall Path Pid
  Reply := FileCall.Reply
  Answers := FileCall.Answers
  Fails := Disk.Fails

namespace Files

variable [DecidableEq Path] [DecidableEq Pid]

/-- The program that makes one call. -/
def ask (call : FileCall Path Pid) : Process (fileKernel Path Pid) call.Reply :=
  Process.ask (K := fileKernel Path Pid) call

@[simp] theorem ask_bind {α : Type} (call : FileCall Path Pid)
    (f : call.Reply → Process (fileKernel Path Pid) α) : ask call >>= f = Process.call call f := rfl

end Files

/-- A call and its answer. -/
def FileCall.event [DecidableEq Path] [DecidableEq Pid] (call : FileCall Path Pid)
    (reply : call.Reply) : (fileKernel Path Pid).Event := ⟨call, reply⟩

/-! ### The discipline -/

/-- A temporary file that a process has created. -/
structure Owned (Path : Type) where
  path : Path
  file : ℕ
  content : File

/-- The files that a process has opened to read them, and the temporary file that it owns. -/
structure FileShare (Path : Type) where
  reading : List (Path × ℕ)
  temp : Option (Owned Path)

section

variable (Temp : Path → Prop) (Good : Path → Option (List UInt8) → Prop)

/-- What a name stands for is complete, and one of the things that the name may stand for. -/
def Disk.Settled (s : Disk Path Pid) (path : Path) : Option ℕ → Prop
  | none => Good path none
  | some i => i < s.unused ∧ (s.file i).synced = true ∧ Good path (some (s.file i).bytes)

/-- The invariant of the file system: names that are not temporary stand for complete files, also
behind a power failure. -/
structure Disk.Inv (s : Disk Path Pid) : Prop where
  settled : ∀ path, ¬Temp path → ∀ entry ∈ s.recent path, s.Settled Good path entry
  allocated : ∀ path i, some i ∈ s.recent path → i < s.unused
  current : ∀ path, s.entries path ∈ s.recent path

/-- A process owns a temporary file: it has this name and no other one. -/
structure Disk.Owns (s : Disk Path Pid) (t : Owned Path) : Prop where
  temp : Temp t.path
  entry : s.entries t.path = some t.file
  file_eq : s.file t.file = t.content
  allocated : t.file < s.unused
  only : ∀ path, some t.file ∈ s.recent path → path = t.path

structure FileShare.Holds (s : Disk Path Pid) (share : FileShare Path) : Prop where
  reading : ∀ r ∈ share.reading, s.Settled Good r.1 (some r.2)
  owns : ∀ t, share.temp = some t → s.Owns Temp t
  distinct : ∀ t, share.temp = some t → ∀ r ∈ share.reading, r.2 ≠ t.file

/-- Two processes own different files, and none of them writes what the other one reads. -/
structure FileShare.Apart (share other : FileShare Path) : Prop where
  temps : ∀ t u, share.temp = some t → other.temp = some u → t.path ≠ u.path ∧ t.file ≠ u.file
  left : ∀ t, share.temp = some t → ∀ r ∈ other.reading, r.2 ≠ t.file
  right : ∀ u, other.temp = some u → ∀ r ∈ share.reading, r.2 ≠ u.file

variable {Temp : Path → Prop} {Good : Path → Option (List UInt8) → Prop} {s s' : Disk Path Pid}
  {share other : FileShare Path} {t : Owned Path} {path : Path} {f : ℕ}

/-- A step changes, of all that was in use, only these temporary names and these files. -/
structure Disk.Touches (Temp Name : Path → Prop) (Number : ℕ → Prop) (s s' : Disk Path Pid) :
    Prop where
  unused_le : s.unused ≤ s'.unused
  file_eq : ∀ i, i < s.unused → ¬Number i → s'.file i = s.file i
  entries_eq : ∀ other, Temp other → ¬Name other → s'.entries other = s.entries other
  recent : ∀ other i, some i ∈ s'.recent other → ¬Number i → some i ∈ s.recent other

variable {Temp Name : Path → Prop} {Number : ℕ → Prop} {Good : Path → Option (List UInt8) → Prop}
  {s s' : Disk Path Pid} {share other : FileShare Path} {t : Owned Path} {path : Path} {i : ℕ}
  {file : File}

theorem Disk.Settled.touches {entry : Option ℕ} (h : s.Settled Good path entry)
    (ht : s.Touches Temp Name Number s') (hnot : ∀ i, entry = some i → ¬Number i) :
    s'.Settled Good path entry := by
  cases entry with
  | none => exact h
  | some i =>
      obtain ⟨hlt, hsynced, hgood⟩ := h
      have hfile : s'.file i = s.file i := ht.file_eq i hlt (hnot i rfl)
      refine ⟨Nat.lt_of_lt_of_le hlt ht.unused_le, ?_, ?_⟩ <;> rw [hfile] <;> assumption

/-- **What a process relies on survives a step of another one.** -/
theorem FileShare.Holds.touches (h : other.Holds Temp Good s) (ht : s.Touches Temp Name Number s')
    (hreading : ∀ r ∈ other.reading, ¬Number r.2)
    (htemp : ∀ u, other.temp = some u → ¬Name u.path ∧ ¬Number u.file) :
    other.Holds Temp Good s' := by
  refine ⟨fun r hr => (h.reading r hr).touches ht fun i hi => Option.some.inj hi ▸ hreading r hr,
    fun u hu => ?_, h.distinct⟩
  have howns := h.owns u hu
  obtain ⟨hname, hnumber⟩ := htemp u hu
  refine ⟨howns.temp, ?_, ?_, Nat.lt_of_lt_of_le howns.allocated ht.unused_le, fun q hq => ?_⟩
  · rw [ht.entries_eq _ howns.temp hname]
    exact howns.entry
  · rw [ht.file_eq _ howns.allocated hnumber]
    exact howns.file_eq
  · exact howns.only q (ht.recent q _ hq hnumber)

theorem Disk.Inv.fails (h : s.Inv Temp Good) (hfails : s.Fails s') : s'.Inv Temp Good := by
  refine ⟨fun path hpath entry hentry => ?_, fun path i hi => ?_, fun path => ?_⟩
  · rw [hfails.recent, List.mem_singleton] at hentry
    have hsettled := h.settled path hpath entry (hentry ▸ hfails.entries path)
    cases entry with
    | none => exact hsettled
    | some i =>
        obtain ⟨hlt, hsynced, hgood⟩ := hsettled
        have hfile := hfails.file i hsynced
        exact ⟨hfails.unused ▸ hlt, hfile ▸ hsynced, hfile ▸ hgood⟩
  · rw [hfails.recent, List.mem_singleton] at hi
    rw [hfails.unused]
    exact h.allocated path i (hi ▸ hfails.entries path)
  · rw [hfails.recent]
    exact List.mem_singleton_self _

theorem FileShare.Apart.symm (h : share.Apart other) : other.Apart share :=
  ⟨fun t u ht hu => ⟨(h.temps u t hu ht).1.symm, (h.temps u t hu ht).2.symm⟩, h.right, h.left⟩

/-- A process that has done nothing yet. -/
def FileShare.nothing : FileShare Path := ⟨[], none⟩

theorem FileShare.nothing_holds : (FileShare.nothing : FileShare Path).Holds Temp Good s :=
  ⟨fun _ hr => absurd hr List.not_mem_nil, fun _ ht => absurd ht.symm (Option.some_ne_none _),
    fun _ ht => absurd ht.symm (Option.some_ne_none _)⟩

theorem FileShare.nothing_apart (share : FileShare Path) : FileShare.nothing.Apart share :=
  ⟨fun _ _ ht => absurd ht.symm (Option.some_ne_none _),
    fun _ ht => absurd ht.symm (Option.some_ne_none _), fun _ _ _ hr => absurd hr List.not_mem_nil⟩

/-- The discipline of processes that write their files under temporary names: `Good` says which
bytes may stand at a name that is not temporary. -/
def fileDiscipline [DecidableEq Path] [DecidableEq Pid] (Temp : Path → Prop)
    (Good : Path → Option (List UInt8) → Prop) :
    Discipline (fileKernel Path Pid) where
  Share := FileShare Path
  nothing := .nothing
  Inv := Disk.Inv Temp Good
  Holds s share := share.Holds Temp Good s
  Apart := FileShare.Apart
  apart_symm := FileShare.Apart.symm
  nothing_holds _ _ := FileShare.nothing_holds
  nothing_apart := FileShare.nothing_apart
  inv_fails := Disk.Inv.fails

/-! ### The steps of a process -/

/-- A step that leaves all files and their names as they are. -/
theorem Disk.touches_nothing (hunused : s'.unused = s.unused) (hfile : s'.file = s.file)
    (hentries : s'.entries = s.entries) (hrecent : s'.recent = s.recent) :
    s.Touches Temp (fun _ => False) (fun _ => False) s' :=
  ⟨Nat.le_of_eq hunused.symm, fun i _ _ => congrFun hfile i, fun q _ _ => congrFun hentries q,
    fun _ _ h _ => hrecent ▸ h⟩

theorem Disk.setFile_touches (Temp : Path → Prop) :
    s.Touches Temp (fun _ => False) (· = i) (s.setFile i file) :=
  ⟨Nat.le_refl _, fun _ _ hne => setFile_file_ne hne, fun _ _ _ => rfl, fun _ _ h _ => h⟩

theorem Disk.Inv.setFile (h : s.Inv Temp Good) (howns : s.Owns Temp t) :
    (s.setFile t.file file).Inv Temp Good := by
  refine ⟨fun q hq entry hentry => ?_, h.allocated, h.current⟩
  refine (h.settled q hq entry hentry).touches (Disk.setFile_touches Temp) ?_
  rintro i rfl rfl
  exact hq (howns.only q hentry ▸ howns.temp)

theorem Disk.Owns.setFile (howns : s.Owns Temp t) :
    (s.setFile t.file file).Owns Temp { t with content := file } :=
  ⟨howns.temp, howns.entry, setFile_file_self, howns.allocated, howns.only⟩

variable [DecidableEq Path]

theorem Disk.link_touches (Temp : Path → Prop) (s : Disk Path Pid) (path : Path) {entry : Option ℕ}
    (hentry : ∀ i, entry = some i → Number i) :
    s.Touches Temp (· = path) Number (s.link path entry) := by
  refine ⟨Nat.le_refl _, fun _ _ _ => rfl, fun q _ hne => ?_, fun q i hi hnot => ?_⟩
  · rw [link_entries, if_neg hne]
  · rcases mem_link_recent.1 hi with hi | hi
    · exact hi
    · exact absurd (hentry i hi.2.symm) hnot

theorem Disk.create_touches (Temp : Path → Prop) :
    s.Touches Temp (· = path) (· = s.unused) (s.create path) := by
  have hentry : ∀ i, some s.unused = some i → i = s.unused := fun i hi => (Option.some.inj hi).symm
  have hlink := Disk.link_touches Temp (s.setFile s.unused ⟨[], false⟩) path hentry
  exact ⟨Nat.le_succ _, fun i hlt hne => (hlink.file_eq i hlt hne).trans (setFile_file_ne hne),
    hlink.entries_eq, hlink.recent⟩

theorem Disk.move_touches {source target : Path} (htarget : ¬Temp target)
    (hentry : s.entries source = some i) :
    s.Touches Temp (· = source) (· = i) (s.move source target) := by
  refine ⟨Nat.le_refl _, fun _ _ _ => rfl, fun q hq hne => ?_, fun q j hj hne => ?_⟩
  · rw [move, link_entries, if_neg hne, link_entries, if_neg]
    rintro rfl
    exact htarget hq
  · rw [move, hentry, mem_link_recent, mem_link_recent] at hj
    rcases hj with (hj | ⟨-, hj⟩) | ⟨-, hj⟩
    · exact hj
    · exact absurd (Option.some.inj hj) hne
    · cases hj

theorem Disk.Inv.create (h : s.Inv Temp Good) (htemp : Temp path) :
    (s.create path).Inv Temp Good := by
  refine ⟨fun q hq entry hentry => ?_, fun q i hi => ?_, fun q => ?_⟩
  · rcases Disk.mem_create_recent.1 hentry with hentry | ⟨rfl, -⟩
    · refine (h.settled q hq entry hentry).touches (Disk.create_touches Temp) ?_
      rintro i rfl rfl
      exact Nat.lt_irrefl _ (h.allocated q _ hentry)
    · exact absurd htemp hq
  · rcases Disk.mem_create_recent.1 hi with hi | ⟨-, hi⟩
    · exact Nat.lt_succ_of_lt (h.allocated q i hi)
    · rw [Option.some.inj hi]
      exact Nat.lt_succ_self _
  · rw [Disk.mem_create_recent, Disk.create_entries]
    split
    · exact Or.inr ⟨‹_›, rfl⟩
    · exact Or.inl (h.current q)

theorem Disk.Inv.unlink (h : s.Inv Temp Good) (htemp : Temp path) :
    (s.link path none).Inv Temp Good := by
  refine ⟨fun q hq entry hentry => ?_, fun q i hi => ?_, fun q => ?_⟩
  · rcases mem_link_recent.1 hentry with hentry | ⟨rfl, -⟩
    · exact h.settled q hq entry hentry
    · exact absurd htemp hq
  · rcases mem_link_recent.1 hi with hi | ⟨-, hi⟩
    · exact h.allocated q i hi
    · cases hi
  · rw [mem_link_recent, link_entries]
    split
    · exact Or.inr ⟨‹_›, rfl⟩
    · exact Or.inl (h.current q)

/-- **A temporary file that is complete takes the place of another file.** -/
theorem Disk.Inv.move {target : Path} (h : s.Inv Temp Good) (howns : s.Owns Temp t)
    (hsynced : t.content.synced = true) (htarget : ¬Temp target)
    (hgood : Good target (some t.content.bytes)) : (s.move t.path target).Inv Temp Good := by
  have hinv : (s.link target (s.entries t.path)).Inv Temp Good := by
    rw [howns.entry]
    refine ⟨fun q hq entry hentry => ?_, fun q i hi => ?_, fun q => ?_⟩
    · rcases mem_link_recent.1 hentry with hentry | ⟨rfl, rfl⟩
      · exact h.settled q hq entry hentry
      · refine ⟨howns.allocated, ?_, ?_⟩ <;> rw [link_file, howns.file_eq] <;> assumption
    · rcases mem_link_recent.1 hi with hi | ⟨-, hi⟩
      · exact h.allocated q i hi
      · rw [Option.some.inj hi]
        exact howns.allocated
    · rw [mem_link_recent, link_entries]
      split
      · exact Or.inr ⟨‹_›, rfl⟩
      · exact Or.inl (h.current q)
  exact hinv.unlink howns.temp

variable [DecidableEq Pid]

/-- A process may change the bytes of its temporary file. -/
theorem keeps_setFile (hinv : s.Inv Temp Good) (hholds : share.Holds Temp Good s)
    (ht : share.temp = some t) :
    (fileDiscipline Temp Good).Keeps s share (s.setFile t.file file)
      { share with temp := some { t with content := file } } := by
  have howns := hholds.owns t ht
  refine ⟨hinv.setFile howns, ⟨fun r hr => ?_, fun u hu => ?_, fun u hu => ?_⟩, fun other
    ho ha => ?_⟩
  · refine (hholds.reading r hr).touches (Disk.setFile_touches Temp) ?_
    intro i hi hfile
    exact hholds.distinct t ht r hr ((Option.some.inj hi).trans hfile)
  · cases hu
    exact howns.setFile
  · cases hu
    exact hholds.distinct t ht
  · refine ⟨ho.touches (Disk.setFile_touches Temp) (ha.left t ht) fun u hu =>
      ⟨id, fun hfile => (ha.temps t u ht hu).2 hfile.symm⟩, fun u v hu hv => ?_, fun u hu => ?_,
    ha.right⟩
    · cases hu
      exact ha.temps t v ht hv
    · cases hu
      exact ha.left t ht

/-- A process may create a temporary file. -/
theorem keeps_create (hinv : s.Inv Temp Good) (hholds : share.Holds Temp Good s)
    (htemp : Temp path) (hfree : s.entries path = none) :
    (fileDiscipline Temp Good).Keeps s share (s.create path)
      { share with temp := some ⟨path, s.unused, ⟨[], false⟩⟩ } := by
  refine ⟨hinv.create htemp, ⟨fun r hr => ?_, fun u hu => ?_, fun u hu r hr => ?_⟩,
    fun other ho ha => ?_⟩
  · refine (hholds.reading r hr).touches (Disk.create_touches Temp) ?_
    intro i hi hfile
    have hlt := (hholds.reading r hr).1
    rw [Option.some.inj hi, hfile] at hlt
    exact Nat.lt_irrefl _ hlt
  · cases hu
    refine ⟨htemp, ?_, Disk.setFile_file_self, Nat.lt_succ_self _, fun q hq => ?_⟩
    · rw [Disk.create_entries, if_pos rfl]
    · rcases Disk.mem_create_recent.1 hq with hq | ⟨rfl, -⟩
      · exact absurd (hinv.allocated q _ hq) (Nat.lt_irrefl _)
      · rfl
  · cases hu
    exact Nat.ne_of_lt (hholds.reading r hr).1
  · have hfresh : ∀ u, other.temp = some u → u.path ≠ path ∧ u.file ≠ s.unused := by
      intro u hu
      have howns := ho.owns u hu
      refine ⟨?_, Nat.ne_of_lt howns.allocated⟩
      rintro rfl
      exact absurd howns.entry (hfree ▸ (Option.some_ne_none _).symm)
    refine ⟨ho.touches (Disk.create_touches Temp) (fun r hr => Nat.ne_of_lt (ho.reading r hr).1)
      hfresh, fun u v hu hv => ?_, fun u hu r hr => ?_, ha.right⟩
    · cases hu
      exact ⟨(hfresh v hv).1.symm, (hfresh v hv).2.symm⟩
    · cases hu
      exact Nat.ne_of_lt (ho.reading r hr).1

/-- A process gives up its temporary file, by a step that changes nothing that others rely on. -/
theorem keeps_release (hholds : share.Holds Temp Good s) (ht : share.temp = some t)
    (hinv : s'.Inv Temp Good) (htouches : s.Touches Temp (· = t.path) (· = t.file) s') :
    (fileDiscipline Temp Good).Keeps s share s' { share with temp := none } := by
  refine ⟨hinv, ⟨fun r hr => ?_, fun _ hu => absurd hu.symm (Option.some_ne_none _),
    fun _ hu => absurd hu.symm (Option.some_ne_none _)⟩, fun other ho ha => ?_⟩
  · refine (hholds.reading r hr).touches htouches fun i hi hfile => ?_
    exact hholds.distinct t ht r hr ((Option.some.inj hi).trans hfile)
  · refine ⟨ho.touches htouches (ha.left t ht) fun u hu =>
      ⟨fun h => (ha.temps t u ht hu).1 h.symm, fun h => (ha.temps t u ht hu).2 h.symm⟩,
      fun _ _ hu => absurd hu.symm (Option.some_ne_none _),
      fun _ hu => absurd hu.symm (Option.some_ne_none _), ha.right⟩

/-- A step of memory leaves the files as they are. -/
theorem keeps_memory (hinv : s.Inv Temp Good) (hholds : share.Holds Temp Good s)
    (counters : Pid → UInt64) :
    (fileDiscipline Temp Good).Keeps s share { s with counters := counters } share := by
  have htouches :
      s.Touches Temp (fun _ => False) (fun _ => False) { s with counters := counters } :=
    Disk.touches_nothing rfl rfl rfl rfl
  have hkeep : ∀ other : FileShare Path, other.Holds Temp Good s →
      other.Holds Temp Good { s with counters := counters } := fun other ho =>
    ho.touches htouches (fun _ _ => id) fun _ _ => ⟨id, id⟩
  refine ⟨⟨fun q hq entry hentry => ?_, hinv.allocated, hinv.current⟩, hkeep share hholds,
    fun other ho ha => ⟨hkeep other ho, ha⟩⟩
  exact (hinv.settled q hq entry hentry).touches htouches fun _ _ => id

theorem keeps_refl (hinv : s.Inv Temp Good) (hholds : share.Holds Temp Good s) :
    (fileDiscipline Temp Good).Keeps s share s share :=
  ⟨hinv, hholds, fun _ ho ha => ⟨ho, ha⟩⟩

/-- A process may open a file whose name is not temporary. -/
theorem keeps_open (hinv : s.Inv Temp Good) (hholds : share.Holds Temp Good s) (hpath : ¬Temp path)
    (hentry : s.entries path = some i) :
    (fileDiscipline Temp Good).Keeps s share s
      { share with reading := (path, i) :: share.reading } := by
  have hrecent : some i ∈ s.recent path := hentry ▸ hinv.current path
  have hother : ∀ u : Owned Path, s.Owns Temp u → i ≠ u.file := by
    rintro u howns rfl
    exact hpath (howns.only path hrecent ▸ howns.temp)
  refine ⟨hinv, ⟨?_, hholds.owns, fun u hu => ?_⟩,
    fun other ho ha => ⟨ho, ha.temps, ha.left, fun u hu => ?_⟩⟩
  · exact List.forall_mem_cons.2 ⟨hinv.settled path hpath _ hrecent, hholds.reading⟩
  · exact List.forall_mem_cons.2 ⟨hother u (hholds.owns u hu), hholds.distinct u hu⟩
  · exact List.forall_mem_cons.2 ⟨hother u (ho.owns u hu), ha.right u hu⟩

/-! ### The rules of the calls -/

section

variable {α : Type} {Q : List (fileKernel Path Pid).Event → FileShare Path → α → Prop}
  {past : List (fileKernel Path Pid).Event}

theorem safe_openRead {next : Except ErrorKind ℕ → Process (fileKernel Path Pid) α}
    (hpath : ¬Temp path)
    (hopened : ∀ i, (next (.ok i)).Safe (fileDiscipline Temp Good) Q
      (past ++ [FileCall.event (.openRead path) (.ok i)])
      { share with reading := (path, i) :: share.reading })
    (hnone : Good path none → (next (.error .notFound)).Safe (fileDiscipline Temp Good) Q
      (past ++ [FileCall.event (.openRead path) (.error .notFound)]) share)
    (hfails : (next (.error .other)).Safe (fileDiscipline Temp Good) Q
      (past ++ [FileCall.event (.openRead path) (.error .other)]) share) :
    (Process.call (K := fileKernel Path Pid) (.openRead path) next).Safe
    (fileDiscipline Temp Good) Q
      past share := by
  intro s reply s' hinv hholds hanswers
  cases hanswers with
  | opened h => exact ⟨_, keeps_open hinv hholds hpath h, hopened _⟩
  | notFound h =>
      have hsettled := hinv.settled path hpath _ (hinv.current path)
      rw [h] at hsettled
      exact ⟨_, keeps_refl hinv hholds, hnone hsettled⟩
  | openFails => exact ⟨_, keeps_refl hinv hholds, hfails⟩

theorem safe_read {next : Except ErrorKind (List UInt8) → Process (fileKernel Path Pid) α}
    (hreading : (path, i) ∈ share.reading)
    (hgotten : ∀ bytes, Good path (some bytes) →
      (next (.ok bytes)).Safe (fileDiscipline Temp Good) Q
      (past ++ [FileCall.event (.read i) (.ok bytes)]) share)
    (hfails : (next (.error .other)).Safe (fileDiscipline Temp Good) Q
      (past ++ [FileCall.event (.read i) (.error .other)]) share) :
    (Process.call (K := fileKernel Path Pid) (.read i) next).Safe (fileDiscipline Temp Good) Q
      past share := by
  intro s reply s' hinv hholds hanswers
  cases hanswers with
  | gotten => exact ⟨_, keeps_refl hinv hholds, hgotten _ (hholds.reading _ hreading).2.2⟩
  | readFails => exact ⟨_, keeps_refl hinv hholds, hfails⟩

theorem safe_createNew {next : Except ErrorKind ℕ → Process (fileKernel Path Pid) α}
    (htemp : Temp path)
    (hcreated : ∀ i, (next (.ok i)).Safe (fileDiscipline Temp Good) Q
      (past ++ [FileCall.event (.createNew path) (.ok i)])
      { share with temp := some ⟨path, i, ⟨[], false⟩⟩ })
    (hfails : ∀ e, (next (.error e)).Safe (fileDiscipline Temp Good) Q
      (past ++ [FileCall.event (.createNew path) (.error e)]) share) :
    (Process.call (K := fileKernel Path Pid) (.createNew path) next).Safe
    (fileDiscipline Temp Good) Q
      past share := by
  intro s reply s' hinv hholds hanswers
  cases hanswers with
  | created h => exact ⟨_, keeps_create hinv hholds htemp h, hcreated _⟩
  | alreadyExists h => exact ⟨_, keeps_refl hinv hholds, hfails _⟩
  | createFails => exact ⟨_, keeps_refl hinv hholds, hfails _⟩

/-- A name that always stands for something cannot be given to a new file. -/
theorem safe_createNew_taken {next : Except ErrorKind ℕ → Process (fileKernel Path Pid) α}
    (hpath : ¬Temp path) (htaken : ¬Good path none)
    (hfails : ∀ e, (next (.error e)).Safe (fileDiscipline Temp Good) Q
      (past ++ [FileCall.event (.createNew path) (.error e)]) share) :
    (Process.call (K := fileKernel Path Pid) (.createNew path) next).Safe
    (fileDiscipline Temp Good) Q
      past share := by
  intro s reply s' hinv hholds hanswers
  cases hanswers with
  | created h =>
      have hsettled := hinv.settled path hpath _ (hinv.current path)
      rw [h] at hsettled
      exact absurd hsettled htaken
  | alreadyExists h => exact ⟨_, keeps_refl hinv hholds, hfails _⟩
  | createFails => exact ⟨_, keeps_refl hinv hholds, hfails _⟩

theorem safe_writeAll {bytes : List UInt8}
    {next : Except ErrorKind Unit → Process (fileKernel Path Pid) α} (ht : share.temp = some t)
    (hwritten : (next (.ok ())).Safe (fileDiscipline Temp Good) Q
      (past ++ [FileCall.event (.writeAll t.file bytes) (.ok ())])
      { share with temp := some { t with content := ⟨t.content.bytes ++ bytes, false⟩ } })
    (hfails : ∀ n, (next (.error .other)).Safe (fileDiscipline Temp Good) Q
      (past ++ [FileCall.event (.writeAll t.file bytes) (.error .other)])
      { share with temp := some { t with content := ⟨t.content.bytes ++ bytes.take n, false⟩ } }) :
    (Process.call (K := fileKernel Path Pid) (.writeAll t.file bytes) next).Safe
      (fileDiscipline Temp Good) Q past share := by
  intro s reply s' hinv hholds hanswers
  have hfile := (hholds.owns t ht).file_eq
  cases hanswers with
  | written =>
      rw [← hfile] at hwritten
      exact ⟨_, keeps_setFile hinv hholds ht, hwritten⟩
  | writeFails n =>
      have hrest := hfails n
      rw [← hfile] at hrest
      exact ⟨_, keeps_setFile hinv hholds ht, hrest⟩

theorem safe_syncAll {next : Except ErrorKind Unit → Process (fileKernel Path Pid) α}
    (ht : share.temp = some t)
    (hsynced : (next (.ok ())).Safe (fileDiscipline Temp Good) Q
      (past ++ [FileCall.event (.syncAll t.file) (.ok ())])
      { share with temp := some { t with content := ⟨t.content.bytes, true⟩ } })
    (hfails : (next (.error .other)).Safe (fileDiscipline Temp Good) Q
      (past ++ [FileCall.event (.syncAll t.file) (.error .other)]) share) :
    (Process.call (K := fileKernel Path Pid) (.syncAll t.file) next).Safe
    (fileDiscipline Temp Good) Q
      past share := by
  intro s reply s' hinv hholds hanswers
  have hfile := (hholds.owns t ht).file_eq
  cases hanswers with
  | synced =>
      rw [← hfile] at hsynced
      exact ⟨_, keeps_setFile hinv hholds ht, hsynced⟩
  | syncFails => exact ⟨_, keeps_refl hinv hholds, hfails⟩

/-- **The rule for renaming**: the file has to be synced, and its bytes may stand at the target. -/
theorem safe_rename {target : Path} {next : Except ErrorKind Unit → Process (fileKernel Path Pid) α}
    (ht : share.temp = some t) (hsynced : t.content.synced = true) (htarget : ¬Temp target)
    (hgood : Good target (some t.content.bytes))
    (hrenamed : (next (.ok ())).Safe (fileDiscipline Temp Good) Q
      (past ++ [FileCall.event (.rename t.path target) (.ok ())]) { share with temp := none })
    (hfails : ∀ e, (next (.error e)).Safe (fileDiscipline Temp Good) Q
      (past ++ [FileCall.event (.rename t.path target) (.error e)]) share) :
    (Process.call (K := fileKernel Path Pid) (.rename t.path target) next).Safe
      (fileDiscipline Temp Good) Q past share := by
  intro s reply s' hinv hholds hanswers
  have howns := hholds.owns t ht
  cases hanswers with
  | renamed h _ =>
      have hmove := Disk.move_touches htarget howns.entry
      exact ⟨_, keeps_release hholds ht (hinv.move howns hsynced htarget hgood) hmove, hrenamed⟩
  | renameFails e => exact ⟨_, keeps_refl hinv hholds, hfails e⟩

theorem safe_remove {next : Except ErrorKind Unit → Process (fileKernel Path Pid) α}
    (ht : share.temp = some t)
    (hremoved : (next (.ok ())).Safe (fileDiscipline Temp Good) Q
      (past ++ [FileCall.event (.remove t.path) (.ok ())]) { share with temp := none })
    (hfails : ∀ e, (next (.error e)).Safe (fileDiscipline Temp Good) Q
      (past ++ [FileCall.event (.remove t.path) (.error e)]) share) :
    (Process.call (K := fileKernel Path Pid) (.remove t.path) next).Safe
    (fileDiscipline Temp Good) Q
      past share := by
  intro s reply s' hinv hholds hanswers
  have howns := hholds.owns t ht
  cases hanswers with
  | removed _ =>
      have hentry : ∀ i, none = some i → i = t.file :=
        fun _ hi => absurd hi.symm (Option.some_ne_none _)
      have htouches := Disk.link_touches Temp s t.path hentry
      exact ⟨_, keeps_release hholds ht (hinv.unlink howns.temp) htouches, hremoved⟩
  | removeFails e => exact ⟨_, keeps_refl hinv hholds, hfails e⟩

theorem safe_metadata {next : Except ErrorKind ℕ → Process (fileKernel Path Pid) α}
    (h : ∀ reply, (next reply).Safe (fileDiscipline Temp Good) Q
      (past ++ [FileCall.event (.metadata path) reply]) share) :
    (Process.call (K := fileKernel Path Pid) (.metadata path) next).Safe
    (fileDiscipline Temp Good) Q
      past share := by
  intro s reply s' hinv hholds hanswers
  cases hanswers with
  | measured _ => exact ⟨_, keeps_refl hinv hholds, h _⟩
  | metadataFails e => exact ⟨_, keeps_refl hinv hholds, h _⟩

theorem safe_exec {pid : Pid} {next : Unit → Process (fileKernel Path Pid) α}
    (h : (next ()).Safe (fileDiscipline Temp Good) Q
      (past ++ [FileCall.event (.exec pid) ()]) share) :
    (Process.call (K := fileKernel Path Pid) (.exec pid) next).Safe (fileDiscipline Temp Good) Q
      past share := by
  intro s reply s' hinv hholds hanswers
  cases hanswers
  exact ⟨_, keeps_memory hinv hholds _, h⟩

theorem safe_fetchAdd {pid : Pid} {next : UInt64 → Process (fileKernel Path Pid) α}
    (h : ∀ id, (next id).Safe (fileDiscipline Temp Good) Q
      (past ++ [FileCall.event (.fetchAdd pid) id]) share) :
    (Process.call (K := fileKernel Path Pid) (.fetchAdd pid) next).Safe (fileDiscipline Temp Good) Q
      past share := by
  intro s reply s' hinv hholds hanswers
  cases hanswers
  exact ⟨_, keeps_memory hinv hholds _, h _⟩

end

end

/-- What the name of a file that a process owns stands for. -/
theorem Disk.Owns.content {Temp : Path → Prop} {s : Disk Path Pid} {t : Owned Path}
    (h : s.Owns Temp t) : s.content t.path = some t.content.bytes := by
  rw [Disk.content, h.entry, Option.map_some, h.file_eq]

/-- **What a name that is not temporary stands for.** -/
theorem Disk.Inv.content {Temp : Path → Prop} {Good : Path → Option (List UInt8) → Prop}
    {s : Disk Path Pid} {path : Path} (h : s.Inv Temp Good) (hpath : ¬Temp path) :
    Good path (s.content path) := by
  have hsettled := h.settled path hpath _ (h.current path)
  rw [Disk.content]
  cases hentry : s.entries path with
  | none =>
      rw [hentry] at hsettled
      exact hsettled
  | some i =>
      rw [hentry] at hsettled
      exact hsettled.2.2

end Wire
