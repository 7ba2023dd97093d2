/-
**Outputs that are written under a temporary name.**

The command line tool writes an output to a temporary file next to it, syncs that file and renames
it.  Its name is made of the name of the output, of the number of the process and of a counter, and
the tool tries another one if it is taken.  Other outputs are new files: these are written in place,
and taken away again if they cannot be written.

Here the programs are those of the source, over calls that the operating system may answer as it
likes.  They keep to the discipline of `Wire/Files.lean`, so an output is never seen in parts under
a name that others read; and the result says what has been done: with a temporary file, it is
successful precisely when the last call has renamed the file.

Main definitions:

* `CompactCore.Cli.Path`, `CompactCore.Cli.Path.temporarySibling` — names, and temporary names;
* `CompactCore.Cli.createTemporarySibling`, `CompactCore.Cli.atomicWriteWith`,
  `CompactCore.Cli.atomicWriteBytes` — a file that is replaced;
* `CompactCore.Cli.writeNewFile` — a file that is created;
* `CompactCore.Cli.Exits` — what a result says of the calls that have been made.

Main results:

* `CompactCore.Cli.safe_atomicWriteWith` — **the program keeps to the discipline**, if what its
  operation makes may stand at the output;
* `CompactCore.Cli.safe_writeNewFile` — so does the other one, at a name that nobody reads.
-/

import CompactCore.Core
import CompactCore.Wire.Files

set_option relaxedAutoImplicit false
set_option autoImplicit false

namespace CompactCore.Cli

open Wire Files

/-! ### Names -/

/-- A path, as `Path::parent` and `Path::file_name` take it apart. -/
structure Path where
  parent : Option String
  fileName : Option String
  deriving DecidableEq, Repr

/-- The name that the tool tries for a temporary file. -/
def Path.temporarySibling (output : Path) (pid : UInt32) (id : UInt64) : Path :=
  let parent := output.parent.getD "."
  let name := output.fileName.getD "compact-output"
  ⟨some parent, some s!".{name}.{pid}.{id}.tmp"⟩

/-- A name that the tool tries, in some process. -/
def Path.IsTemporary (path : Path) : Prop :=
  ∃ (output : Path) (pid : UInt32) (id : UInt64), path = output.temporarySibling pid id

/-- A name that does not end in `.tmp` is no temporary name. -/
theorem Path.not_isTemporary {path : Path}
    (h : ∀ name, path.fileName = some name → ¬".tmp".toList <:+ name.toList) :
    ¬path.IsTemporary := by
  rintro ⟨output, pid, id, rfl⟩
  refine h _ rfl ?_
  simp only [toString, String.toList_append]
  exact List.suffix_append ..

/-- A path, as it is printed. -/
def Path.display (path : Path) : String :=
  match path.parent, path.fileName with
  | some parent, some name => if parent = "" then name else s!"{parent}/{name}"
  | some parent, none => parent
  | none, name => name.getD ""

/-! ### Programs -/

abbrev Os : Kernel := fileKernel Path UInt32

abbrev Program (α : Type) : Type := Process Os α

/-- An error of the tool. -/
inductive Failure
  | io (kind : ErrorKind)
  | core (error : CompactError)
  | message (text : String)
  | context (text : String) (cause : Failure)
  deriving DecidableEq

def createTemporarySibling (pid : UInt32) (output : Path) : Program (Except Failure (Path × ℕ)) :=
  attempts 32
where
  attempts : ℕ → Program (Except Failure (Path × ℕ))
    | 0 => return .error (.message "failed to allocate a unique temporary output path")
    | n + 1 => do
        let id ← ask (.fetchAdd pid)
        let path := output.temporarySibling pid id
        match ← ask (.createNew path) with
        | .ok file => return .ok (path, file)
        | .error .alreadyExists => attempts n
        | .error e => return .error (.context s!"failed to create {path.display}" (.io e))

/-- What follows the operation, if it is successful.  Flushing a file does nothing, so the source's
call of `flush` is left out. -/
def andSync (temporary : ℕ) : Except Failure Unit → Program (Except Failure Unit)
  | .error e => return .error e
  | .ok () => do
      match ← ask (.syncAll temporary) with
      | .ok () => return .ok ()
      | .error e => return .error (.context "failed to sync temporary output" (.io e))

def atomicWriteWith (pid : UInt32) (output : Path) (operation : ℕ → Program (Except Failure Unit)) :
    Program (Except Failure Unit) := do
  match ← createTemporarySibling pid output with
  | .error e => return .error e
  | .ok (temporaryPath, temporary) =>
      let result ← operation temporary
      match ← andSync temporary result with
      | .error e =>
          let _ ← ask (.remove temporaryPath)
          return .error e
      | .ok () =>
          match ← ask (.rename temporaryPath output) with
          | .ok () => return .ok ()
          | .error e =>
              let _ ← ask (.remove temporaryPath)
              return .error (.context s!"failed to replace {output.display}" (.io e))

def atomicWriteBytes (pid : UInt32) (output : Path) (bytes : List UInt8) :
    Program (Except Failure Unit) :=
  atomicWriteWith pid output fun file => do
    match ← ask (.writeAll file bytes) with
    | .ok () => return .ok ()
    | .error e => return .error (.io e)

/-- What `write_new_file` does when it cannot write its file. -/
def removeNewFile (output : Path) (e : ErrorKind) : Program (Except Failure Unit) := do
  let _ ← ask (.remove output)
  return .error (.context s!"failed to write {output.display}" (.io e))

def writeNewFile (output : Path) (bytes : List UInt8) : Program (Except Failure Unit) := do
  match ← ask (.createNew output) with
  | .error e =>
      return .error
        (.context s!"output already exists or cannot be created: {output.display}" (.io e))
  | .ok file =>
      match ← ask (.writeAll file bytes) with
      | .error e => removeNewFile output e
      | .ok () =>
          match ← ask (.syncAll file) with
          | .error e => removeNewFile output e
          | .ok () => return .ok ()

/-! ### What the calls of a program do -/

/-- A call that has created a file under this name. -/
def Creates (path : Path) (event : Os.Event) : Prop :=
  ∃ file, event = FileCall.event (.createNew path) (.ok file)

/-- A call that has renamed a file. -/
def Renames (source target : Path) (event : Os.Event) : Prop :=
  event = FileCall.event (.rename source target) (.ok ())

/-- Calls that neither create nor rename a file. -/
def Quiet (events : List Os.Event) : Prop :=
  ∀ event ∈ events, (∀ path, ¬Creates path event) ∧ ∀ source target, ¬Renames source target event

/-- What a call has written to a file. -/
def writes (file : ℕ) : Os.Event → List UInt8
  | ⟨.writeAll file' bytes, .ok ()⟩ => if file' = file then bytes else []
  | _ => []

/-- What some calls have written to a file. -/
def written (file : ℕ) (events : List Os.Event) : List UInt8 := events.flatMap (writes file)

/-- **What a result says.**  A program that is successful has created one file under a temporary
name, has written to it and synced it, and its last call has given that file the name of the output.
A program that fails has renamed nothing, and if it has created a file, its last call asks for its
removal. -/
inductive Exits (Makes : List UInt8 → Prop) (output : Path) :
    List Os.Event → Except Failure Unit → Prop
  | replaced {before between : List Os.Event} {temporary : Path} {file : ℕ}
      (before_quiet : Quiet before) (name : temporary.IsTemporary) (between_quiet : Quiet between)
      (makes : Makes (written file between)) :
      Exits Makes output
        (before ++ FileCall.event (.createNew temporary) (.ok file) :: between ++
          [FileCall.event (.syncAll file) (.ok ()), FileCall.event (.rename temporary output)
            (.ok ())])
        (.ok ())
  | refused {events : List Os.Event} {e : Failure} (quiet : Quiet events) :
      Exits Makes output events (.error e)
  | cleaned {before between : List Os.Event} {temporary : Path} {file : ℕ}
      {answer : Except ErrorKind Unit} {e : Failure} (before_quiet : Quiet before)
      (between_quiet : Quiet between) :
      Exits Makes output
        (before ++ FileCall.event (.createNew temporary) (.ok file) :: between ++
          [FileCall.event (.remove temporary) answer])
        (.error e)

theorem written_append (file : ℕ) (events more : List Os.Event) :
    written file (events ++ more) = written file events ++ written file more :=
  List.flatMap_append

theorem written_writeAll (file : ℕ) (bytes : List UInt8) :
    written file [FileCall.event (.writeAll file bytes) (.ok ())] = bytes := by
  change (if file = file then bytes else []) ++ [] = bytes
  rw [if_pos rfl, List.append_nil]

theorem quiet_nil : Quiet [] := fun _ h => absurd h List.not_mem_nil

theorem Quiet.append {events more : List Os.Event} (h : Quiet events) (hmore : Quiet more) :
    Quiet (events ++ more) := fun event hevent =>
  (List.mem_append.1 hevent).elim (h event) (hmore event)

/-- Any other call is quiet. -/
theorem quiet_event (call : FileCall Path UInt32) (reply : call.Reply)
    (hcreate : ∀ path, call ≠ .createNew path)
    (hrename : ∀ source target, call ≠ .rename source target) :
    Quiet [call.event reply] := by
  intro event hevent
  rw [List.mem_singleton.1 hevent]
  refine ⟨?_, ?_⟩
  · rintro path ⟨file, h⟩
    exact hcreate path (congrArg Sigma.fst h)
  · intro source target h
    exact hrename source target (congrArg Sigma.fst h)

/-- So is one that fails. -/
theorem quiet_createFails (path : Path) (e : ErrorKind) :
    Quiet [FileCall.event (.createNew path) (.error e)] := by
  intro event hevent
  rw [List.mem_singleton.1 hevent]
  refine ⟨?_, ?_⟩
  · rintro path' ⟨file, h⟩
    cases h
  · intro source target h
    cases h

theorem quiet_renameFails (source target : Path) (e : ErrorKind) :
    Quiet [FileCall.event (.rename source target) (.error e)] := by
  intro event hevent
  rw [List.mem_singleton.1 hevent]
  refine ⟨?_, ?_⟩
  · rintro path ⟨file, h⟩
    cases h
  · intro source' target' h
    cases h

/-- No call has given a file another name. -/
def NoRename (events : List Os.Event) : Prop :=
  ∀ event ∈ events, ∀ source target, ¬Renames source target event

theorem Quiet.noRename {events : List Os.Event} (h : Quiet events) : NoRename events :=
  fun event hevent => (h event hevent).2

theorem NoRename.snoc {events : List Os.Event} (h : NoRename events) (call : FileCall Path UInt32)
    (reply : call.Reply) (hrename : ∀ source target, call ≠ .rename source target) :
    NoRename (events ++ [call.event reply]) := by
  intro event hevent source target hrenames
  rcases List.mem_append.1 hevent with hevent | hevent
  · exact h event hevent source target hrenames
  · rw [List.mem_singleton.1 hevent] at hrenames
    exact hrename source target (congrArg Sigma.fst hrenames)

/-! ### The program keeps to the discipline -/

section

variable {Temp : Path → Prop} {Good : Path → Option (List UInt8) → Prop} {share : FileShare Path}
  {past : List Os.Event} {pid : UInt32} {output : Path}

/-- A temporary file is new, and it is empty. -/
theorem safe_createTemporarySibling (htemp : ∀ path, path.IsTemporary → Temp path)
    (hpast : Quiet past) :
    (createTemporarySibling pid output).Safe (fileDiscipline Temp Good)
      (fun past' share' result =>
        match result with
        | .error _ => Quiet past'
        | .ok (path, file) => ∃ before,
            past' = before ++ [FileCall.event (.createNew path) (.ok file)] ∧ Quiet before ∧
              path.IsTemporary ∧ share' = { share with temp := some ⟨path, file, ⟨[], false⟩⟩ })
      past share := by
  suffices h : ∀ n past, Quiet past →
      (createTemporarySibling.attempts pid output n).Safe (fileDiscipline Temp Good)
        (fun past' share' result =>
          match result with
          | .error _ => Quiet past'
          | .ok (path, file) => ∃ before,
              past' = before ++ [FileCall.event (.createNew path) (.ok file)] ∧ Quiet before ∧
                path.IsTemporary ∧ share' = { share with temp := some ⟨path, file, ⟨[], false⟩⟩ })
        past share from h 32 past hpast
  intro n
  induction n with
  | zero =>
      intro past hpast
      exact hpast
  | succ n ih =>
      intro past hpast
      rw [createTemporarySibling.attempts]
      refine safe_fetchAdd fun id => ?_
      have hquiet := hpast.append (quiet_event (.fetchAdd pid) id nofun nofun)
      have hname : (output.temporarySibling pid id).IsTemporary := ⟨output, pid, id, rfl⟩
      refine safe_createNew (htemp _ hname) (fun file => ?_) fun e => ?_
      · exact ⟨_, rfl, hquiet, hname, rfl⟩
      · have hfails := hquiet.append (quiet_createFails (output.temporarySibling pid id) e)
        cases e with
        | alreadyExists => exact ih _ hfails
        | notFound => exact hfails
        | other => exact hfails

/-- **The program keeps to the discipline**, if what its operation makes may stand at the output. -/
theorem safe_atomicWriteWith {operation : ℕ → Program (Except Failure Unit)}
    {Makes : List UInt8 → Prop} (htemp : ∀ path, path.IsTemporary → Temp path) (hpast : Quiet past)
    (houtput : ¬Temp output) (hgood : ∀ bytes, Makes bytes → Good output (some bytes))
    (hoperation : ∀ path file past,
      (operation file).Safe (fileDiscipline Temp Good)
        (fun past' share' result => ∃ more content, past' = past ++ more ∧ Quiet more ∧
          share' = { share with temp := some ⟨path, file, content⟩ } ∧
          (result = .ok () → written file more = content.bytes ∧ Makes content.bytes))
        past { share with temp := some ⟨path, file, ⟨[], false⟩⟩ }) :
    (atomicWriteWith pid output operation).Safe (fileDiscipline Temp Good)
      (fun past' _ result => Exits Makes output past' result) past share := by
  rw [atomicWriteWith]
  refine (safe_createTemporarySibling htemp hpast).bind ?_
  rintro past' share' (e | ⟨path, file⟩) hcreate
  · exact .refused hcreate
  · obtain ⟨before, rfl, hbefore, hname, rfl⟩ := hcreate
    refine (hoperation path file _).bind ?_
    rintro past' share' result ⟨more, content, rfl, hmore, rfl, hmakes⟩
    have hclean : ∀ (between : List Os.Event) (e : Failure) (content : File), Quiet between →
        ((ask (.remove path) >>= fun _ => return .error e : Program (Except Failure Unit))).Safe
          (fileDiscipline Temp Good) (fun past' _ result => Exits Makes output past' result)
          (before ++ FileCall.event (.createNew path) (.ok file) :: between)
          { share with temp := some ⟨path, file, content⟩ } := by
      intro between e content hbetween
      exact safe_remove (t := ⟨path, file, content⟩) rfl (.cleaned hbefore hbetween)
        fun _ => .cleaned hbefore hbetween
    rw [List.append_assoc, List.singleton_append]
    cases result with
    | error e => exact hclean more e content hmore
    | ok =>
        obtain ⟨hwritten, hmakes⟩ := hmakes rfl
        have hsync (reply : Except ErrorKind Unit) :=
          hmore.append (quiet_event (.syncAll file) reply nofun nofun)
        refine safe_syncAll (t := ⟨path, file, content⟩) rfl ?_ ?_
        · refine safe_rename (t := ⟨path, file, ⟨content.bytes, true⟩⟩) rfl rfl houtput
            (hgood _ hmakes) ?_ fun e => ?_
          · rw [List.append_assoc]
            exact .replaced hbefore hname hmore (hwritten ▸ hmakes)
          · rw [List.append_assoc, List.append_assoc, List.cons_append]
            exact hclean _ _ _ (hmore.append
              ((quiet_event (.syncAll file) _ nofun nofun).append
                (quiet_renameFails path output e)))
        · rw [List.append_assoc, List.cons_append]
          exact hclean _ _ content (hsync _)

/-- What a new file holds when it has been written; nobody else has its name. -/
def Made (output : Path) (bytes : List UInt8) (share : FileShare Path) : Prop :=
  ∃ file, share.temp = some ⟨output, file, ⟨bytes, true⟩⟩

/-- **A new file is complete when the program is successful**, and there was none of its name. -/
theorem safe_writeNewFile {bytes : List UInt8} (htemp : Temp output) (hpast : NoRename past) :
    (writeNewFile output bytes).Safe (fileDiscipline Temp Good)
      (fun past' share' result => NoRename past' ∧ (result = .ok () → Made output bytes share'))
      past share := by
  have hremove : ∀ (e : ErrorKind) (past : List Os.Event) (file : ℕ) (content : File),
      NoRename past → (removeNewFile output e).Safe (fileDiscipline Temp Good)
        (fun past' share' result => NoRename past' ∧ (result = .ok () → Made output bytes share'))
        past { share with temp := some ⟨output, file, content⟩ } := by
    intro e past file content hpast
    have hremoved (reply : Except ErrorKind Unit) := hpast.snoc (.remove output) reply nofun
    exact safe_remove (t := ⟨output, file, content⟩) rfl ⟨hremoved _, nofun⟩
      fun _ => ⟨hremoved _, nofun⟩
  have hcreated (reply : Except ErrorKind ℕ) := hpast.snoc (.createNew output) reply nofun
  refine safe_createNew htemp (fun file => ?_) fun _ => ⟨hcreated _, nofun⟩
  have hwritten (reply : Except ErrorKind Unit) :=
    (hcreated (.ok file)).snoc (.writeAll file bytes) reply nofun
  refine safe_writeAll (t := ⟨output, file, ⟨[], false⟩⟩) rfl ?_ fun n =>
    hremove _ _ _ _ (hwritten _)
  have hsynced (reply : Except ErrorKind Unit) :=
    (hwritten (.ok ())).snoc (.syncAll file) reply nofun
  refine safe_syncAll (t := ⟨output, file, ⟨bytes, false⟩⟩) rfl ?_ (hremove _ _ _ _ (hsynced _))
  exact ⟨hsynced _, fun _ => ⟨file, rfl⟩⟩

/-- A name that always stands for something is left alone. -/
theorem safe_writeNewFile_taken {bytes : List UInt8} (houtput : ¬Temp output)
    (htaken : ¬Good output none) (hpast : NoRename past) :
    (writeNewFile output bytes).Safe (fileDiscipline Temp Good)
      (fun past' _ result => NoRename past' ∧ result ≠ .ok ()) past share :=
  safe_createNew_taken houtput htaken fun _ => ⟨hpast.snoc (.createNew output) _ nofun, nofun⟩

end

end CompactCore.Cli
