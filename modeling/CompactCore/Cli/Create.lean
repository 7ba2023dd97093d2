/-
**Commands that create files.**

`repair` and `metadata-migrate` never write to the file that they read: they make a new one of it,
under a name that must be free, and they take it away again when they cannot write it.

Main definitions:

* `CompactCore.Cli.repairMaker`, `CompactCore.Cli.migrateMaker` — what the commands make of a file;
* `CompactCore.Cli.Command.repair`, `CompactCore.Cli.Command.metadataMigrate` — the commands.

Main results:

* `CompactCore.Cli.session_creates` — **a command that is successful has put a complete file in
  place**, at a name that was free, and it stays there until the power fails;
* `CompactCore.Cli.repair_runs` — a repair that nothing gets in the way of succeeds.
-/

import CompactCore.Cli.Arguments
import CompactCore.Cli.Commands
import CompactCore.Storage.Repair

set_option relaxedAutoImplicit false
set_option autoImplicit false

namespace CompactCore.Cli

open Wire Files

/-! ### The commands -/

/-- `Context::context` of an error of the library. -/
def coreContext {α : Type} (text : String) : Result α → Except Failure α
  | .error e => .error (.context text (.core e))
  | .ok a => .ok a

section

variable [Crc32Fast] [Blake3]

def repairReview (source : List UInt8) : Except Failure (Except Failure (List UInt8)) :=
  (coreContext "file is not repairable" (Storage.Repair.plan source)).map fun plan =>
    coreContext "failed to execute repair plan" (Storage.Repair.execute source plan)

def repairMaker : Maker := ⟨repairReview, "failed to create repaired file"⟩

def Command.repair (input : Path) (output : Option Path) (dryRun : Bool) : Command :=
  .create repairMaker input output dryRun

variable [SerdeYaml]

def migrateReview (columnIds : List String) (source : List UInt8) :
    Except Failure (Except Failure (List UInt8)) := do
  let assignments ← parseMigrationAssignments columnIds
  let plan ← coreContext "metadata is not migratable" (Storage.Migration.plan source assignments)
  return coreContext "failed to execute metadata migration" (Storage.Migration.execute source plan)

def migrateMaker (columnIds : List String) : Maker :=
  ⟨migrateReview columnIds, "failed to create migrated metadata"⟩

def Command.metadataMigrate (columnIds : List String) (input : Path) (output : Option Path)
    (dryRun : Bool) : Command :=
  .create (migrateMaker columnIds) input output dryRun

end

/-! ### What the commands make -/

theorem coreContext_ok {α : Type} {text : String} {x : Result α} {a : α} :
    coreContext text x = .ok a ↔ x = .ok a := by
  cases x <;> simp [coreContext]

section

variable [Crc32Fast] [Blake3]

theorem repairReview_ok {source bytes : List UInt8} :
    repairReview source = .ok (.ok bytes) ↔
      ∃ plan, Storage.Repair.plan source = .ok plan ∧
        Storage.Repair.execute source plan = .ok bytes := by
  have hmap : ∀ plan, Except.ok (ε := Failure)
      (coreContext "failed to execute repair plan" (Storage.Repair.execute source plan)) =
        .ok (.ok bytes) ↔
        Storage.Repair.execute source plan = .ok bytes := by
    intro plan
    rw [Except.ok.injEq, coreContext_ok]
  rw [repairReview]
  cases Storage.Repair.plan source with
  | error e => simp only [coreContext, Except.map, reduceCtorEq, false_and, exists_false]
  | ok plan =>
      simp only [Except.ok.injEq, exists_eq_left']
      exact hmap plan

variable [SerdeYaml]

theorem migrateReview_ok {columnIds : List String} {source bytes : List UInt8} :
    migrateReview columnIds source = .ok (.ok bytes) ↔ ∃ assignments plan,
      parseMigrationAssignments columnIds = .ok assignments ∧
        Storage.Migration.plan source assignments = .ok plan ∧
          Storage.Migration.execute source plan = .ok bytes := by
  simp only [migrateReview, bind_ok, pure_ok, coreContext_ok]
  constructor
  · rintro ⟨assignments, hparse, plan, hplan, hmade⟩
    exact ⟨assignments, plan, hparse, hplan, hmade⟩
  · rintro ⟨assignments, plan, hparse, hplan, hmade⟩
    exact ⟨assignments, hparse, plan, hplan, hmade⟩

variable [SerdeJson] {Runs : UInt32 → Command → Prop}

/-- **A command that is successful has put a complete file in place.**  While other commands run,
fail or are killed, the output of a repair or of a migration is what the library makes of a version
of the input, from the exit of the command until the power fails; and no file of its name has been
there before. -/
theorem session_creates {disk : Disk Path UInt32}
    {world world' : World Os UInt32 Command (Except Failure Unit)} (hdisk : Quiescent disk)
    (hnames : NamesKept disk.content Runs) (hsession : Session Runs disk world)
    (hlater : Later Runs world world') {pid : UInt32} {past : List Os.Event} {input output : Path} :
    (world.threads pid = some ⟨.repair input (some output) false, past, .done (.ok ())⟩ →
      ∃ source plan repaired, Version disk.content Runs input (some source) ∧
        Storage.Repair.plan source = .ok plan ∧ Storage.Repair.execute source plan = .ok repaired ∧
          world'.state.content output = some repaired ∧
            (¬output.IsTemporary → disk.content output = none)) ∧
      ∀ columnIds, world.threads pid =
          some ⟨.metadataMigrate columnIds input (some output) false, past, .done (.ok ())⟩ →
        ∃ source assignments plan migrated, Version disk.content Runs input (some source) ∧
          parseMigrationAssignments columnIds = .ok assignments ∧
            Storage.Migration.plan source assignments = .ok plan ∧
              Storage.Migration.execute source plan = .ok migrated ∧
                world'.state.content output = some migrated ∧
                  (¬output.IsTemporary → disk.content output = none) := by
  constructor
  · intro hend
    obtain ⟨source, bytes, hversion, hreview, hcontent, hnew⟩ :=
      hsession.created hdisk hnames hend hlater
    obtain ⟨plan, hplan, hexecute⟩ := repairReview_ok.1 hreview
    exact ⟨source, plan, bytes, hversion, hplan, hexecute, hcontent, hnew⟩
  · intro columnIds hend
    obtain ⟨source, bytes, hversion, hreview, hcontent, hnew⟩ :=
      hsession.created hdisk hnames hend hlater
    obtain ⟨assignments, plan, hparse, hplan, hexecute⟩ := migrateReview_ok.1 hreview
    exact ⟨source, assignments, plan, bytes, hversion, hparse, hplan, hexecute, hcontent, hnew⟩

/-! ### A repair that nothing gets in the way of -/

omit [Crc32Fast] [Blake3] [SerdeYaml] [SerdeJson] in
theorem writeNewFile_runs {disk : Disk Path UInt32} {output : Path} (bytes : List UInt8)
    (hfree : disk.entries output = none) :
    ∃ disk' events, (writeNewFile output bytes).Runs disk disk' events (.ok ()) :=
  ⟨_, _, .call (.created hfree) (.call .written (.call .synced .done))⟩

omit [SerdeYaml] in
/-- **A repair that nothing gets in the way of succeeds.** -/
theorem repair_runs {disk : Disk Path UInt32} (pid : UInt32) {input output : Path}
    {source repaired : List UInt8} (hsource : disk.content input = some source)
    (hreview : repairReview source = .ok (.ok repaired)) (hfree : disk.entries output = none) :
    ∃ disk' events, (Command.program pid (.repair input (some output) false)).Runs disk disk' events
      (.ok ()) := by
  let started := { disk with counters := Function.update disk.counters pid 0 }
  obtain ⟨i, hentry, rfl⟩ : ∃ i, disk.entries input = some i ∧ (disk.file i).bytes = source := by
    rw [Disk.content, Option.map_eq_some_iff] at hsource
    exact hsource
  have hstarted : started.entries output = none := hfree
  obtain ⟨disk', events, hwrite⟩ := writeNewFile_runs repaired hstarted
  have hcreate : ∃ events, (createFile repairMaker (started.file i).bytes (some output) false).Runs
      started disk' events (.ok ()) := by
    have hmake : repairMaker.review (started.file i).bytes = .ok (.ok repaired) := hreview
    unfold createFile
    rw [hmake]
    exact ⟨_, hwrite.bind .done⟩
  obtain ⟨_, hcreate⟩ := hcreate
  have hread : (fsRead input).Runs started started _ (.ok (started.file i).bytes) :=
    .call (.opened hentry) (.call .gotten .done)
  exact ⟨disk', _, .call .execed (hread.bind hcreate)⟩

end

/-! ### A stream that is repaired -/

open scoped CompactCore.Reference CompactCore.Storage.Migration.Sample

def tornPath : Path := ⟨some "data", some "torn.cmp"⟩

def wholePath : Path := ⟨some "data", some "whole.cmp"⟩

/-- A stream that ends behind its header. -/
def tornStream : List UInt8 := Streaming.writeStreamHeader

/-- One command: the repair of that stream. -/
def RepairsTorn (_ : UInt32) (command : Command) : Prop :=
  command = .repair tornPath (some wholePath) false

theorem tornPath_kept : ¬tornPath.IsTemporary := by
  refine Path.not_isTemporary fun name h => ?_
  cases h
  decide

theorem namesKept_repair : NamesKept (oneFile tornPath tornStream).content RepairsTorn := by
  rintro pid _ rfl
  refine ⟨?_, nofun⟩
  rintro (htemporary | ⟨hnone, -⟩)
  · exact tornPath_kept htemporary
  · exact absurd (hnone.symm.trans (content_oneFile tornPath tornStream)) nofun

/-- The repair runs to its end. -/
theorem session_repair :
    ∃ (world : World Os UInt32 Command (Except Failure Unit)) (past : List Os.Event),
      Session RepairsTorn (oneFile tornPath tornStream) world ∧ world.threads 1 =
        some ⟨.repair tornPath (some wholePath) false, past, .done (.ok ())⟩ := by
  obtain ⟨plan, hplan, hexecute⟩ := Reference.exists_ok (x := Storage.Repair.plan tornStream)
    (fun plan => (Storage.Repair.execute tornStream plan).toOption.isSome = true)
    (by decide +kernel)
  obtain ⟨repaired, hrepaired⟩ := Option.isSome_iff_exists.1 hexecute
  have hreview := repairReview_ok.2 ⟨plan, hplan, toOption_eq_some.1 hrepaired⟩
  have hfree : (oneFile tornPath tornStream).entries wholePath = none := by
    rw [oneFile_entries, if_neg (by decide)]
  obtain ⟨disk, events, hruns⟩ := repair_runs 1 (content_oneFile _ _) hreview hfree
  refine ⟨_, events, World.reachable_of_runs ⟨rfl, rfl⟩ hruns, ?_⟩
  dsimp only
  rw [Function.update_self]

/-- The repaired stream is there, also when its process has been forgotten. -/
theorem session_creates_repair :
    ∃ (world : World Os UInt32 Command (Except Failure Unit)) (source repaired : List UInt8)
      (plan : Storage.Repair.RepairPlan),
      Version (oneFile tornPath tornStream).content RepairsTorn tornPath (some source) ∧
        Storage.Repair.plan source = .ok plan ∧ Storage.Repair.execute source plan = .ok repaired ∧
          world.threads 1 = none ∧ world.state.content wholePath = some repaired := by
  obtain ⟨world, past, hsession, hend⟩ := session_repair
  have hlater : Later RepairsTorn world ⟨world.state, Function.update world.threads 1 none⟩ :=
    .single (.kill 1)
  obtain ⟨source, plan, repaired, hversion, hplan, hexecute, hcontent, -⟩ :=
    (session_creates (quiescent_oneFile _ _) namesKept_repair hsession hlater).1 hend
  refine ⟨_, source, repaired, plan, hversion, hplan, hexecute, ?_, hcontent⟩
  dsimp only
  rw [Function.update_self]

end CompactCore.Cli
