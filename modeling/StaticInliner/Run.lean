import StaticInliner.Config.Basic
import StaticInliner.Definition.Collect
import StaticInliner.Diagnostic.Basic
import StaticInliner.Inline.Program

/-!
A run over a program. The program is validated first; then each target is
collected completely before its calls are expanded, and the scopes, names and
counts carry over from one target to the next.
-/
namespace StaticInliner

/-- What the collection of a target has to report. -/
def Target.diagnostics (target : Target) (table : DefinitionTable) (policy : DuplicatePolicy) :
    List Diagnostic :=
  match table.hostUnits with
  | [] =>
    [{ Diagnostic.ofCode .hostUnitNotFound
        ("no source unit ends with '" ++ target.host ++ "'") with
      help := some "calls to its functions are left as they are" }]
  | hostUnit :: _ =>
    let kept := match policy with
      | .lastWins => "the last definition is used"
      | .firstWins => "the first definition is used"
    let duplicates := table.duplicates.map fun d =>
      { Diagnostic.ofCode .duplicateDefinition
          ("'" ++ d.name.text ++ "' is defined " ++ toString d.occurrences ++ " times") with
        unit := some d.unitName
        help := some kept
        notes := [⟨some d.unitName, toString (d.occurrences - 1) ++ " assignment(s) ignored"⟩] }
    let missing := (target.functions.filter (!table.definesFunction ·)).map fun name =>
      { Diagnostic.ofCode .candidateNotFound ("'" ++ name ++ "' has no definition in the host") with
        unit := some hostUnit }
    duplicates ++ missing

/-- The counts with sorted keys. -/
def Stats.toJson (stats : Stats) : Json :=
  .obj [("collected", .ofNat stats.collected), ("inlined_block", .ofNat stats.inlinedBlock),
    ("inlined_direct", .ofNat stats.inlinedDirect), ("skipped", .ofNat stats.skipped),
    ("targets", .ofNat stats.targets)]

/-- A run in progress. -/
structure Run where
  program : Program
  ctx : Context
  diagnostics : Diagnostics
  log : List LogEntry
  fault : Option InlineFault

namespace Run

/-- The message at the end of a target. -/
def summary (target : Target) (table : DefinitionTable) (before after : Stats) : LogEntry :=
  ⟨.info, .run, target.host ++ ": " ++ toString table.size ++ " definition(s), " ++
    toString (after.inlined - before.inlined) ++ " call(s) inlined, " ++
    toString (after.skipped - before.skipped) ++ " left"⟩

/-- Collect and expand one target, unless the run has stopped. -/
def target (policy : DuplicatePolicy) (run : Run) (target : Target) : Run :=
  if run.fault.isSome then run
  else
    let collection := run.program.collect target.host target.functions policy
    let stats := run.ctx.stats
    let before := { stats with
      targets := stats.targets + 1, collected := stats.collected + collection.table.size }
    let expanded := run.program.expandCalls collection.table { run.ctx with stats := before }
    { program := expanded.program
      ctx := expanded.ctx
      diagnostics := run.diagnostics.append (target.diagnostics collection.table policy)
      log := run.log ++ collection.log ++ expanded.log ++
        if expanded.fault.isSome then []
        else [summary target collection.table before expanded.ctx.stats]
      fault := expanded.fault }

/-- Some body has changed. -/
def changed (run : Run) : Bool := !run.ctx.changes.isEmpty

end Run

/-- Run a configuration over a program. A malformed program is left alone. -/
def Config.run (config : Config) (program : Program) (supply : IdSupply) : Run :=
  match program.validate with
  | .error fault =>
    ⟨program, .ofProgram .empty supply, .empty, [], some (.malformed fault)⟩
  | .ok _ =>
    config.targets.foldl (Run.target config.policy)
      ⟨program, .ofProgram program supply, .empty, [], none⟩

end StaticInliner
