import StaticInliner.CommandLine.Options
import StaticInliner.CommandLine.Session
import StaticInliner.Config.Toml
import StaticInliner.Diagnostic.Explanation
import StaticInliner.Diagnostic.Report
import StaticInliner.Run
import StaticInliner.Syntax.Encoding
import StaticInliner.Syntax.Printer
import StaticInliner.Text.Uppercase

/-!
The commands as dialogues. A command that fails does so with a message. Only the
program goes to the printed output; messages, diagnostics and the summary are
reported, in this order.
-/
namespace StaticInliner

/-- A dialogue that may fail with a message. -/
abbrev Attempt := ExceptT String Session

namespace Attempt

def print (text : String) : Attempt Unit := .mk (.print text (.done (.ok ())))

def report (text : String) : Attempt Unit := .mk (.report text (.done (.ok ())))

def isFile (path : String) : Attempt Bool := .mk (.isFile path fun answer => .done (.ok answer))

/-- A value, or failure if there is none. -/
def require (value : Option α) (message : String) : Attempt α :=
  match value with
  | some value => pure value
  | none => throw message

def read (path message : String) : Attempt String :=
  .mk <| .read path fun
    | some text => .done (.ok text)
    | none => .done (.error message)

def write (path text message : String) : Attempt Unit :=
  .mk <| .write path text fun
    | true => .done (.ok ())
    | false => .done (.error message)

end Attempt

namespace Invocation

/-- Report the messages severe enough to be shown. -/
def log (invocation : Invocation) (entries : List LogEntry) : Attempt Unit :=
  Attempt.report <| String.join <|
    (entries.filter (·.level.rank ≤ invocation.level.rank)).map (·.display ++ "\n")

def report (invocation : Invocation) (diagnostics : Diagnostics) : Attempt Unit :=
  Attempt.report <|
    match invocation.format with
    | .text => diagnostics.plainText
    | .json => diagnostics.jsonLines

end Invocation

/-- The configuration file looked for in the working directory. -/
def Config.defaultFile : String := "kiln.toml"

/-- The configuration in a file; it has to name a target. -/
def Invocation.readConfig (invocation : Invocation) (path : String) : Attempt Config := do
  let text ← Attempt.read path ("failed to read config " ++ path)
  let config ← Attempt.require (Config.ofToml? text) ("invalid config " ++ path)
  if config.targets.isEmpty then throw (path ++ " declares no [[target]]")
  invocation.log [⟨.debug, .command,
    "loaded " ++ toString config.targets.length ++ " target(s) from " ++ path⟩]
  return config

/-- The configuration asked for, else the one in the working directory, else the
helpers of the J2CL runtime. -/
def Invocation.config (invocation : Invocation) (directory : String) (path : Option String) :
    Attempt Config := do
  match path with
  | some path => invocation.readConfig path
  | none =>
    let path := directory ++ "/" ++ Config.defaultFile
    if ← Attempt.isFile path then invocation.readConfig path
    else
      invocation.log [⟨.debug, .command, "no " ++ Config.defaultFile ++ ", using J2CL defaults"⟩]
      return .j2cl

/-- How the text of a program file is read. -/
def Program.fileRules : Json.TextRules := ⟨127, .scaled⟩

/-- The program in the text of a file. -/
def Program.ofText? (text : String) : Option Program := do
  ofJson? .positional (← Json.parse? fileRules text)

def Program.render (program : Program) : ProgramForm → String
  | .json => program.toJson.pretty 0 ++ "\n"
  | .source => program.source

namespace Run

def plainSummary (run : Run) : String :=
  let stats := run.ctx.stats
  "Inlined " ++ toString stats.inlined ++ " call(s) (" ++ toString stats.inlinedDirect ++
    " direct, " ++ toString stats.inlinedBlock ++ " block)\n  " ++
    toString stats.targets ++ " target(s), " ++ toString stats.collected ++
    " definition(s) collected, " ++ toString stats.skipped ++ " call(s) left in place\n  " ++
    toString run.ctx.changes.size ++ " body(ies) changed\n"

def jsonSummary (run : Run) : String :=
  (Json.obj [("changed", .bool run.changed), ("changes", run.ctx.changes.toJson),
    ("hints", .ofNat (run.diagnostics.count .hint)), ("stats", run.ctx.stats.toJson),
    ("type", .str "summary"),
    ("warnings", .ofNat (run.diagnostics.count .warning))]).compact ++ "\n"

end Run

/-- Write what a completed run has made of the program, then report on it. -/
def Invocation.finish (invocation : Invocation) (request : InlineRequest) (run : Run) :
    Attempt Unit := do
  let text := run.program.render request.form
  match request.output with
  | some path => Attempt.write path text ("failed to write " ++ path)
  | none => Attempt.print text
  if !invocation.quiet || run.diagnostics.hasErrors then invocation.report run.diagnostics
  if !invocation.quiet then
    Attempt.report <|
      match invocation.format with
      | .text => run.plainSummary
      | .json => run.jsonSummary
  let warnings := run.diagnostics.count .warning
  if request.strict && warnings > 0 then throw (toString warnings ++ " warning(s) with --strict")

def Invocation.inline (invocation : Invocation) (directory : String) (request : InlineRequest) :
    Attempt Unit := do
  let config ← invocation.config directory request.config
  let config := if request.firstWins then { config with policy := .firstWins } else config
  let text ← Attempt.read request.input ("failed to read " ++ request.input)
  let program ←
    Attempt.require (Program.ofText? text) (request.input ++ " is not a serialized program")
  let run := config.run program .counter
  invocation.log run.log
  match run.fault with
  | none => invocation.finish request run
  | some fault =>
    invocation.report <| Diagnostics.empty.append
      [{ Diagnostic.ofCode .internalError fault.message with unit := some request.input }]
    throw ("inlining failed: " ++ fault.message)

def Invocation.explain (invocation : Invocation) (text : String) : Attempt Unit := do
  let code := uppercase text
  let code ← Attempt.require (DiagnosticCode.all.find? (·.text == code))
    ("Unknown diagnostic code: " ++ code)
  Attempt.print <|
    match invocation.format with
    | .text => code.explainPlain
    | .json => code.explainJson

/-- The dialogue of an invocation in a working directory; it ends in the exit code. -/
def Invocation.session (invocation : Invocation) (directory : String) : Session Nat := do
  let attempt := match invocation.command with
    | .inline request => invocation.inline directory request
    | .explain code => invocation.explain code
  match ← attempt.run with
  | .ok _ => return 0
  | .error message => .report ("Error: " ++ message ++ "\n") (.done 1)

namespace Stop

def usage : String :=
  "Usage: kiln [OPTIONS] inline <INPUT> [-c <CONFIG>] [--emit json|js] [-o <OUTPUT>]\n" ++
  "                              [--first-wins] [--strict]\n" ++
  "       kiln [OPTIONS] explain <CODE>\n" ++
  "Options: --format text|json, -v, -q, --no-color, -h, -V\n"

/-- The line that names the program, or the command of it, and the version. -/
def versionLine (command : Option CommandName) : String :=
  match command with
  | none => "kiln 0.1.0\n"
  | some command => "kiln-" ++ command.text ++ " 0.1.0\n"

def session : Stop → Session Nat
  | .refused => .report usage (.done 2)
  | .help => .print usage (.done 0)
  | .version command => .print (versionLine command) (.done 0)

end Stop

/-- The dialogue for an argument list. -/
def Session.ofArgs (args : List String) (directory : String) : Session Nat :=
  match Invocation.ofArgs args with
  | .ok invocation => invocation.session directory
  | .error stop => stop.session

end StaticInliner
