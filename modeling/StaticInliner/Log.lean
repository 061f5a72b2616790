/-!
Messages a run leaves behind, in the order in which they arise.
-/
namespace StaticInliner

inductive LogLevel where
  | error | warn | info | debug | trace
  deriving DecidableEq, Repr

namespace LogLevel

def text : LogLevel → String
  | .error => "ERROR"
  | .warn => "WARN"
  | .info => "INFO"
  | .debug => "DEBUG"
  | .trace => "TRACE"

/-- Smaller is more severe. -/
def rank : LogLevel → Nat
  | .error => 1
  | .warn => 2
  | .info => 3
  | .debug => 4
  | .trace => 5

end LogLevel

/-- The part of the program a message comes from. -/
inductive LogSource where
  | collection | inlining | run | command
  deriving DecidableEq, Repr

/-- The name of the part in displayed messages. -/
def LogSource.text : LogSource → String
  | .collection => "kiln_transform::collect"
  | .inlining => "kiln_transform::rewrite"
  | .run => "kiln_transform::pass"
  | .command => "kiln::commands::inline"

structure LogEntry where
  level : LogLevel
  source : LogSource
  message : String
  deriving DecidableEq, Repr

namespace LogEntry

/-- Level and message. -/
def line (entry : LogEntry) : String := entry.level.text ++ " " ++ entry.message

/-- As shown to the user: level padded to five characters, source, message. The
message goes on in lines indented by four blanks. -/
def display (entry : LogEntry) : String :=
  let level := entry.level.text
  "[" ++ level.pushn ' ' (5 - level.length) ++ " " ++ entry.source.text ++ "] " ++
    "\n    ".intercalate (entry.message.splitOn "\n")

end LogEntry

end StaticInliner
