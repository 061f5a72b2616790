import StaticInliner.Log

/-!
Arguments of the command line. Options common to all commands may stand before
or after the command; one given after it takes precedence. Arguments are read
from left to right, and the first that asks for help or the version, or cannot
be understood, decides. A value that stands before the command, in an argument
of its own, is judged only when the next flag there or the end of the arguments
is reached; the command may ask for help before that.
-/
namespace StaticInliner

/-- The form of reports and explanations. -/
inductive ReportFormat where
  | text | json
  deriving DecidableEq, Repr

/-- The form in which a program is written. -/
inductive ProgramForm where
  | json | source
  deriving DecidableEq, Repr

inductive Flag where
  | format | verbose | quiet | noColor | help | version
  | config | emit | output | firstWins | strict
  deriving DecidableEq, Repr

namespace Flag

/-- Flags understood everywhere. -/
def common : List Flag := [.format, .verbose, .quiet, .noColor, .help, .version]

/-- Flags of the inlining command. -/
def inlining : List Flag := common ++ [.config, .emit, .output, .firstWins, .strict]

def long : Flag → String
  | .format => "format"
  | .verbose => "verbose"
  | .quiet => "quiet"
  | .noColor => "no-color"
  | .help => "help"
  | .version => "version"
  | .config => "config"
  | .emit => "emit"
  | .output => "output"
  | .firstWins => "first-wins"
  | .strict => "strict"

def short? : Flag → Option Char
  | .verbose => some 'v'
  | .quiet => some 'q'
  | .help => some 'h'
  | .version => some 'V'
  | .config => some 'c'
  | .output => some 'o'
  | _ => none

/-- Whether a flag is followed by a value. -/
def takesValue : Flag → Bool
  | .format | .config | .emit | .output => true
  | _ => false

/-- The values a flag accepts. Paths are not empty. -/
def accepts (flag : Flag) (value : String) : Bool :=
  match flag with
  | .format => value == "text" || value == "json"
  | .emit => value == "json" || value == "js"
  | .config | .output => value != ""
  | _ => true

end Flag

inductive CommandName where
  | inline | explain | help
  deriving DecidableEq, Repr

namespace CommandName

def all : List CommandName := [.inline, .explain, .help]

def text : CommandName → String
  | .inline => "inline"
  | .explain => "explain"
  | .help => "help"

def ofText? (text : String) : Option CommandName := all.find? (·.text == text)

end CommandName

/-- What an argument list comes to without a command to carry out. -/
inductive Stop where
  | refused
  | help
  | version (command : Option CommandName)
  deriving DecidableEq, Repr

/-- Flags and their values, in order; a flag without value has an empty one. -/
abbrev Settings := List (Flag × String)

namespace Settings

def value? (settings : Settings) (flag : Flag) : Option String := settings.lookup flag

def isSet (settings : Settings) (flag : Flag) : Bool := settings.any (·.1 = flag)

/-- How often a flag is given. -/
def count (settings : Settings) (flag : Flag) : Nat := settings.countP (·.1 = flag)

/-- Add a flag with an acceptable value. Only verbosity may be given twice. -/
def add (settings : Settings) (flag : Flag) (value : String) : Except Stop Settings :=
  if !flag.accepts value || (flag != .verbose && settings.isSet flag) then .error .refused
  else .ok (settings ++ [(flag, value)])

end Settings

/-- The arguments read so far. -/
structure ArgumentState where
  /-- Flags before the command. -/
  outer : Settings
  command : Option CommandName
  /-- Flags after the command. -/
  inner : Settings
  operands : List String
  /-- A flag whose value is the next argument. -/
  pending : Option Flag
  /-- A flag before the command whose value has not been judged yet. -/
  unjudged : Option (Flag × String)
  /-- No more flags follow. -/
  closed : Bool
  deriving DecidableEq, Repr

namespace ArgumentState

def initial : ArgumentState := ⟨[], none, [], [], none, none, false⟩

/-- The flags understood at this point. -/
def flags (state : ArgumentState) : List Flag :=
  match state.command with
  | some .inline => Flag.inlining
  | _ => Flag.common

/-- Judge the value that has not been judged yet. -/
def judge (state : ArgumentState) : Except Stop ArgumentState :=
  match state.unjudged with
  | none => .ok state
  | some (flag, value) =>
    (state.outer.add flag value).map fun outer => { state with outer, unjudged := none }

/-- Record a flag at its place. -/
def set (state : ArgumentState) (flag : Flag) (value : String) : Except Stop ArgumentState :=
  match flag with
  | .help => .error .help
  | .version => .error (.version state.command)
  | _ =>
    match state.command with
    | some _ => (state.inner.add flag value).map fun inner => { state with inner }
    | none => (state.outer.add flag value).map fun outer => { state with outer }

/-- A value in an argument of its own. -/
def supply (state : ArgumentState) (flag : Flag) (value : String) : Except Stop ArgumentState :=
  match state.command with
  | some _ => { state with pending := none }.set flag value
  | none => .ok { state with pending := none, unjudged := some (flag, value) }

/-- A flag with the value written into the same argument, if there is one. After
the command earlier values stay unjudged. -/
def take (state : ArgumentState) (flag : Flag) (attached : Option String) :
    Except Stop ArgumentState := do
  let state ← if state.command.isSome then .ok state else state.judge
  match flag.takesValue, attached with
  | true, some value => state.set flag value
  | true, none => .ok { state with pending := some flag }
  | false, none => state.set flag ""
  | false, some _ => .error .refused

/-- An argument that begins with two dashes, without them. -/
def long (state : ArgumentState) (text : List Char) : Except Stop ArgumentState :=
  let name := String.ofList (text.takeWhile (· ≠ '='))
  let attached := match text.dropWhile (· ≠ '=') with
    | [] => none
    | _ :: value => some (String.ofList value)
  match state.flags.find? (·.long == name) with
  | some flag => state.take flag attached
  | none => .error .refused

/-- An argument that begins with one dash, without it: flags of one letter each,
and after the first that takes a value, that value. -/
def cluster (state : ArgumentState) : List Char → Except Stop ArgumentState
  | [] => .ok state
  | c :: rest =>
    match state.flags.find? (·.short? == some c) with
    | none => .error .refused
    | some flag =>
      if flag.takesValue then
        match rest with
        | [] => state.take flag none
        | '=' :: value => state.take flag (some (String.ofList value))
        | value => state.take flag (some (String.ofList value))
      else
        match state.take flag none with
        | .ok state => state.cluster rest
        | .error stop => .error stop

/-- An argument that is no flag: the command, or its one operand, which is a path
for the inlining command. -/
def operand (state : ArgumentState) (text : String) : Except Stop ArgumentState :=
  match state.command with
  | some .help => .ok { state with operands := state.operands ++ [text] }
  | some command =>
    if !state.operands.isEmpty || (command = .inline && text = "") then .error .refused
    else .ok { state with operands := [text] }
  | none =>
    if state.closed then .error .refused
    else
      match CommandName.ofText? text with
      | some command => .ok { state with command := some command }
      | none => .error .refused

/-- Read one more argument. A value looks like no flag, and whatever follows a
request for help is the name of a command. -/
def step (state : ArgumentState) (arg : String) : Except Stop ArgumentState :=
  match state.pending with
  | some flag =>
    if arg.startsWith "-" && arg != "-" then .error .refused
    else state.supply flag arg
  | none =>
    if state.closed || state.command = some .help then state.operand arg
    else
      match arg.toList with
      | ['-', '-'] => .ok { state with closed := true }
      | '-' :: '-' :: name => state.long name
      | '-' :: c :: rest => state.cluster (c :: rest)
      | _ => state.operand arg

/-- The value of a flag; one given after the command takes precedence. -/
def value? (state : ArgumentState) (flag : Flag) : Option String :=
  (state.inner.value? flag).or (state.outer.value? flag)

def isSet (state : ArgumentState) (flag : Flag) : Bool := (state.value? flag).isSome

/-- The number of times verbosity is raised; the places do not add up. -/
def verbosity (state : ArgumentState) : Nat :=
  match state.inner.count .verbose with
  | 0 => state.outer.count .verbose
  | n => n

/-- The least severe level that is shown. -/
def logLevel (state : ArgumentState) : LogLevel :=
  if state.isSet .quiet then .error
  else
    match state.verbosity with
    | 0 => .warn
    | 1 => .info
    | 2 => .debug
    | _ => .trace

end ArgumentState

structure InlineRequest where
  input : String
  config : Option String
  form : ProgramForm
  output : Option String
  firstWins : Bool
  strict : Bool
  deriving DecidableEq, Repr

inductive Command where
  | inline (request : InlineRequest)
  | explain (code : String)
  deriving DecidableEq, Repr

/-- A command, and how to report on it. -/
structure Invocation where
  command : Command
  format : ReportFormat
  level : LogLevel
  quiet : Bool
  deriving DecidableEq, Repr

namespace ArgumentState

/-- The end of the arguments. A request for help on a command asks for nothing
else, so the values before it are never judged. -/
def finish (state : ArgumentState) : Except Stop ArgumentState :=
  if state.pending.isSome then .error .refused
  else
    match state.command, state.operands with
    | some .help, [] => .error .help
    | some .help, [name] =>
      if (CommandName.ofText? name).isSome then .error .help else .error .refused
    | some .help, _ => .error .refused
    | _, _ => state.judge

/-- The command that a complete argument list asks for. -/
def command? (state : ArgumentState) : Except Stop Command :=
  match state.command, state.operands with
  | none, _ => .error .help
  | some .inline, [input] =>
    .ok <| .inline
      { input
        config := state.value? .config
        form := if state.value? .emit = some "js" then .source else .json
        output := state.value? .output
        firstWins := state.isSet .firstWins
        strict := state.isSet .strict }
  | some .explain, [code] => .ok (.explain code)
  | some _, _ => .error .refused

end ArgumentState

def Invocation.ofArgs (args : List String) : Except Stop Invocation := do
  let read ← args.foldlM ArgumentState.step .initial
  let state ← read.finish
  let command ← state.command?
  return {
    command
    format := if state.value? .format = some "json" then .json else .text
    level := state.logLevel
    quiet := state.isSet .quiet }

end StaticInliner
