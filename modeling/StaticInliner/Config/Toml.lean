import StaticInliner.Config.Basic
import StaticInliner.Json.Parser

/-!
Configuration texts. The notation is the part of TOML a configuration needs:
comments, bare keys, sections, repeated sections, basic strings, integers,
truth values and arrays over several lines. A text is read into an object whose
members are the top keys and the sections; a key is set once, a section is
opened once, and a repeated section gathers its occurrences in an array.
-/
namespace StaticInliner

namespace Toml

def isBlank (c : Char) : Bool := c = ' ' || c = '\t'

def skipBlanks (text : List Char) : List Char := text.dropWhile isBlank

/-- Characters that may stand in a comment or a string as they are. -/
def isPlain (c : Char) : Bool := c = '\t' || (32 ≤ c.toNat && c.toNat ≠ 127)

/-- What is left of the line after blanks and a comment. -/
def skipRemark (text : List Char) : List Char :=
  match skipBlanks text with
  | '#' :: rest => rest.dropWhile isPlain
  | rest => rest

def lineBreak? : List Char → Option (List Char)
  | '\n' :: rest => some rest
  | '\r' :: '\n' :: rest => some rest
  | _ => none

/-- Blanks, comments and at most `fuel` line breaks. -/
def skipLines : Nat → List Char → List Char
  | 0, text => text
  | fuel + 1, text =>
    match lineBreak? (skipRemark text) with
    | some rest => skipLines fuel rest
    | none => skipRemark text

def digit? (base : Nat) (c : Char) : Option Nat := (Json.hexDigit? c).filter (· < base)

/-- At least one digit; an underscore stands only between two of them. -/
def digits (base : Nat) : List Char → Option (List Nat × List Char)
  | [] => none
  | c :: rest =>
    match digit? base c, rest with
    | none, _ => none
    | some d, '_' :: rest => (digits base rest).map fun (ds, rest) => (d :: ds, rest)
    | some d, rest =>
      match digits base rest with
      | some (ds, rest) => some (d :: ds, rest)
      | none => if rest.head?.any fun c => (digit? base c).isSome then none else some ([d], rest)

def magnitude (base : Nat) (ds : List Nat) : Nat := ds.foldl (fun n d => n * base + d) 0

/-- Digits in base ten without a leading zero. -/
def decimal (text : List Char) : Option (Nat × List Char) :=
  match digits 10 text with
  | none | some (0 :: _ :: _, _) => none
  | some (ds, rest) => some (magnitude 10 ds, rest)

def based (base : Nat) (text : List Char) : Option (Nat × List Char) :=
  (digits base text).map fun (ds, rest) => (magnitude base ds, rest)

/-- An integer of 64 bits; only a decimal one may have a sign. -/
def integer (text : List Char) : Option (Json × List Char) := do
  let (n, rest) ← match text with
    | '+' :: rest => (decimal rest).map fun (n, rest) => ((n : Int), rest)
    | '-' :: rest => (decimal rest).map fun (n, rest) => (-(n : Int), rest)
    | '0' :: 'x' :: rest => (based 16 rest).map fun (n, rest) => ((n : Int), rest)
    | '0' :: 'o' :: rest => (based 8 rest).map fun (n, rest) => ((n : Int), rest)
    | '0' :: 'b' :: rest => (based 2 rest).map fun (n, rest) => ((n : Int), rest)
    | rest => (decimal rest).map fun (n, rest) => ((n : Int), rest)
  if -0x8000000000000000 ≤ n ∧ n < 0x8000000000000000 then return (.int n, rest) else none

/-- The character that exactly `count` hexadecimal digits name. -/
def namedChar : Nat → Nat → List Char → Option (Char × List Char)
  | 0, code, rest => if code.isValidChar then some (Char.ofNat code, rest) else none
  | _ + 1, _, [] => none
  | count + 1, code, c :: rest =>
    match Json.hexDigit? c with
    | some d => namedChar count (code * 16 + d) rest
    | none => none

/-- The character an escape stands for; the text begins after the backslash. -/
def escaped : List Char → Option (Char × List Char)
  | 'b' :: rest => some ('\x08', rest)
  | 't' :: rest => some ('\t', rest)
  | 'n' :: rest => some ('\n', rest)
  | 'f' :: rest => some ('\x0c', rest)
  | 'r' :: rest => some ('\r', rest)
  | '"' :: rest => some ('"', rest)
  | '\\' :: rest => some ('\\', rest)
  | 'u' :: rest => namedChar 4 0 rest
  | 'U' :: rest => namedChar 8 0 rest
  | _ => none

/-- The rest of a string after its opening quote, appended to `taken`. -/
def string (fuel : Nat) (taken : String) (text : List Char) : Option (String × List Char) :=
  match fuel, text with
  | 0, _ | _, [] => none
  | fuel + 1, c :: rest =>
    if c = '"' then some (taken, rest)
    else if c = '\\' then
      match escaped rest with
      | some (c, rest) => string fuel (taken.push c) rest
      | none => none
    else if isPlain c then string fuel (taken.push c) rest
    else none

mutual

/-- One value; `depth` is how many more arrays may be opened. -/
def value (fuel depth : Nat) (text : List Char) : Option (Json × List Char) :=
  match fuel with
  | 0 => none
  | fuel + 1 =>
    match text with
    | '"' :: rest => (string (rest.length + 1) "" rest).map fun (s, rest) => (.str s, rest)
    | '[' :: rest =>
      match depth with
      | 0 => none
      | depth + 1 => (items fuel depth rest).map fun (xs, rest) => (.arr xs, rest)
    | 't' :: 'r' :: 'u' :: 'e' :: rest => some (.bool true, rest)
    | 'f' :: 'a' :: 'l' :: 's' :: 'e' :: rest => some (.bool false, rest)
    | text => integer text

/-- The items up to the closing bracket; the last one may be followed by a comma. -/
def items (fuel depth : Nat) (text : List Char) : Option (List Json × List Char) :=
  match fuel with
  | 0 => none
  | fuel + 1 =>
    match skipLines text.length text with
    | ']' :: rest => some ([], rest)
    | text => do
      let (item, rest) ← value fuel depth text
      match skipLines rest.length rest with
      | ']' :: rest => return ([item], rest)
      | ',' :: rest =>
        let (more, rest) ← items fuel depth rest
        return (item :: more, rest)
      | _ => none

end

/-- How many arrays may be open at a time. -/
def nesting : Nat := 79

def isKeyChar (c : Char) : Bool := c.isAlphanum || c = '_' || c = '-'

def key (text : List Char) : Option (String × List Char) :=
  match text.takeWhile isKeyChar with
  | [] => none
  | name => some (String.ofList name, text.dropWhile isKeyChar)

abbrev Members := List (String × Json)

/-- Add a member under a key not set before. -/
def extend? (members : Members) (name : String) (json : Json) : Option Members :=
  if members.any (·.1 = name) then none else some (members ++ [(name, json)])

/-- What a name of the top level stands for. -/
inductive Entry where
  | value (json : Json)
  | table (members : Members)
  /-- A repeated section: what precedes its last occurrence, and that one. -/
  | tables (before : List Members) (last : Members)

def Entry.toJson : Entry → Json
  | .value json => json
  | .table members => .obj members
  | .tables before last => .arr ((before ++ [last]).map .obj)

/-- Set a key in a section; a repeated section takes it at its last occurrence. -/
def Entry.set? (entry : Entry) (name : String) (json : Json) : Option Entry :=
  match entry with
  | .value _ => none
  | .table members => (extend? members name json).map .table
  | .tables before last => (extend? last name json).map (.tables before)

/-- The part of a text read so far, and the section that is open. -/
structure Document where
  entries : List (String × Entry)
  current : Option String

namespace Document

def empty : Document := ⟨[], none⟩

def get? (doc : Document) (name : String) : Option Entry := doc.entries.lookup name

/-- Replace the entry of a name, or add one at the end. -/
def put (doc : Document) (name : String) (entry : Entry) : Document :=
  if (doc.get? name).isSome then
    { doc with entries := doc.entries.map fun e => if e.1 = name then (name, entry) else e }
  else { doc with entries := doc.entries ++ [(name, entry)] }

def set? (doc : Document) (name : String) (json : Json) : Option Document :=
  match doc.current with
  | none => if (doc.get? name).isSome then none else some (doc.put name (.value json))
  | some table => do return doc.put table (← (← doc.get? table).set? name json)

def openTable? (doc : Document) (name : String) : Option Document :=
  if (doc.get? name).isSome then none
  else some { doc.put name (.table []) with current := some name }

def openElement? (doc : Document) (name : String) : Option Document :=
  match doc.get? name with
  | none => some { doc.put name (.tables [] []) with current := some name }
  | some (.tables before last) =>
    some { doc.put name (.tables (before ++ [last]) []) with current := some name }
  | some _ => none

def toJson (doc : Document) : Json :=
  .obj (doc.entries.map fun (name, entry) => (name, entry.toJson))

end Document

/-- What a line says, if anything, up to its remark. -/
def statement (doc : Document) (text : List Char) : Option (Document × List Char) :=
  match text with
  | '[' :: '[' :: rest => do
    let (name, rest) ← key (skipBlanks rest)
    match skipBlanks rest with
    | ']' :: ']' :: rest => return (← doc.openElement? name, rest)
    | _ => none
  | '[' :: rest => do
    let (name, rest) ← key (skipBlanks rest)
    match skipBlanks rest with
    | ']' :: rest => return (← doc.openTable? name, rest)
    | _ => none
  | [] | '#' :: _ | '\n' :: _ | '\r' :: _ => some (doc, text)
  | _ => do
    let (name, rest) ← key text
    match skipBlanks rest with
    | '=' :: rest =>
      let (json, rest) ← value (2 * rest.length + 2) nesting (skipBlanks rest)
      return (← doc.set? name json, rest)
    | _ => none

/-- The statements of a text; each but the last ends in a line break. -/
def statements : Nat → Document → List Char → Option Document
  | 0, _, _ => none
  | fuel + 1, doc, text => do
    let (doc, rest) ← statement doc (skipBlanks text)
    match skipRemark rest with
    | [] => return doc
    | rest => statements fuel doc (← lineBreak? rest)

/-- The object a text describes; a byte order mark before it is dropped. -/
def parse? (text : String) : Option Json :=
  let chars := match text.toList with
    | '\ufeff' :: rest => rest
    | chars => chars
  (statements (chars.length + 1) .empty chars).map (·.toJson)

end Toml

/-- A choice is a string, or a section whose only key names it and holds an empty
array. -/
def Toml.choice? (all : List α) (tag : α → String) : Json → Option α
  | .str name | .obj [(name, .arr [])] => all.find? (tag · == name)
  | _ => none

/-- A target is a section, or an array that begins with its two fields. -/
def Target.ofToml? : Json → Option Target
  | .arr (host :: functions :: _) => ofJson? (.arr [host, functions])
  | json => ofJson? json

/-- The configuration a text describes. -/
def Config.ofToml? (text : String) : Option Config := do
  let (targets, policy) ← fields? (← Toml.parse? text)
  return ⟨← Json.defaulting [] (Json.list? Target.ofToml?) targets,
    ← Json.defaulting .lastWins (Toml.choice? DuplicatePolicy.all DuplicatePolicy.text) policy⟩

end StaticInliner
