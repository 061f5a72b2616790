import StaticInliner.Json.Value
import StaticInliner.Number.Reading

/-!
Strict reading of JSON text: no leading zeros, no comments, no raw control
characters in strings, and nothing but blanks after the value. The caller says
how numerals become doubles and how deep arrays and objects may be nested; what
is nested deeper, a numeral too large and a string with an unpaired surrogate
have to be well written too, but are unreadable.
-/
namespace StaticInliner.Json

/-- What a reader of JSON text decides. -/
structure TextRules where
  /-- How many arrays and objects may be open around a value and with it. -/
  nesting : Nat
  numbers : NumberReading
  deriving DecidableEq, Repr

def isBlank (c : Char) : Bool := c = ' ' || c = '\n' || c = '\t' || c = '\r'

def skipBlanks (text : List Char) : List Char := text.dropWhile isBlank

def digit? (c : Char) : Option Nat :=
  if '0' ≤ c ∧ c ≤ '9' then some (c.toNat - '0'.toNat) else none

def hexDigit? (c : Char) : Option Nat :=
  if '0' ≤ c ∧ c ≤ '9' then some (c.toNat - '0'.toNat)
  else if 'a' ≤ c ∧ c ≤ 'f' then some (c.toNat - 'a'.toNat + 10)
  else if 'A' ≤ c ∧ c ≤ 'F' then some (c.toNat - 'A'.toNat + 10)
  else none

/-- The digits a text begins with, and what follows them. -/
def digits : List Char → List Nat × List Char
  | [] => ([], [])
  | c :: rest =>
    match digit? c with
    | some d =>
      let more := digits rest
      (d :: more.1, more.2)
    | none => ([], c :: rest)

/-- `.` and at least one digit, if a point follows. -/
def fraction (text : List Char) : Option (Option (List Nat) × List Char) :=
  match text with
  | '.' :: rest =>
    match digits rest with
    | ([], _) => none
    | (ds, rest) => some (some ds, rest)
  | _ => some (none, text)

/-- `e` or `E`, a sign and at least one digit, if an exponent follows. -/
def exponent (text : List Char) : Option (Option Int × List Char) :=
  let unsigned (negative : Bool) (text : List Char) : Option (Option Int × List Char) :=
    match digits text with
    | ([], _) => none
    | (ds, rest) =>
      let n : Nat := ds.foldl (fun n d => n * 10 + d) 0
      some (some (if negative then -(n : Int) else n), rest)
  let signed (text : List Char) : Option (Option Int × List Char) :=
    match text with
    | '+' :: rest => unsigned false rest
    | '-' :: rest => unsigned true rest
    | _ => unsigned false text
  match text with
  | 'e' :: rest | 'E' :: rest => signed rest
  | _ => some (none, text)

def numeral (negative : Bool) (text : List Char) : Option (Numeral × List Char) :=
  match digits text with
  | ([], _) => none
  | (0 :: _ :: _, _) => none
  | (whole, rest) => do
    let (fraction, rest) ← fraction rest
    let (power, rest) ← exponent rest
    return (⟨negative, whole, fraction, power⟩, rest)

def number (reading : NumberReading) (negative : Bool) (text : List Char) :
    Option (Json × List Char) :=
  (numeral negative text).map fun (numeral, rest) =>
    match numeral.whole? with
    | some n => (.int n, rest)
    | none =>
      match numeral.float? reading with
      | some x => (.float x, rest)
      | none => (.unreadable, rest)

/-- Four hexadecimal digits. -/
def codeUnit : List Char → Option (Nat × List Char)
  | a :: b :: c :: d :: rest => do
    let a ← hexDigit? a
    let b ← hexDigit? b
    let c ← hexDigit? c
    let d ← hexDigit? d
    return (((a * 16 + b) * 16 + c) * 16 + d, rest)
  | _ => none

def isHighSurrogate (unit : Nat) : Bool := 0xD800 ≤ unit && unit ≤ 0xDBFF

def isLowSurrogate (unit : Nat) : Bool := 0xDC00 ≤ unit && unit ≤ 0xDFFF

/-- The second half of a surrogate pair, if one follows. -/
def lowSurrogate? : List Char → Option (Nat × List Char)
  | '\\' :: 'u' :: rest => (codeUnit rest).filter (isLowSurrogate ·.1)
  | _ => none

/-- A character written as one code unit or as a pair of surrogates; absent for
a surrogate without its partner. -/
def unicodeEscape (text : List Char) : Option (Option Char × List Char) :=
  (codeUnit text).map fun (unit, rest) =>
    if isLowSurrogate unit then (none, rest)
    else if isHighSurrogate unit then
      match lowSurrogate? rest with
      | some (low, rest) =>
        (some (Char.ofNat (0x10000 + (unit - 0xD800) * 0x400 + (low - 0xDC00))), rest)
      | none => (none, rest)
    else (some (Char.ofNat unit), rest)

/-- The character an escape stands for; the text begins after the backslash. -/
def escaped : List Char → Option (Option Char × List Char)
  | '"' :: rest => some (some '"', rest)
  | '\\' :: rest => some (some '\\', rest)
  | '/' :: rest => some (some '/', rest)
  | 'b' :: rest => some (some '\x08', rest)
  | 'f' :: rest => some (some '\x0c', rest)
  | 'n' :: rest => some (some '\n', rest)
  | 'r' :: rest => some (some '\r', rest)
  | 't' :: rest => some (some '\t', rest)
  | 'u' :: rest => unicodeEscape rest
  | _ => none

/-- Append a character, unless there is no text or no character. -/
def pushChar (taken : Option String) (c : Option Char) : Option String :=
  match taken, c with
  | some text, some c => some (text.push c)
  | _, _ => none

/-- The rest of a string after its opening quote, appended to `taken`. -/
def string (fuel : Nat) (taken : Option String) (text : List Char) :
    Option (Option String × List Char) :=
  match fuel, text with
  | 0, _ | _, [] => none
  | fuel + 1, c :: rest =>
    if c = '"' then some (taken, rest)
    else if c = '\\' then
      match escaped rest with
      | some (c, rest) => string fuel (pushChar taken c) rest
      | none => none
    else if c.toNat < 32 then none
    else string fuel (pushChar taken (some c)) rest

def ofText : Option String → Json
  | some text => .str text
  | none => .unreadable

/-- An object, if all its keys can be read. -/
def ofMembers (members : List (Option String × Json)) : Json :=
  match members.mapM fun (key, item) => key.map (·, item) with
  | some members => .obj members
  | none => .unreadable

/-- What is read of a value when `depth` more levels may be opened. -/
def within (depth : Nat) (json : Json) : Json :=
  match depth with
  | 0 => .unreadable
  | _ + 1 => json

mutual

/-- One value; `depth` is how many more levels may be opened. -/
def value (reading : NumberReading) (fuel depth : Nat) (text : List Char) :
    Option (Json × List Char) :=
  match fuel with
  | 0 => none
  | fuel + 1 =>
    match skipBlanks text with
    | 'n' :: 'u' :: 'l' :: 'l' :: rest => some (.null, rest)
    | 't' :: 'r' :: 'u' :: 'e' :: rest => some (.bool true, rest)
    | 'f' :: 'a' :: 'l' :: 's' :: 'e' :: rest => some (.bool false, rest)
    | '"' :: rest =>
      (string (rest.length + 1) (some "") rest).map fun (s, rest) => (ofText s, rest)
    | '-' :: rest => number reading true rest
    | '[' :: rest =>
      match skipBlanks rest with
      | ']' :: rest => some (within depth (.arr []), rest)
      | rest =>
        (items reading fuel (depth - 1) rest).map fun (xs, rest) => (within depth (.arr xs), rest)
    | '\x7b' :: rest =>
      match skipBlanks rest with
      | '\x7d' :: rest => some (within depth (.obj []), rest)
      | rest =>
        (members reading fuel (depth - 1) rest).map fun (xs, rest) =>
          (within depth (ofMembers xs), rest)
    | rest => number reading false rest

/-- The items of an array that is not empty, and its closing bracket. -/
def items (reading : NumberReading) (fuel depth : Nat) (text : List Char) :
    Option (List Json × List Char) :=
  match fuel with
  | 0 => none
  | fuel + 1 => do
    let (item, rest) ← value reading fuel depth text
    match skipBlanks rest with
    | ']' :: rest => return ([item], rest)
    | ',' :: rest =>
      let (more, rest) ← items reading fuel depth rest
      return (item :: more, rest)
    | _ => none

/-- The members of an object that is not empty, and its closing brace. -/
def members (reading : NumberReading) (fuel depth : Nat) (text : List Char) :
    Option (List (Option String × Json) × List Char) :=
  match fuel with
  | 0 => none
  | fuel + 1 =>
    match skipBlanks text with
    | '"' :: rest => do
      let (key, rest) ← string (rest.length + 1) (some "") rest
      match skipBlanks rest with
      | ':' :: rest =>
        let (item, rest) ← value reading fuel depth rest
        match skipBlanks rest with
        | '\x7d' :: rest => return ([(key, item)], rest)
        | ',' :: rest =>
          let (more, rest) ← members reading fuel depth rest
          return ((key, item) :: more, rest)
        | _ => none
      | _ => none
    | _ => none

end

/-- The value a text holds. Every call of `value`, `items` and `members` but the
first is preceded by a character of the text, which bounds their number. -/
def parse? (rules : TextRules) (text : String) : Option Json :=
  let chars := text.toList
  match value rules.numbers (2 * chars.length + 2) rules.nesting chars with
  | some (json, rest) => if (skipBlanks rest).isEmpty then some json else none
  | none => none

end StaticInliner.Json
