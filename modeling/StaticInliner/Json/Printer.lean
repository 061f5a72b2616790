import StaticInliner.Json.Value
import StaticInliner.Number.Text

/-!
Text of JSON values: on one line without blanks, or indented by two spaces a
level. Characters beyond ASCII are written as they are, control characters as
short or four-digit escapes. A double that is not finite is written `null`, and
so is an unreadable value.
-/
namespace StaticInliner.Json

/-- The escape of one character inside a string, if it needs one. -/
def escape? (c : Char) : Option String :=
  if c = '"' then some "\\\""
  else if c = '\\' then some "\\\\"
  else if c = '\n' then some "\\n"
  else if c = '\r' then some "\\r"
  else if c = '\t' then some "\\t"
  else if c = '\x08' then some "\\b"
  else if c = '\x0c' then some "\\f"
  else if c.toNat < 32 then
    some ("\\u00" ++ .ofList [Nat.digitChar (c.toNat / 16), Nat.digitChar (c.toNat % 16)])
  else none

def quote (text : String) : String :=
  text.foldl (fun out c => match escape? c with
    | some escaped => out ++ escaped
    | none => out.push c) "\"" ++ "\""

def scalarText : Json → String
  | .null => "null"
  | .bool value => if value then "true" else "false"
  | .int value => toString value
  | .float value => (numberData? value).getD "null"
  | .str value => quote value
  | .arr _ | .obj _ => ""
  | .unreadable => "null"

mutual

/-- The value on one line. -/
def compact : Json → String
  | .arr items => "[" ++ compactItems items ++ "]"
  | .obj members => "\x7b" ++ compactMembers members ++ "\x7d"
  | .null => scalarText .null
  | .bool value => scalarText (.bool value)
  | .int value => scalarText (.int value)
  | .float value => scalarText (.float value)
  | .str value => scalarText (.str value)
  | .unreadable => scalarText .unreadable

def compactItems : List Json → String
  | [] => ""
  | [item] => compact item
  | item :: rest => compact item ++ "," ++ compactItems rest

def compactMembers : List (String × Json) → String
  | [] => ""
  | [(key, item)] => quote key ++ ":" ++ compact item
  | (key, item) :: rest => quote key ++ ":" ++ compact item ++ "," ++ compactMembers rest

end

def indentation (level : Nat) : String := "".pushn ' ' (2 * level)

mutual

/-- The value over several lines, the first of which is not indented. -/
def pretty (level : Nat) : Json → String
  | .arr [] => "[]"
  | .arr (item :: rest) =>
    "[\n" ++ prettyItems (level + 1) (item :: rest) ++ "\n" ++ indentation level ++ "]"
  | .obj [] => "\x7b\x7d"
  | .obj (member :: rest) =>
    "\x7b\n" ++ prettyMembers (level + 1) (member :: rest) ++ "\n" ++ indentation level ++ "\x7d"
  | .null => scalarText .null
  | .bool value => scalarText (.bool value)
  | .int value => scalarText (.int value)
  | .float value => scalarText (.float value)
  | .str value => scalarText (.str value)
  | .unreadable => scalarText .unreadable

def prettyItems (level : Nat) : List Json → String
  | [] => ""
  | [item] => indentation level ++ pretty level item
  | item :: rest => indentation level ++ pretty level item ++ ",\n" ++ prettyItems level rest

def prettyMembers (level : Nat) : List (String × Json) → String
  | [] => ""
  | [(key, item)] => indentation level ++ quote key ++ ": " ++ pretty level item
  | (key, item) :: rest =>
    indentation level ++ quote key ++ ": " ++ pretty level item ++ ",\n" ++ prettyMembers level rest

end

end StaticInliner.Json
