import StaticInliner.Json.Value

/-!
Reading JSON values as records, variants and lists. A record is an object in
which each known field occurs at most once and unknown ones are ignored, or an
array of exactly its fields in order. A variant is an object with one member;
one without payload may also be a bare string.
-/
namespace StaticInliner.Json

/-- How a record may be written that is the payload of a variant: as an object
only, or also as an array of its fields. -/
inductive PayloadForm where
  | named | positional
  deriving DecidableEq, Repr

def bool? : Json → Option Bool
  | .bool value => some value
  | _ => none

def str? : Json → Option String
  | .str value => some value
  | _ => none

/-- A whole number that fits in 32 bits. -/
def id? : Json → Option Nat
  | .int n => if 0 ≤ n ∧ n < 0x100000000 then some n.toNat else none
  | _ => none

/-- Any number, as a finite double. -/
def float? : Json → Option Float
  | .int n => finite? (.ofInt n)
  | .float x => finite? x
  | _ => none
where
  finite? (x : Float) : Option Float := if x.isFinite then some x else none

def list? (read : Json → Option α) : Json → Option (List α)
  | .arr items => items.mapM read
  | _ => none

/-- `null` is an absent value. -/
def option? (read : Json → Option α) : Json → Option (Option α)
  | .null => some none
  | json => (read json).map some

/-- The values of a key among the members of an object. -/
def valuesOf (key : String) (members : List (String × Json)) : List Json :=
  (members.filter (·.1 == key)).map (·.2)

/-- The value of each of the named fields, absent where it is missing. -/
def fields? (names : List String) : Json → Option (List (Option Json))
  | .obj members => names.mapM fun name =>
    match valuesOf name members with
    | [] => some none
    | [value] => some (some value)
    | _ => none
  | .arr items => if items.length = names.length then some (items.map some) else none
  | _ => none

/-- The fields of a record that is the payload of a variant. -/
def payloadFields? (form : PayloadForm) (names : List String) (json : Json) :
    Option (List (Option Json)) :=
  match form, json with
  | .named, .obj members => fields? names (.obj members)
  | .named, _ => none
  | .positional, json => fields? names json

/-- A field that has to be there. -/
def required (read : Json → Option α) (field : Option Json) : Option α :=
  field.bind read

/-- A field that may be missing or `null`. -/
def optional (read : Json → Option α) : Option Json → Option (Option α)
  | none => some none
  | some json => option? read json

/-- A field that may be missing, but not `null`. -/
def defaulting (default : α) (read : Json → Option α) : Option Json → Option α
  | none => some default
  | some json => read json

/-- Tag and payload of a variant; a bare string has no payload. -/
def variant? : Json → Option (String × Option Json)
  | .str tag => some (tag, none)
  | .obj [(tag, payload)] => some (tag, some payload)
  | _ => none

/-- A payload that is missing or `null`. -/
def noPayload : Option Json → Option Unit
  | none | some .null => some ()
  | some _ => none

/-- One of finitely many variants without payload. -/
def choice? (all : List α) (tag : α → String) (json : Json) : Option α := do
  let (name, payload) ← json.variant?
  noPayload payload
  all.find? (tag · == name)

end StaticInliner.Json
