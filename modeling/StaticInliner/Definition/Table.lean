import StaticInliner.Syntax.Tree

/-!
Definitions of static functions by qualified name. A table holds at most one
definition for each name and counts the names that were defined repeatedly; a
policy says which definition of such a name is kept.
-/
namespace StaticInliner

/-- Which of several definitions of one name is kept. -/
inductive DuplicatePolicy where
  | lastWins | firstWins
  deriving DecidableEq, Repr

namespace DuplicatePolicy

def all : List DuplicatePolicy := [.lastWins, .firstWins]

def text : DuplicatePolicy → String
  | .lastWins => "last-wins"
  | .firstWins => "first-wins"

end DuplicatePolicy

/-- A static function, with the literal as it was when it was collected. -/
structure Definition where
  name : QualifiedName
  function : FunctionLit
  unit : Nat
  unitName : String

/-- A name with several definitions. -/
structure Duplicate where
  name : QualifiedName
  /-- The unit of the first one. -/
  unitName : String
  occurrences : Nat
  deriving DecidableEq

structure DefinitionTable where
  /-- One for each name, by first occurrence of the name. -/
  definitions : List Definition
  /-- By second occurrence of the name. -/
  duplicates : List Duplicate
  /-- Names of the units that were searched. -/
  hostUnits : List String

namespace DefinitionTable

def empty : DefinitionTable := ⟨[], [], []⟩

def get? (table : DefinitionTable) (name : QualifiedName) : Option Definition :=
  table.definitions.find? (·.name == name)

def contains (table : DefinitionTable) (name : QualifiedName) : Bool := (table.get? name).isSome

def size (table : DefinitionTable) : Nat := table.definitions.length

/-- Some name in the table ends with the segment. -/
def definesFunction (table : DefinitionTable) (segment : String) : Bool :=
  table.definitions.any (·.name.last == segment)

/-- Definitions ordered by name. -/
def sorted (table : DefinitionTable) : List Definition :=
  table.definitions.mergeSort (fun a b => (a.name.compare b.name).isLE)

/-- Count one more occurrence of a name first defined in `unitName`. -/
def countDuplicate (duplicates : List Duplicate) (name : QualifiedName) (unitName : String) :
    List Duplicate :=
  if duplicates.any (·.name == name) then
    duplicates.map fun d =>
      if d.name == name then { d with occurrences := d.occurrences + 1 } else d
  else duplicates ++ [⟨name, unitName, 2⟩]

def replace (definitions : List Definition) (definition : Definition) : List Definition :=
  definitions.map fun d => if d.name == definition.name then definition else d

/-- Enter a definition. -/
def record (table : DefinitionTable) (policy : DuplicatePolicy) (definition : Definition) :
    DefinitionTable :=
  match table.get? definition.name with
  | none => { table with definitions := table.definitions ++ [definition] }
  | some existing =>
    { table with
      definitions := match policy with
        | .lastWins => replace table.definitions definition
        | .firstWins => table.definitions
      duplicates := countDuplicate table.duplicates definition.name existing.unitName }

end DefinitionTable

end StaticInliner
