import StaticInliner.Syntax.Walk
import StaticInliner.Definition.Table
import StaticInliner.Log

/-!
Collecting definitions. Host units are those whose name ends with a given text.
A definition is a plain assignment of a function literal to a name of at least
two segments whose last segment is wanted; assignments inside nested functions
count too.
-/
namespace StaticInliner

def endsWith (suffix text : String) : Bool := suffix.toList.isSuffixOf text.toList

/-- The definition an expression makes, if it makes one. -/
def Node.staticDefinition? (wanted : List String) : Node → Option (QualifiedName × FunctionLit)
  | .expr (.assign target none (.function fn)) =>
    match target.qualifiedName? with
    | some name =>
      if name.isQualified && wanted.contains name.last then some (name, fn) else none
    | none => none
  | _ => none

/-- The definitions of a unit, in pre-order. -/
def SourceUnit.definitions (wanted : List String) (unit : SourceUnit) : List Definition :=
  let found := Stmt.foldNodes .nested (fun found node =>
    match node.staticDefinition? wanted with
    | some definition => definition :: found
    | none => found) unit.body []
  found.reverse.map fun (name, fn) => ⟨name, fn, unit.id, unit.name⟩

/-- A table and the messages of its making. -/
structure Collection where
  table : DefinitionTable
  log : List LogEntry

namespace Collection

def record (policy : DuplicatePolicy) (collection : Collection) (definition : Definition) :
    Collection :=
  let name := definition.name.text
  let collected : LogEntry :=
    ⟨.debug, .collection, "collected " ++ name ++ " from " ++ definition.unitName⟩
  let repeated : LogEntry :=
    ⟨.warn, .collection, "'" ++ name ++ "' is defined more than once in " ++ definition.unitName⟩
  { table := collection.table.record policy definition
    log := collection.log ++
      if collection.table.contains definition.name then [collected, repeated] else [collected] }

def addUnit (host : String) (wanted : List String) (policy : DuplicatePolicy)
    (collection : Collection) (unit : SourceUnit) : Collection :=
  if endsWith host unit.name then
    let table := { collection.table with hostUnits := collection.table.hostUnits ++ [unit.name] }
    (unit.definitions wanted).foldl (record policy) { collection with table }
  else collection

end Collection

/-- Definitions of the wanted functions in the host units of a program. -/
def Program.collect (program : Program) (host : String) (wanted : List String)
    (policy : DuplicatePolicy) : Collection :=
  program.units.foldl (Collection.addUnit host wanted policy) ⟨.empty, []⟩

end StaticInliner
