import StaticInliner.Proofs.Collection
import StaticInliner.Proofs.Relabeling.Expansions

/-!
Relabeled tables. If operators stay, then a relabeled program defines the relabeled functions,
under the relabeled names, and the same definitions are kept of those with one name.
-/
namespace StaticInliner

variable (σ : Relabeling)

def Duplicate.relabel (duplicate : Duplicate) : Duplicate :=
  ⟨duplicate.name.relabel σ, duplicate.unitName, duplicate.occurrences⟩

namespace DefinitionTable

def relabel (table : DefinitionTable) : DefinitionTable :=
  ⟨table.definitions.map (·.relabel σ), table.duplicates.map (·.relabel σ), table.hostUnits⟩

/-- The relabeled table finds the relabeled definition. -/
theorem get?_relabel (table : DefinitionTable) (name : QualifiedName) :
    (table.relabel σ).get? (name.relabel σ) = (table.get? name).map (·.relabel σ) := by
  have hname :
    (fun definition : Definition => definition.name == name.relabel σ) ∘ Definition.relabel σ =
      (·.name == name) := funext fun definition => definition.name.beq_relabel name
  rw [get?, get?, relabel, List.find?_map, hname]

theorem contains_relabel (table : DefinitionTable) (name : QualifiedName) :
    (table.relabel σ).contains (name.relabel σ) = table.contains name := by
  rw [contains, contains, get?_relabel, Option.isSome_map]

theorem size_relabel (table : DefinitionTable) : (table.relabel σ).size = table.size :=
  List.length_map _

theorem countDuplicate_relabel (duplicates : List Duplicate) (name : QualifiedName)
    (unitName : String) :
    countDuplicate (duplicates.map (Duplicate.relabel σ)) (name.relabel σ) unitName =
      (countDuplicate duplicates name unitName).map (Duplicate.relabel σ) := by
  have hname : (fun d : Duplicate => d.name == name.relabel σ) ∘ Duplicate.relabel σ =
      (·.name == name) :=
    funext fun d => d.name.beq_relabel name
  rw [countDuplicate, countDuplicate, List.any_map, hname]
  split
  · simp only [List.map_map]
    refine List.map_congr_left fun d _ => ?_
    have hd : ((d.relabel σ).name == name.relabel σ) = (d.name == name) := d.name.beq_relabel name
    simp only [Function.comp, hd]
    split <;> rfl
  · rw [List.map_append]
    rfl

theorem replace_relabel (definitions : List Definition) (definition : Definition) :
    replace (definitions.map (·.relabel σ)) (definition.relabel σ) =
      (replace definitions definition).map (·.relabel σ) := by
  simp only [replace, List.map_map]
  refine List.map_congr_left fun d _ => ?_
  have hd : ((d.relabel σ).name == (definition.relabel σ).name) = (d.name == definition.name) :=
    d.name.beq_relabel definition.name
  simp only [Function.comp, hd]
  split <;> rfl

/-- A definition is recorded in the same way. -/
theorem record_relabel (table : DefinitionTable) (policy : DuplicatePolicy)
    (definition : Definition) :
    (table.relabel σ).record policy (definition.relabel σ) =
      (table.record policy definition).relabel σ := by
  have hget : (table.relabel σ).get? (definition.relabel σ).name = _ :=
    table.get?_relabel σ definition.name
  unfold record
  rw [hget]
  cases table.get? definition.name with
  | none =>
    simp only [Option.map_none, relabel, List.map_append]
    rfl
  | some existing =>
    have hcount := countDuplicate_relabel σ table.duplicates definition.name existing.unitName
    cases policy with
    | firstWins => exact congrArg (DefinitionTable.mk _ · _) hcount
    | lastWins =>
      exact congrArg₂ (DefinitionTable.mk · · _)
        (replace_relabel σ table.definitions definition) hcount

end DefinitionTable

variable {σ} (hkeeps : σ.KeepsOperators)

include hkeeps

/-- The same nodes are definitions. -/
theorem Node.staticDefinition?_relabel (wanted : List String) (node : Node) :
    (node.relabel σ).staticDefinition? wanted =
      (node.staticDefinition? wanted).map (Prod.map (·.relabel σ) (·.relabel σ)) := by
  cases node with
  | stmt s => rfl
  | expr e =>
    cases e with
    | function fn => cases fn; rfl
    | assign target op value =>
      simp only [relabel, Expr.relabel, hkeeps op]
      cases op with
      | some op => rfl
      | none =>
        cases value with
        | function fn =>
          rw [Expr.relabel_function, staticDefinition?, staticDefinition?,
            Expr.qualifiedName?_relabel]
          cases target.qualifiedName? with
          | none => rfl
          | some name =>
            simp only [Option.map_some, name.isQualified_relabel]
            cases hqualified : name.isQualified with
            | false => rfl
            | true =>
              rw [QualifiedName.last_relabel hqualified]
              cases wanted.contains name.last <;> rfl
        | _ => rfl
    | _ => rfl

theorem SourceUnit.definitions_relabel (wanted : List String) (unit : SourceUnit) :
    (unit.relabel σ).definitions wanted = (unit.definitions wanted).map (·.relabel σ) := by
  rw [definitions_eq, definitions_eq, relabel, Stmt.nodesAll_relabelAll, List.flatMap_map]
  simp only [Node.staticDefinition?_relabel hkeeps, Option.toList_map, List.map_flatMap,
    List.map_map]
  rfl

/-- A relabeled program has the relabeled definitions. -/
theorem Program.collect_relabel (program : Program) (host : String) (wanted : List String)
    (policy : DuplicatePolicy) :
    ((program.relabel σ).collect host wanted policy).table =
      (program.collect host wanted policy).table.relabel σ := by
  have hrecord (list : List Definition) {collection collection' : Collection}
      (h : collection'.table = collection.table.relabel σ) :
      ((list.map (·.relabel σ)).foldl (Collection.record policy) collection').table =
        (list.foldl (Collection.record policy) collection).table.relabel σ := by
    induction list generalizing collection collection' with
    | nil => exact h
    | cons definition rest ih =>
      refine ih ?_
      simp only [Collection.record, h]
      exact collection.table.record_relabel σ policy definition
  have hunits (list : List SourceUnit) {collection collection' : Collection}
      (h : collection'.table = collection.table.relabel σ) :
      ((list.map (·.relabel σ)).foldl (Collection.addUnit host wanted policy) collection').table =
        (list.foldl (Collection.addUnit host wanted policy) collection).table.relabel σ := by
    induction list generalizing collection collection' with
    | nil => exact h
    | cons unit rest ih =>
      refine ih ?_
      unfold Collection.addUnit
      rw [unit.definitions_relabel hkeeps]
      change (if endsWith host unit.name then _ else _ : Collection).table = _
      split
      · refine hrecord _ ?_
        simp only [h]
        rfl
      · exact h
  exact hunits program.units rfl

end StaticInliner
