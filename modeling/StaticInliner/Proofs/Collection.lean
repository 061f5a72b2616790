import Mathlib.Data.List.Forall2
import Mathlib.Data.List.Induction
import Mathlib.Data.List.Nodup
import StaticInliner.Definition.Collect
import StaticInliner.Proofs.Analysis

/-!
What a table says about a program. The host units make a list of entries, one for each
function literal that is assigned to a wanted name. A table is filled entry by entry, and at
any time it is a summary of the entries so far: of each name it keeps one entry, the first or
the last, and of a name with several entries it knows how many there are and where the first
one stands. Nothing else of the program has a part in it.
-/
namespace StaticInliner

/-- The entry that a node of the unit makes: a plain assignment of a function literal to a name
of two segments or more, the last of them wanted. -/
def SourceUnit.entry? (unit : SourceUnit) (wanted : List String) : Node → Option Definition
  | .expr (.assign target none (.function fn)) =>
    (target.qualifiedName?.filter fun name => 2 ≤ name.segments.length ∧ name.last ∈ wanted).map
      (⟨·, fn, unit.id, unit.name⟩)
  | _ => none

def Program.hosts (program : Program) (host : String) : List SourceUnit :=
  program.units.filter fun unit => host.toList <:+ unit.name.toList

/-- All entries of the host units, unit by unit and each unit in pre-order. -/
def Program.entries (program : Program) (host : String) (wanted : List String) : List Definition :=
  (program.hosts host).flatMap fun unit =>
    (Stmt.nodesAll .nested unit.body).filterMap (unit.entry? wanted)

/-- The entries of one name. -/
def named (entries : List Definition) (name : QualifiedName) : List Definition :=
  entries.filter (·.name = name)

/-- The entries with exactly one of the same name before them. -/
def seconds (entries : List Definition) : List Definition :=
  (entries.zipIdx.filter fun entry =>
    (named (entries.take entry.2) entry.1.name).length = 1).map (·.1)

/-- Which of several entries stays. -/
def DuplicatePolicy.choose (policy : DuplicatePolicy) (entries : List Definition) :
    Option Definition :=
  match policy with
  | .firstWins => entries.head?
  | .lastWins => entries.getLast?

/-- A count of the entries with the name of `second`, and the unit of the first of them. -/
def Duplicate.Counts (entries : List Definition) (second : Definition) (duplicate : Duplicate) :
    Prop :=
  duplicate.name = second.name ∧ duplicate.occurrences = (named entries second.name).length ∧
    (named entries second.name).head?.map (·.unitName) = some duplicate.unitName

/-- The table is what the policy makes of the entries. -/
structure DefinitionTable.Summarizes (policy : DuplicatePolicy) (entries : List Definition)
    (table : DefinitionTable) : Prop where
  get? : ∀ name, table.get? name = policy.choose (named entries name)
  names : table.definitions.map (·.name) = (entries.map (·.name)).eraseDups
  duplicates : List.Forall₂ (Duplicate.Counts entries) (seconds entries) table.duplicates

section Entries

theorem named_concat (entries : List Definition) (definition : Definition) (name : QualifiedName) :
    named (entries ++ [definition]) name =
      named entries name ++ if definition.name = name then [definition] else [] := by
  simp [named, List.filter_append, List.filter_cons]

theorem named_concat_self (entries : List Definition) (definition : Definition) :
    named (entries ++ [definition]) definition.name =
      named entries definition.name ++ [definition] := by
  rw [named_concat, if_pos rfl]

theorem named_concat_of_ne (entries : List Definition) {definition : Definition}
    {name : QualifiedName} (h : definition.name ≠ name) :
    named (entries ++ [definition]) name = named entries name := by
  rw [named_concat, if_neg h, List.append_nil]

theorem eraseDups_concat (names : List QualifiedName) (name : QualifiedName) :
    (names ++ [name]).eraseDups = names.eraseDups ++ if name ∈ names then [] else [name] := by
  rw [List.eraseDups_append, List.removeAll, List.filter_singleton]
  by_cases h : name ∈ names <;> simp [h, List.eraseDups_cons]

theorem named_eq_nil_iff {entries : List Definition} {name : QualifiedName} :
    named entries name = [] ↔ name ∉ entries.map (·.name) := by
  simp [named, List.filter_eq_nil_iff]

theorem seconds_concat (entries : List Definition) (definition : Definition) :
    seconds (entries ++ [definition]) = seconds entries ++
      if (named entries definition.name).length = 1 then [definition] else [] := by
  have hearlier : entries.zipIdx.filter (fun entry =>
        (named ((entries ++ [definition]).take entry.2) entry.1.name).length = 1) =
      entries.zipIdx.filter fun entry =>
        (named (entries.take entry.2) entry.1.name).length = 1 := by
    refine List.filter_congr fun entry hentry => ?_
    have hlt : entry.2 < entries.length := by simpa using List.snd_lt_of_mem_zipIdx hentry
    rw [List.take_append_of_le_length (Nat.le_of_lt hlt)]
  rw [seconds, List.zipIdx_append, List.filter_append, hearlier, List.map_append, ← seconds]
  congr 1
  simp only [List.zipIdx_singleton, Nat.zero_add, List.filter_cons, List.filter_nil,
    List.take_left', decide_eq_true_eq]
  split <;> rfl

/-- Exactly the names with two entries or more have a second one. -/
theorem mem_names_seconds (entries : List Definition) (name : QualifiedName) :
    name ∈ (seconds entries).map (·.name) ↔ 2 ≤ (named entries name).length := by
  induction entries using List.reverseRecOn with
  | nil => simp [seconds, named]
  | append_singleton entries definition ih =>
    rw [seconds_concat, List.map_append, List.mem_append, ih]
    by_cases heq : definition.name = name
    · subst heq
      rw [named_concat_self, List.length_append, List.length_singleton]
      split
      · next hone => simp [hone]
      · next hother =>
        simp only [List.map_nil, List.not_mem_nil, or_false]
        omega
    · rw [named_concat_of_ne _ heq]
      have hnone :
        name ∉ (if (named entries definition.name).length = 1 then [definition] else []).map
          (·.name) := by
        split
        · simpa using fun h => heq h.symm
        · exact List.not_mem_nil
      exact or_iff_left hnone

theorem nodup_names_seconds (entries : List Definition) :
    ((seconds entries).map (·.name)).Nodup := by
  induction entries using List.reverseRecOn with
  | nil => exact List.nodup_nil
  | append_singleton entries definition ih =>
    rw [seconds_concat]
    split
    · next hone =>
      rw [List.map_append, List.nodup_append]
      refine ⟨ih, List.nodup_singleton _, fun name hname other hother heq => ?_⟩
      obtain rfl : name = definition.name := heq.trans (List.mem_singleton.mp hother)
      have := (mem_names_seconds entries definition.name).mp hname
      omega
    · rwa [List.append_nil]

end Entries

namespace Duplicate.Counts

variable {entries : List Definition} {second definition : Definition} {duplicate : Duplicate}

/-- An entry of another name leaves a count as it is. -/
theorem concat (h : duplicate.Counts entries second) (hne : definition.name ≠ second.name) :
    duplicate.Counts (entries ++ [definition]) second := by
  rwa [Duplicate.Counts, named_concat_of_ne entries hne]

/-- An entry of the name is one more, and does not come first. -/
theorem succ (h : duplicate.Counts entries second) (heq : definition.name = second.name) :
    Duplicate.Counts (entries ++ [definition]) second
      { duplicate with occurrences := duplicate.occurrences + 1 } := by
  obtain ⟨hname, hcount, hunit⟩ := h
  have hfirst : named entries second.name ≠ [] := by
    intro hnil
    rw [hnil] at hunit
    cases hunit
  refine ⟨hname, ?_, ?_⟩
  · rw [← heq, named_concat_self, heq, List.length_append, ← hcount]
    rfl
  · rw [← heq, named_concat_self, heq, List.head?_append_of_ne_nil _ hfirst]
    exact hunit

end Duplicate.Counts

namespace DefinitionTable

variable {policy : DuplicatePolicy} {entries : List Definition} {table : DefinitionTable}

theorem get?_append (table : DefinitionTable) (definition : Definition) (name : QualifiedName) :
    { table with definitions := table.definitions ++ [definition] }.get? name =
      (table.get? name).or (if definition.name = name then some definition else none) := by
  simp only [get?, List.find?_append, List.find?_singleton, beq_iff_eq]

theorem get?_replace (table : DefinitionTable) (definition : Definition) (name : QualifiedName) :
    { table with definitions := replace table.definitions definition }.get? name =
      (table.get? name).map fun old => if definition.name = name then definition else old := by
  have hname : (fun d : Definition => d.name == name) ∘
      (fun d => if d.name == definition.name then definition else d) = (·.name == name) := by
    funext d
    by_cases h : d.name = definition.name <;> simp [h]
  rw [get?, get?, replace, List.find?_map, hname]
  refine Option.map_congr fun d hd => ?_
  have hd : d.name = name := by simpa using List.find?_some hd
  simp only [hd, beq_iff_eq, eq_comm (a := name)]

namespace Summarizes

theorem empty (policy : DuplicatePolicy) : DefinitionTable.empty.Summarizes policy [] where
  get? _ := by cases policy <;> rfl
  names := rfl
  duplicates := .nil

/-- The names of the duplicates are those of the second entries. -/
theorem map_duplicates (h : table.Summarizes policy entries) :
    table.duplicates.map (·.name) = (seconds entries).map (·.name) := by
  rw [← List.forall₂_eq_eq_eq, List.forall₂_map_left_iff, List.forall₂_map_right_iff]
  exact h.duplicates.flip.imp fun _ _ hcounts => hcounts.1

theorem get?_eq_none_iff (h : table.Summarizes policy entries) {name : QualifiedName} :
    table.get? name = none ↔ named entries name = [] := by
  rw [h.get?]
  cases policy
  · exact List.getLast?_eq_none_iff
  · exact List.head?_eq_none_iff

/-- The first two entries of a name change none of the counts there are. -/
theorem counts_concat (h : table.Summarizes policy entries) {definition : Definition}
    (hfew : (named entries definition.name).length < 2) :
    List.Forall₂ (Duplicate.Counts (entries ++ [definition]))
      (seconds entries) table.duplicates := by
  have hmany : ∀ second ∈ seconds entries, 2 ≤ (named entries second.name).length :=
    fun second hsecond =>
    (mem_names_seconds entries second.name).mp (List.mem_map_of_mem hsecond)
  refine ((List.forall₂_and_left _ _).mpr ⟨hmany, h.duplicates⟩).imp ?_
  rintro second duplicate ⟨hlength, hcounts⟩
  refine hcounts.concat fun heq => ?_
  rw [← heq] at hlength
  omega

/-- A name that is new is entered and not counted. -/
theorem enter (h : table.Summarizes policy entries) {definition : Definition}
    (hnew : table.get? definition.name = none) :
    { table with definitions := table.definitions ++ [definition] }.Summarizes policy
      (entries ++ [definition]) := by
  have hnil := h.get?_eq_none_iff.mp hnew
  refine ⟨fun name => ?_, ?_, ?_⟩
  · rw [get?_append, h.get?]
    by_cases heq : definition.name = name
    · subst heq
      rw [named_concat_self, hnil, if_pos rfl]
      cases policy <;> rfl
    · rw [named_concat_of_ne entries heq, if_neg heq, Option.or_none]
  · rw [List.map_append, List.map_append, h.names]
    exact ((eraseDups_concat _ _).trans (by rw [if_neg (named_eq_nil_iff.mp hnil)]; rfl)).symm
  · rw [seconds_concat, hnil, if_neg (by simp), List.append_nil]
    exact h.counts_concat (by rw [hnil]; decide)

/-- A name that is there is counted once more. Its first two entries are two when the second
comes, and the one that the table holds is then the first. -/
theorem count (h : table.Summarizes policy entries) {definition existing : Definition}
    (hold : table.get? definition.name = some existing) :
    List.Forall₂ (Duplicate.Counts (entries ++ [definition])) (seconds (entries ++ [definition]))
      (countDuplicate table.duplicates definition.name existing.unitName) := by
  have hany : table.duplicates.any (·.name == definition.name) = true ↔
      2 ≤ (named entries definition.name).length := by
    rw [← mem_names_seconds, ← h.map_duplicates]
    simp
  have hne : named entries definition.name ≠ [] := by
    rw [ne_eq, ← h.get?_eq_none_iff, hold]
    exact Option.some_ne_none _
  unfold countDuplicate
  split
  · next hmem =>
    have hseconds : seconds (entries ++ [definition]) = seconds entries := by
      rw [seconds_concat, if_neg (by have := hany.mp hmem; omega), List.append_nil]
    rw [hseconds, List.forall₂_map_right_iff]
    refine h.duplicates.imp fun second duplicate hcounts => ?_
    by_cases heq : definition.name = second.name
    · rw [if_pos (by rw [hcounts.1, heq, beq_self_eq_true])]
      exact hcounts.succ heq
    · rw [if_neg (by rw [hcounts.1, beq_iff_eq]; exact fun h => heq h.symm)]
      exact hcounts.concat heq
  · next hmem =>
    have hone : (named entries definition.name).length = 1 := by
      have := List.length_pos_iff.mpr hne
      have := mt hany.mpr hmem
      omega
    obtain ⟨first, hfirst⟩ := List.length_eq_one_iff.mp hone
    have hexisting : existing = first := by
      rw [h.get?, hfirst] at hold
      cases policy <;> exact (Option.some.inj hold).symm
    rw [seconds_concat, if_pos hone]
    refine List.rel_append (h.counts_concat (by omega)) (.cons ⟨rfl, ?_, ?_⟩ .nil)
    · rw [named_concat_self, hfirst]
      rfl
    · rw [named_concat_self, hfirst, hexisting]
      rfl

/-- One more entry is recorded. -/
theorem record (h : table.Summarizes policy entries) (definition : Definition) :
    (table.record policy definition).Summarizes policy (entries ++ [definition]) := by
  unfold DefinitionTable.record
  split
  · next hnew => exact h.enter hnew
  · next existing hold =>
    have hne : named entries definition.name ≠ [] := by
      rw [ne_eq, ← h.get?_eq_none_iff, hold]
      exact Option.some_ne_none _
    have hmem : definition.name ∈ entries.map (·.name) :=
      not_not.mp (mt named_eq_nil_iff.mpr hne)
    have hnames : ((entries ++ [definition]).map (·.name)).eraseDups =
        (entries.map (·.name)).eraseDups := by
      rw [List.map_append]
      exact (eraseDups_concat _ _).trans (by rw [if_pos hmem, List.append_nil])
    refine ⟨fun name => ?_, ?_, h.count hold⟩
    · cases policy with
      | firstWins =>
        refine (h.get? name).trans ?_
        by_cases heq : definition.name = name
        · subst heq
          rw [named_concat_self]
          exact (List.head?_append_of_ne_nil _ hne).symm
        · rw [named_concat_of_ne entries heq]
      | lastWins =>
        refine (get?_replace table definition name).trans ?_
        by_cases heq : definition.name = name
        · subst heq
          rw [named_concat_self, hold, Option.map_some, if_pos rfl]
          exact List.getLast?_concat.symm
        · rw [named_concat_of_ne entries heq, ← h.get?]
          simp only [if_neg heq, Option.map_id']
    · cases policy with
      | firstWins => exact h.names.trans hnames.symm
      | lastWins =>
        refine Eq.trans ?_ (h.names.trans hnames.symm)
        simp only [replace, List.map_map]
        refine List.map_congr_left fun d _ => ?_
        by_cases heq : d.name = definition.name <;> simp [heq]

theorem foldl_record (h : table.Summarizes policy entries) (more : List Definition) :
    (more.foldl (fun table definition => table.record policy definition) table).Summarizes policy
      (entries ++ more) := by
  induction more generalizing table entries with
  | nil => rwa [List.append_nil]
  | cons definition rest ih =>
    rw [List.append_cons]
    exact ih (h.record definition)

end Summarizes

end DefinitionTable

section Units

variable {host : String} {wanted : List String} {policy : DuplicatePolicy}

theorem SourceUnit.definitions_eq (wanted : List String) (unit : SourceUnit) :
    unit.definitions wanted =
      ((Stmt.nodesAll .nested unit.body).flatMap fun node =>
        (node.staticDefinition? wanted).toList).map
        fun found => ⟨found.1, found.2, unit.id, unit.name⟩ := by
  unfold definitions
  simp only
  rw [Stmt.foldNodes_eq_foldl, reverse_foldl_collect fun node =>
    (node.staticDefinition? wanted).toList]
  · rfl
  · intro found node
    cases node.staticDefinition? wanted <;> rfl

theorem SourceUnit.entry?_eq (wanted : List String) (unit : SourceUnit) (node : Node) :
    unit.entry? wanted node =
      (node.staticDefinition? wanted).map fun found => ⟨found.1, found.2, unit.id, unit.name⟩ := by
  unfold entry?
  split
  · next target fn =>
    rw [Node.staticDefinition?]
    cases target.qualifiedName? with
    | none => rfl
    | some name =>
      have hwanted : (name.isQualified && wanted.contains name.last) =
          decide (2 ≤ name.segments.length ∧ name.last ∈ wanted) := by
        rw [Bool.decide_and, List.contains_eq_mem]
        rfl
      simp only [Option.filter_some, hwanted]
      split <;> rfl
  · next hother => rw [Node.staticDefinition?.eq_2 _ _ hother, Option.map_none]

theorem SourceUnit.definitions_eq_filterMap (wanted : List String) (unit : SourceUnit) :
    unit.definitions wanted = (Stmt.nodesAll .nested unit.body).filterMap (unit.entry? wanted) := by
  rw [definitions_eq, List.map_flatMap, List.filterMap_eq_flatMap_toList]
  simp only [entry?_eq, Option.toList_map]

theorem endsWith_iff {suffix text : String} :
    endsWith suffix text = true ↔ suffix.toList <:+ text.toList := by
  rw [endsWith, List.isSuffixOf_iff_suffix]

/-- A unit that is no host changes nothing. -/
theorem Program.collect_hosts (program : Program) :
    (Program.mk (program.hosts host)).collect host wanted policy =
      program.collect host wanted policy := by
  rw [collect, collect, hosts, List.foldl_filter]
  congr 1
  funext collection unit
  unfold Collection.addUnit
  simp only [endsWith_iff, decide_eq_true_eq]
  split <;> rfl

theorem Collection.table_foldl_record (list : List Definition) (collection : Collection) :
    (list.foldl (record policy) collection).table =
      list.foldl (fun table definition => table.record policy definition) collection.table := by
  induction list generalizing collection with
  | nil => rfl
  | cons definition rest ih => exact ih _

theorem DefinitionTable.hostUnits_foldl_record (list : List Definition) (table : DefinitionTable) :
    (list.foldl (fun table definition => table.record policy definition) table).hostUnits =
      table.hostUnits := by
  induction list generalizing table with
  | nil => rfl
  | cons definition rest ih =>
    rw [List.foldl_cons, ih]
    unfold record
    split <;> rfl

theorem Collection.table_addUnit (collection : Collection) {unit : SourceUnit}
    (h : host.toList <:+ unit.name.toList) : (addUnit host wanted policy collection unit).table =
      (unit.definitions wanted).foldl (fun table definition => table.record policy definition)
        ⟨collection.table.definitions, collection.table.duplicates,
          collection.table.hostUnits ++ [unit.name]⟩ := by
  rw [addUnit, if_pos (endsWith_iff.mpr h), table_foldl_record]

theorem DefinitionTable.Summarizes.addUnit {collection : Collection} {entries : List Definition}
    (h : collection.table.Summarizes policy entries) {unit : SourceUnit}
    (hhost : host.toList <:+ unit.name.toList) :
    (Collection.addUnit host wanted policy collection unit).table.Summarizes policy
      (entries ++ (Stmt.nodesAll .nested unit.body).filterMap (unit.entry? wanted)) := by
  have hstart : DefinitionTable.Summarizes policy entries
      ⟨collection.table.definitions, collection.table.duplicates,
        collection.table.hostUnits ++ [unit.name]⟩ := ⟨h.get?, h.names, h.duplicates⟩
  rw [Collection.table_addUnit collection hhost, ← unit.definitions_eq_filterMap]
  exact hstart.foldl_record _

/-- The hosts are searched one after another. -/
theorem DefinitionTable.Summarizes.foldl_addUnit {units : List SourceUnit}
    (hhosts : ∀ unit ∈ units, host.toList <:+ unit.name.toList) {collection : Collection}
    {entries : List Definition} (h : collection.table.Summarizes policy entries) :
    (units.foldl (Collection.addUnit host wanted policy) collection).table.Summarizes policy
      (entries ++ units.flatMap fun unit =>
        (Stmt.nodesAll .nested unit.body).filterMap (unit.entry? wanted)) := by
  induction units generalizing collection entries with
  | nil => simpa using h
  | cons unit rest ih =>
    obtain ⟨hhost, hrest⟩ := List.forall_mem_cons.mp hhosts
    rw [List.flatMap_cons, ← List.append_assoc]
    exact ih hrest (h.addUnit hhost)

theorem Collection.hostUnits_foldl_addUnit {units : List SourceUnit}
    (hhosts : ∀ unit ∈ units, host.toList <:+ unit.name.toList) (collection : Collection) :
    (units.foldl (addUnit host wanted policy) collection).table.hostUnits =
      collection.table.hostUnits ++ units.map (·.name) := by
  induction units generalizing collection with
  | nil => simp
  | cons unit rest ih =>
    obtain ⟨hhost, hrest⟩ := List.forall_mem_cons.mp hhosts
    rw [List.foldl_cons, ih hrest, table_addUnit collection hhost,
      DefinitionTable.hostUnits_foldl_record, List.map_cons]
    exact (List.append_cons _ _ _).symm

end Units

/-- The table of a program maps a name to its first or last entry, counts the names with
several entries in the order of the second ones, and names the hosts. It depends on the hosts
alone. -/
theorem Program.collect_summary (program : Program) (host : String) (wanted : List String)
    (policy : DuplicatePolicy) :
    let entries := program.entries host wanted
    let table := (program.collect host wanted policy).table
    (∀ name, table.get? name = policy.choose (named entries name)) ∧
      table.definitions.map (·.name) = (entries.map (·.name)).eraseDups ∧
      (∀ name, name ∈ table.duplicates.map (·.name) ↔ 2 ≤ (named entries name).length) ∧
      (table.duplicates.map (·.name)).Nodup ∧
      List.Forall₂ (Duplicate.Counts entries) (seconds entries) table.duplicates ∧
      table.hostUnits = (program.hosts host).map (·.name) ∧
      (Program.mk (program.hosts host)).collect host wanted policy =
        program.collect host wanted policy := by
  intro entries table
  have hhosts : ∀ unit ∈ program.hosts host, host.toList <:+ unit.name.toList :=
    fun unit hunit => of_decide_eq_true (List.mem_filter.mp hunit).2
  have htable : table = ((program.hosts host).foldl (Collection.addUnit host wanted policy)
      ⟨.empty, []⟩).table := congrArg Collection.table program.collect_hosts.symm
  have hstart : (Collection.mk .empty []).table.Summarizes policy [] := .empty policy
  have hsummary : table.Summarizes policy entries := htable ▸ hstart.foldl_addUnit hhosts
  have hnames := hsummary.map_duplicates
  refine ⟨hsummary.get?, hsummary.names, fun name => ?_, ?_, hsummary.duplicates, ?_,
    program.collect_hosts⟩
  · rw [hnames]
    exact mem_names_seconds entries name
  · rw [hnames]
    exact nodup_names_seconds entries
  · rw [htable]
    exact Collection.hostUnits_foldl_addUnit hhosts ⟨.empty, []⟩

end StaticInliner
