import StaticInliner.Proofs.Analysis
import StaticInliner.Proofs.Expansion
import StaticInliner.Proofs.Meaning.Statement

/-!
What a called function sees: the values of its parameters in the frame, and, if
it is eligible for inlining, the same global variables as the code that calls it.
-/
namespace StaticInliner.Meaning

variable {L : Language}

section Frame

variable {params : List String} {vs : List L.Value} {bound : List (String × L.Value)}
  {name : String}

theorem lookup_bindArgs_of_notMem (h : name ∉ params) :
    (bindArgs params vs bound).lookup name = bound.lookup name := by
  induction params generalizing vs bound with
  | nil => rw [bindArgs]
  | cons param params ih =>
    rw [List.mem_cons, not_or] at h
    cases vs with
    | nil => rw [bindArgs, ih h.2, List.lookup_cons, beq_eq_false_iff_ne.mpr h.1]
    | cons v vs => rw [bindArgs, ih h.2, List.lookup_cons, beq_eq_false_iff_ne.mpr h.1]

theorem lookup_bindArgs_of_mem (h : name ∈ params) :
    ∃ v, (bindArgs params vs bound).lookup name = some v := by
  induction params generalizing vs bound with
  | nil => simp at h
  | cons param params ih =>
    by_cases hrest : name ∈ params
    · cases vs with
      | nil => rw [bindArgs]; exact ih hrest
      | cons v vs => rw [bindArgs]; exact ih hrest
    · obtain rfl : name = param := (List.mem_cons.mp h).resolve_right hrest
      cases vs with
      | nil => exact ⟨L.undefined, by rw [bindArgs, lookup_bindArgs_of_notMem hrest]; simp⟩
      | cons v vs => exact ⟨v, by rw [bindArgs, lookup_bindArgs_of_notMem hrest]; simp⟩

theorem bindArgs_map (rename : String → String) (params : List String) (vs : List L.Value)
    (bound : List (String × L.Value)) :
    bindArgs (params.map rename) vs (bound.map fun entry => (rename entry.1, entry.2)) =
      (bindArgs params vs bound).map fun entry => (rename entry.1, entry.2) := by
  induction params generalizing vs bound with
  | nil => simp [bindArgs]
  | cons param params ih =>
    cases vs with
    | nil => exact ih [] ((param, L.undefined) :: bound)
    | cons v vs => exact ih vs ((param, v) :: bound)

theorem mem_bindArgs {entry : String × L.Value} (h : entry ∈ bindArgs params vs bound) :
    entry.1 ∈ params ∨ entry ∈ bound := by
  induction params generalizing vs bound with
  | nil => exact .inr h
  | cons param params ih =>
    have hstep (v : L.Value) (vs : List L.Value)
        (h : entry ∈ bindArgs params vs ((param, v) :: bound)) :
        entry.1 ∈ param :: params ∨ entry ∈ bound := by
      rcases ih h with h | h
      · exact .inl (List.mem_cons_of_mem _ h)
      · rcases List.mem_cons.mp h with rfl | h
        · exact .inl List.mem_cons_self
        · exact .inr h
    cases vs with
    | nil => exact hstep _ _ h
    | cons v vs => exact hstep _ _ h

/-- Parameters under other names have the same values. -/
theorem lookup_bindArgs_map {rename : String → String}
    (hinjective : ∀ p ∈ params, rename p = rename name → p = name) :
    (bindArgs (params.map rename) vs []).lookup (rename name) =
      (bindArgs params vs []).lookup name := by
  have hmap := bindArgs_map rename params vs []
  rw [List.map_nil] at hmap
  have hkeys : ∀ entry ∈ bindArgs params vs ([] : List (String × L.Value)), entry.1 ∈ params :=
    fun entry hentry => (mem_bindArgs hentry).resolve_right nofun
  rw [hmap]
  generalize bindArgs params vs [] = entries at hkeys
  induction entries with
  | nil => rfl
  | cons entry rest ih =>
    obtain ⟨param, v⟩ := entry
    rw [List.forall_mem_cons] at hkeys
    rw [List.map_cons, List.lookup_cons, List.lookup_cons]
    by_cases heq : name = param
    · subst heq
      simp
    · have hne : rename name ≠ rename param := fun h' => heq (hinjective param hkeys.1 h'.symm).symm
      rw [beq_eq_false_iff_ne.mpr heq, beq_eq_false_iff_ne.mpr hne]
      exact ih hkeys.2

variable {fn : FunctionLit}

theorem frame_param {v : L.Value} (h : (bindArgs fn.params vs []).lookup name = some v) :
    frame fn vs name = some ⟨some v, false⟩ := by
  rw [frame, h]

theorem frame_var (hparam : name ∉ fn.params) (h : name ∈ varNames fn.body) :
    frame fn vs name = some ⟨some L.undefined, false⟩ := by
  rw [frame, lookup_bindArgs_of_notMem hparam]
  exact if_pos (List.contains_iff_mem.mpr h)

theorem frame_other (hparam : name ∉ fn.params) (hvar : name ∉ varNames fn.body) :
    frame fn vs name = entryCell fn.body name := by
  rw [frame, lookup_bindArgs_of_notMem hparam]
  exact if_neg fun h => hvar (List.contains_iff_mem.mp h)

end Frame

/-- An identifier of an eligible body that the body does not declare is global,
both where the function is defined and at the call. -/
theorem reach_eq_of_eligible {definition : Definition} {site : CallSite} {scopes : ScopeTree}
    (helig : definition.Eligible site scopes) {name : String}
    (hown : definition.function.name ≠ some name)
    (hmem : Node.expr (.ident name) ∈ Stmt.nodesAll .ownLayer definition.function.body)
    (hdecl : name ∉ declaredNames definition.function.params definition.function.body)
    (self calleeSelf : L.Value) :
    (calleeView scopes definition.function calleeSelf).reach name =
      (scopeView scopes site.scope self).reach name := by
  have harguments : name ≠ "arguments" := by
    rintro rfl
    exact readsArguments_eq_false.mp helig.arguments hmem
  obtain ⟨inner, hinner, hunbound⟩ := helig.free
  obtain ⟨hdefinition, hsite⟩ := hunbound name (FunctionLit.mem_freeVariables hmem hown hdecl)
  have hcallee : (calleeView scopes definition.function calleeSelf).reach name = .global name := by
    simp only [calleeView, harguments, hown, or_self, if_false, hinner,
      resolve_eq_global hdefinition]
  exact hcallee.trans (resolve_eq_global hsite).symm

/-- Values are numbers, and every effect yields the number of effects before it. -/
def tally : Language where
  Value := Nat
  Heap := Nat
  undefined := 0
  null := 0
  bool := Bool.toNat
  number _ := 1
  string := String.length
  truthy v := v != 0
  nullish v := v == 0
  closure _ fn _ := fn.id
  member v property _ := v + property.length
  element v key _ := v + key
  unary _ v _ := v
  binary _ v w _ := v + w
  array vs _ := vs.length
  perform _ store := (.ok store.heap, { store with heap := store.heap + 1 })
  uninitialised := 0
  constant := 0

/-- The name of a function `f` of the first unit. -/
def nameOfF : QualifiedName := ⟨["f"], by decide, by decide⟩

end StaticInliner.Meaning
