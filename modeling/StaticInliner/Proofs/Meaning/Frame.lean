import StaticInliner.Proofs.Meaning.Drawn
import StaticInliner.Proofs.Meaning.Prologue
import StaticInliner.Proofs.Meaning.Rebinding

/-!
The variables of a block and the frame of a call. On entry the block has its
parameters, hoisted variables and the variables of the body; when the parameters
are bound and the hoisted variables `undefined`, they are linked to the frame.
-/
namespace StaticInliner.Meaning

variable {L : Language}

section Entry

theorem lexicals_parameters (names : Renaming) (params : List String) (args : List Expr) :
    lexicals (Block.parameters names params args) = (params.map names.apply).map (·, false) := by
  induction params generalizing args with
  | nil => rfl
  | cons param params ih =>
    cases args with
    | nil => exact congrArg _ (ih [])
    | cons arg args => exact congrArg _ (ih args)

theorem lexicals_excess (params : List String) (args : List Expr) :
    lexicals (Block.excess params args) = [] := by
  rw [lexicals, List.filterMap_eq_nil_iff]
  intro s hs
  obtain ⟨e, -, rfl⟩ := List.mem_map.mp hs
  rfl

theorem lexicals_hoistedLets (names : List String) :
    lexicals (hoistedLets names) = names.map (·, false) := by
  rw [lexicals, hoistedLets, List.filterMap_map]
  exact congrFun List.filterMap_eq_map' names

/-- A body that is lowered as ending with a return does end with one. -/
def Trailing (trailing : Bool) (body : List Stmt) : Prop :=
  trailing = true → ∃ init value, body = init ++ [.ret value]

theorem lexicals_lowerAll (result : String) (label : Option String) (body : List Stmt) :
    lexicals (Block.lowerAll result label body) = lexicals body := by
  cases label with
  | none => rfl
  | some label => exact Lowering.lexicals_returnsToJumpsAll body result label

theorem lexicals_lower (result : String) (label : Option String) {trailing : Bool}
    {body : List Stmt} (h : Trailing trailing body) :
    lexicals (Block.lower result label trailing body) = lexicals body := by
  unfold Block.lower
  cases trailing with
  | false => exact lexicals_lowerAll result label body
  | true =>
    obtain ⟨init, value, rfl⟩ := h rfl
    rw [if_pos rfl, List.dropLast_concat, lexicals_append, lexicals_append, lexicals_lowerAll,
      List.getLast?_concat]
    cases value <;> rfl

end Entry

section Frame

variable {fn : FunctionLit} {args : List Expr} {outer : List String} {drawn : Block.Drawn}

theorem mem_varNames_copy {y : String} : y ∈ varNames (drawn.copy fn).1 ↔
    ∃ x ∈ varNames fn.body, drawn.names.apply x = y := by
  rw [Block.Drawn.copy, varNames_renameAll, List.mem_map]

theorem mem_declaredNames_of_varNames {x : String} (h : x ∈ varNames fn.body) :
    x ∈ declaredNames fn.params fn.body := by
  obtain ⟨init, hmem⟩ := mem_varNames.mp h
  exact mem_declaredNames.mpr (.inr (Stmt.mem_declarationsAll_of_var fn.body hmem))

theorem mem_declaredNames_of_lexicalNames {x : String} (h : x ∈ lexicalNames fn.body) :
    x ∈ declaredNames fn.params fn.body := by
  obtain ⟨init, hmem | hmem⟩ := exists_var_of_lexicalNames h
  · exact mem_declaredNames.mpr (.inr (Stmt.mem_declarationsAll_of_var fn.body hmem))
  · exact mem_declaredNames.mpr (.inr (Stmt.mem_declarationsAll_of_var fn.body hmem))

/-- What a promotion does not concern is declared as before. -/
theorem declarationsOf_promote {inPlace : List String} {x : String} (hx : x ∉ inPlace)
    (body : List Stmt) :
    declarationsOf (body.map (·.promote inPlace)) x = declarationsOf body x := by
  induction body with
  | nil => rfl
  | cons s rest ih =>
    have hfirst : declarationsOf [s.promote inPlace] x = declarationsOf [s] x := by
      unfold Stmt.promote
      split
      · next y init =>
        by_cases hy : y ∈ inPlace
        · have hne : y ≠ x := fun heq => hx (heq ▸ hy)
          simp [declarationsOf, lexicals, lexical?, hy, hne]
        · simp [hy]
      · rfl
    rw [List.map_cons, ← List.singleton_append, declarationsOf_append, hfirst, ih,
      ← declarationsOf_append, List.singleton_append]

theorem trailing_rebound :
    Trailing (Block.endsWithReturn fn.body) (rebind (drawn.copy fn).1).body := by
  intro hends
  obtain ⟨init, value, hbody⟩ := endsWithReturn_eq_true hends
  obtain ⟨hoisted, inPlace, next, hrebound⟩ := rebound_concat hbody drawn
  exact ⟨_, _, hrebound⟩

/-- The variables of the block: parameters, hoisted variables, and those of the body
with the ones rebound in place. -/
theorem lexicals_block (fn : FunctionLit) (args : List Expr) (drawn : Block.Drawn) :
    let copy := (drawn.copy fn).1
    lexicals (drawn.block fn args) =
      (fn.params.map drawn.names.apply ++
        (varNames copy).eraseDups.filter (!rebindsInPlace copy ·)).map (·, false) ++
        lexicals
          (copy.map (·.promote ((varNames copy).eraseDups.filter (rebindsInPlace copy ·)))) := by
  intro copy
  rw [Block.Drawn.block, lexicals_append, lexicals_append, lexicals_append, lexicals_parameters,
    lexicals_excess, List.append_nil, lexicals_lower _ _ trailing_rebound, List.map_append]
  have hdeclarations : lexicals (rebind copy).declarations =
      ((varNames copy).eraseDups.filter (!rebindsInPlace copy ·)).map (·, false) :=
    lexicals_hoistedLets _
  rw [hdeclarations]
  exact congrArg _ (lexicals_demoteAll _)

variable {s : State L}

theorem enter_block_param {param : String} (h : param ∈ fn.params) :
    (s.enter (drawn.block fn args)).locals (drawn.names.apply param) = some ⟨none, false⟩ := by
  refine State.enter_let ?_
  rw [lexicals_block]
  refine List.mem_append_left _ (List.mem_map.mpr ⟨_, List.mem_append_left _ ?_, rfl⟩)
  exact List.mem_map_of_mem h

theorem enter_block_var {x : String} (h : x ∈ varNames (drawn.copy fn).1) :
    (s.enter (drawn.block fn args)).locals x = some ⟨none, false⟩ := by
  refine State.enter_let ?_
  rw [lexicals_block]
  by_cases hplace : inPlaceNames (drawn.copy fn).1 x
  · obtain ⟨init, hmem⟩ := exists_var_of_inPlaceNames hplace
    refine List.mem_append_right _ (List.mem_filterMap.mpr ⟨_, List.mem_map_of_mem hmem, ?_⟩)
    rw [promote_of_mem (mem_inPlaceNames.mpr hplace)]
    rfl
  · refine List.mem_append_left _ (List.mem_map.mpr ⟨x, List.mem_append_right _ ?_, rfl⟩)
    exact mem_hoistedNames.mpr ⟨h, hplace⟩

/-- Any other name has in the block the declarations it has in the copied body. -/
theorem declarationsOf_block {x : String} (hparam : x ∉ fn.params.map drawn.names.apply)
    (hvar : x ∉ varNames (drawn.copy fn).1) :
    declarationsOf (drawn.block fn args) x = declarationsOf (drawn.copy fn).1 x := by
  have hinPlace : x ∉ (varNames (drawn.copy fn).1).eraseDups.filter
      (rebindsInPlace (drawn.copy fn).1 ·) := fun hmem => hvar (mem_inPlaceNames.mp hmem).1
  have hlets : x ∉ fn.params.map drawn.names.apply ++
      (varNames (drawn.copy fn).1).eraseDups.filter (!rebindsInPlace (drawn.copy fn).1 ·) :=
    fun hmem => (List.mem_append.mp hmem).elim hparam fun hmem => hvar (mem_hoistedNames.mp hmem).1
  have hnone : ∀ names : List String, x ∉ names → (names.map (·, false)).filterMap
      (fun declared => if declared.1 = x then some declared.2 else none) = [] := by
    intro names hnames
    rw [List.filterMap_eq_nil_iff]
    intro declared hdeclared
    obtain ⟨name, hmem, rfl⟩ := List.mem_map.mp hdeclared
    exact if_neg fun (heq : name = x) => hnames (heq ▸ hmem)
  rw [declarationsOf, lexicals_block, List.filterMap_append, hnone _ hlets, List.nil_append]
  exact declarationsOf_promote hinPlace _

/-- The variables when the parameters are bound in the block. -/
def boundLocals (fn : FunctionLit) (args : List Expr) (drawn : Block.Drawn) (vs : List L.Value)
    (s : State L) : Locals L :=
  overlay (bindArgs (fn.params.map drawn.names.apply) vs []) (s.enter (drawn.block fn args)).locals

/-- The variables when the body starts: the hoisted ones are `undefined`. -/
def startLocals (fn : FunctionLit) (args : List Expr) (drawn : Block.Drawn) (vs : List L.Value)
    (s : State L) : Locals L := fun x =>
  if x ∈ (varNames (drawn.copy fn).1).eraseDups.filter (!rebindsInPlace (drawn.copy fn).1 ·) then
    some ⟨some L.undefined, false⟩
  else boundLocals fn args drawn vs s x

/-- The variables of a body that has not been rebound: all of them are `undefined`. -/
def frameLocals (fn : FunctionLit) (args : List Expr) (drawn : Block.Drawn) (vs : List L.Value)
    (s : State L) : Locals L := fun x =>
  if x ∈ varNames (drawn.copy fn).1 then some ⟨some L.undefined, false⟩
  else boundLocals fn args drawn vs s x

/-- Parameters listed once and not declared again by the body. -/
structure PlainParams (fn : FunctionLit) : Prop where
  nodup : fn.params.Nodup
  once : ∀ x ∈ Stmt.declarationsAll fn.body, x ∉ fn.params

theorem PlainParams.notMem_varNames (hp : PlainParams fn) {x : String} (hx : x ∈ varNames fn.body) :
    x ∉ fn.params := by
  obtain ⟨init, hmem⟩ := mem_varNames.mp hx
  exact hp.once x (Stmt.mem_declarationsAll_of_var fn.body hmem)

variable {vs : List L.Value}

/-- Parameters and variables of the body stay apart in the block. -/
theorem Fresh.param_ne_var (h : Fresh fn outer drawn) (hp : PlainParams fn) {x : String}
    (hx : x ∈ varNames (drawn.copy fn).1) : x ∉ fn.params.map drawn.names.apply := by
  intro hmem
  obtain ⟨param, hparam, heq⟩ := List.mem_map.mp hmem
  obtain ⟨y, hy, rfl⟩ := mem_varNames_copy.mp hx
  have hparam' : param ∈ declaredNames fn.params fn.body := mem_declaredNames.mpr (.inl hparam)
  obtain rfl := h.apply_injective hparam' (mem_declaredNames_of_varNames hy) heq
  exact hp.notMem_varNames hy hparam

/-- A name of the body that is neither a parameter nor a `var` variable. -/
theorem Fresh.apply_other (h : Fresh fn outer drawn) {x : String} (hparam : x ∉ fn.params)
    (hvar : x ∉ varNames fn.body) (hx : x ∈ declaredNames fn.params fn.body) :
    drawn.names.apply x ∉ fn.params.map drawn.names.apply ∧
      drawn.names.apply x ∉ varNames (drawn.copy fn).1 := by
  constructor
  · intro hmem
    obtain ⟨param, hmem, heq⟩ := List.mem_map.mp hmem
    exact hparam (h.apply_injective (mem_declaredNames.mpr (.inl hmem)) hx heq ▸ hmem)
  · intro hmem
    obtain ⟨y, hy, heq⟩ := mem_varNames_copy.mp hmem
    exact hvar (h.apply_injective (mem_declaredNames_of_varNames hy) hx heq ▸ hy)

theorem Fresh.apply_ne (h : Fresh fn outer drawn) {x y : String} (hx : x ∉ drawn.names.map (·.2))
    (hy : y ∈ declaredNames fn.params fn.body) : drawn.names.apply y ≠ x := by
  rintro rfl
  rw [← h.names] at hy
  exact hx (Renaming.apply_mem hy)

theorem Fresh.unnamed (h : Fresh fn outer drawn) {x : String} (hx : x ∉ drawn.names.map (·.2)) :
    x ∉ fn.params.map drawn.names.apply ∧ x ∉ varNames (drawn.copy fn).1 := by
  constructor
  · intro hmem
    obtain ⟨param, hparam, heq⟩ := List.mem_map.mp hmem
    exact h.apply_ne hx (mem_declaredNames.mpr (.inl hparam)) heq
  · intro hmem
    obtain ⟨y, hy, heq⟩ := mem_varNames_copy.mp hmem
    exact h.apply_ne hx (mem_declaredNames_of_varNames hy) heq

/-- The block declares only new names for those of the body. -/
theorem Fresh.undeclared (h : Fresh fn outer drawn) {x : String} (hx : x ∉ drawn.names.map (·.2)) :
    declarationsOf (drawn.block fn args) x = [] := by
  obtain ⟨hparam, hvar⟩ := h.unnamed hx
  rw [declarationsOf_block hparam hvar, declarationsOf_eq_nil, lexicalNames, Block.Drawn.copy,
    lexicals_renameAll, List.map_map, List.mem_map]
  rintro ⟨declared, hmem, heq⟩
  exact h.apply_ne hx (mem_declaredNames_of_lexicalNames (List.mem_map_of_mem hmem)) heq

theorem Fresh.outer_unnamed (h : Fresh fn outer drawn) {x : String} (hx : x ∈ outer) :
    x ∉ drawn.names.map (·.2) := fun hmem =>
  h.new x (List.mem_append_left _ (List.mem_append_right _ hmem)) hx

theorem Fresh.result_unnamed (h : Fresh fn outer drawn) :
    drawn.result ∉ drawn.names.map (·.2) :=
  (h.parts.2.2 _ (List.mem_append_left _ (List.mem_singleton_self _))).1

/-- Where neither a parameter nor a variable of the body is concerned. -/
theorem frameLocals_other {x : String} (hparam : x ∉ fn.params.map drawn.names.apply)
    (hvar : x ∉ varNames (drawn.copy fn).1) :
    frameLocals fn args drawn vs s x = (s.enter (drawn.block fn args)).locals x :=
  (if_neg hvar).trans (overlay_base (lookup_bindArgs_of_notMem hparam))

theorem awaiting_start (h : Fresh fn outer drawn) (hp : PlainParams fn) (world : World L) :
    Awaiting (inPlaceNames (drawn.copy fn).1) ⟨frameLocals fn args drawn vs s, world⟩
      ⟨startLocals fn args drawn vs s, world⟩ where
  world := rfl
  settled x hx := by
    by_cases hvar : x ∈ varNames (drawn.copy fn).1
    · exact (if_pos hvar).trans (if_pos (mem_hoistedNames.mpr ⟨hvar, hx⟩)).symm
    · exact (if_neg hvar).trans (if_neg fun hmem => hvar (mem_hoistedNames.mp hmem).1).symm
  awaited x hx := by
    refine ⟨L.undefined, if_pos hx.1, .inr ⟨rfl, ?_⟩⟩
    refine (if_neg fun hmem => (mem_hoistedNames.mp hmem).2 hx).trans ?_
    rw [boundLocals, overlay_base, enter_block_var hx.1]
    exact lookup_bindArgs_of_notMem (h.param_ne_var hp hx.1)

/-- The names that are in scope at the top of a body. -/
abbrev bodyScope (fn : FunctionLit) : List String :=
  lexicalNames fn.body ++ (fn.params ++ varNames fn.body)

/-- The frame of a call and the variables of the block. -/
theorem linked_frame (h : Fresh fn outer drawn) (hp : PlainParams fn) (callee caller : View L)
    (hs : ∀ x ∈ outer, s.locals x = none) (world : World L) :
    (h.copying callee caller).Linked (bodyScope fn) ⟨frame fn vs, world⟩
      ⟨frameLocals fn args drawn vs s, world⟩ where
  world := rfl
  inside x hx := by
    by_cases hparam : x ∈ fn.params
    · have hlookup : ∃ v, (bindArgs fn.params vs []).lookup x = some v :=
        lookup_bindArgs_of_mem hparam
      obtain ⟨v, hv⟩ := hlookup
      have hvar : drawn.names.apply x ∉ varNames (drawn.copy fn).1 :=
        fun hmem => h.param_ne_var hp hmem (List.mem_map_of_mem hparam)
      refine ⟨_, frame_param hv, (if_neg hvar).trans (overlay_bound ?_)⟩
      refine (lookup_bindArgs_map fun p hp heq => ?_).trans hv
      exact h.apply_injective (mem_declaredNames.mpr (.inl hp))
        (mem_declaredNames.mpr (.inl hparam))
        heq
    · by_cases hvar : x ∈ varNames fn.body
      · exact ⟨_, frame_var hparam hvar, if_pos (mem_varNames_copy.mpr ⟨x, hvar, rfl⟩)⟩
      · have hlexical : x ∈ lexicalNames fn.body := by simpa [hparam, hvar] using hx
        have hcell : declarationsOf fn.body x ≠ [] := fun hnil =>
          declarationsOf_eq_nil.mp hnil hlexical
        have hdeclared := mem_declaredNames_of_lexicalNames hlexical
        obtain ⟨hparam', hvar'⟩ := h.apply_other hparam hvar hdeclared
        have hblock : declarationsOf (drawn.block fn args) (drawn.names.apply x) =
            declarationsOf fn.body x :=
          (declarationsOf_block hparam' hvar').trans (Copying.declarationsOf_block
            (c := h.copying callee caller) (fun _ => mem_declaredNames_of_lexicalNames) hdeclared)
        refine ⟨⟨none, (declarationsOf fn.body x).all id⟩, ?_, ?_⟩
        · exact (frame_other hparam hvar).trans (entryCell_declared hcell)
        · refine (frameLocals_other hparam' hvar').trans ?_
          rw [State.enter_declared (hblock ▸ hcell), hblock]
  undeclared x hx := by
    have hparam : x ∉ fn.params := fun hmem => hx (mem_declaredNames.mpr (.inl hmem))
    have hvar : x ∉ varNames fn.body := fun hmem => hx (mem_declaredNames_of_varNames hmem)
    refine (frame_other hparam hvar).trans (entryCell_other (declarationsOf_eq_nil.mpr ?_))
    exact fun hmem => hx (mem_declaredNames_of_lexicalNames hmem)
  outside x hx := by
    obtain ⟨hparam, hvar⟩ := h.unnamed (h.outer_unnamed hx)
    refine (frameLocals_other hparam hvar).trans ?_
    rw [State.enter_other (h.undeclared (h.outer_unnamed hx)), hs x hx]

end Frame

end StaticInliner.Meaning
