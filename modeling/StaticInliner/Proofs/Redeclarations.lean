import StaticInliner.Proofs.ControlFlow
import StaticInliner.Proofs.Meaning.Block

/-!
Declarations of blocks. A block declares the parameters, the `var` variables of the body and
what the list of the body declares; the lists inside it declare what they declared before. So
no list declares a name twice, if none does in the body and no `var` variable is also declared
by the list of the body. In a body where all other declarations are apart, this fails just for
a `var` that shares its name with a function.
-/
namespace StaticInliner

section Replacing

theorem Stmt.blocks_of_isSimple {s : Stmt} (h : s.isSimple = true) : s.blocks = [] := by
  cases s with
  | function fn => exact Stmt.blocks_function fn
  | ifElse _ _ _ | whileDo _ _ | block _ | labeled _ _ => cases h
  | _ => exact Stmt.blocks_parts rfl

theorem Stmt.blockNames_compound {s : Stmt} (h : s.isSimple = false) : s.blockNames = [] := by
  cases s with
  | var _ _ _ | function _ => cases h
  | _ => rfl

theorem layerBlocks_of_isSimple {stmts : List Stmt} (h : ∀ s ∈ stmts, s.isSimple = true) :
    layerBlocks stmts = [blockNames stmts] := by
  rw [layerBlocks_eq, List.flatMap_eq_nil_iff.mpr fun s hs => Stmt.blocks_of_isSimple (h s hs)]

theorem layerBlocks_append (first second : List Stmt) : layerBlocks (first ++ second) =
    (blockNames first ++ blockNames second) ::
      (first.flatMap Stmt.blocks ++ second.flatMap Stmt.blocks) := by
  rw [layerBlocks_eq, blockNames, List.flatMap_append, List.flatMap_append]
  rfl

/-- What the lists of a body declare. -/
theorem bodywise_layerBlocks : Bodywise fun body body' => layerBlocks body' = layerBlocks body where
  refl _ := rfl
  append h h' := by
    rw [layerBlocks_inj] at h h'
    rw [layerBlocks_append, layerBlocks_append, h.1, h.2, h'.1, h'.2]
  below {s bodies} hs hbodies := by
    have hs' := (s.isSimple_withParts bodies).trans hs
    rw [layerBlocks_inj, blockNames, blockNames, List.flatMap_singleton, List.flatMap_singleton,
      Stmt.blockNames_compound hs, Stmt.blockNames_compound hs', List.flatMap_singleton,
      List.flatMap_singleton, Stmt.blocks_parts (Stmt.function?_compound hs),
      Stmt.blocks_parts (Stmt.function?_compound hs'),
      Stmt.bodies_withParts hs hbodies.length_eq.symm]
    rw [List.map_eq_flatMap, List.map_eq_flatMap]
    exact ⟨rfl, congrArg₂ _
      (flatMap_eq_of_forall₂ (hbodies.imp fun _ _ h => congrArg (· :: []) (layerBlocks_inj.mp h).1))
      (flatMap_eq_of_forall₂ (hbodies.imp fun _ _ h => (layerBlocks_inj.mp h).2))⟩

theorem layerBlocks_demoteAll (hoisted : List String) (stmts : List Stmt) :
    layerBlocks (Stmt.demoteAll hoisted stmts) = layerBlocks stmts :=
  bodywise_layerBlocks.demoteAll hoisted (fun _ _ => rfl) (fun _ _ _ => rfl) stmts

theorem layerBlocks_lower (result : String) (label : Option String) {trailing : Bool}
    {body : List Stmt} (h : Meaning.Trailing trailing body) :
    layerBlocks (Block.lower result label trailing body) = layerBlocks body := by
  refine bodywise_layerBlocks.lower (fun _ _ => rfl) (fun _ _ _ => ?_) (fun _ => rfl)
    fun htrailing last hlast hne => ?_
  · exact (layerBlocks_of_isSimple
      (List.forall_mem_cons.mpr ⟨rfl, List.forall_mem_singleton.mpr rfl⟩)).trans
      (layerBlocks_of_isSimple (List.forall_mem_singleton.mpr rfl)).symm
  · obtain ⟨init, value, rfl⟩ := h htrailing
    rw [List.getLast?_concat] at hlast
    cases hlast
    cases value with
    | none => rfl
    | some value => exact absurd rfl (hne value)

end Replacing

section Promoting

theorem Stmt.blocks_promote (inPlace : List String) (s : Stmt) :
    (s.promote inPlace).blocks = s.blocks := by
  cases s with
  | var kind _ _ =>
    cases kind with
    | var => exact (Stmt.blocks_of_isSimple rfl).trans (Stmt.blocks_of_isSimple rfl).symm
    | _ => rfl
  | _ => rfl

/-- A promoted `var` is declared by its list. -/
theorem Stmt.blockNames_promote (inPlace : List String) (s : Stmt) :
    (s.promote inPlace).blockNames =
      (Node.varName (.stmt s)).filter inPlace.contains ++ s.blockNames := by
  cases s with
  | var kind name _ =>
    cases kind with
    | var =>
      cases hname : inPlace.contains name <;>
        simp only [Stmt.promote, Stmt.blockNames, Node.varName, List.filter, hname] <;> rfl
    | _ => rfl
  | _ => rfl

/-- The `var` variables that are declared at the top of a body. -/
def topVars (stmts : List Stmt) : List String := stmts.flatMap fun s => Node.varName (.stmt s)

theorem blockNames_promoteAll (inPlace : List String) (stmts : List Stmt) :
    (blockNames (stmts.map (·.promote inPlace))).Perm
      ((topVars stmts).filter inPlace.contains ++ blockNames stmts) := by
  rw [blockNames, List.flatMap_map, topVars, List.filter_flatMap,
    funext (Stmt.blockNames_promote inPlace)]
  exact (List.flatMap_append_perm _ _ _).symm

theorem topVars_sublist (stmts : List Stmt) : (topVars stmts).Sublist (varNames stmts) := by
  rw [varNames_eq]
  exact Stmt.flatMap_sublist Node.varName stmts

/-- Each variable that is rebound in place is declared once, at the top. -/
theorem topVars_inPlace (stmts : List Stmt) :
    ((topVars stmts).filter
      ((varNames stmts).eraseDups.filter (rebindsInPlace stmts ·)).contains).Perm
      ((varNames stmts).eraseDups.filter (rebindsInPlace stmts ·)) := by
  refine (List.perm_ext_iff_of_nodup ?_ ((nodup_eraseDups _).filter _)).mpr fun name => ?_
  · rw [List.nodup_iff_count_le_one]
    intro name
    cases hname : ((varNames stmts).eraseDups.filter (rebindsInPlace stmts ·)).contains name with
    | false =>
      rw [List.count_eq_zero.mpr fun hmem => ?_]
      · exact Nat.zero_le 1
      · rw [(List.mem_filter.mp hmem).2] at hname
        cases hname
    | true =>
      have hplace := (Meaning.mem_inPlaceNames.mp (List.contains_iff_mem.mp hname)).2
      have honce : (varNames stmts).count name = 1 := by
        unfold rebindsInPlace at hplace
        split at hplace
        · exact beq_iff_eq.mp ((Bool.and_eq_true _ _).mp hplace).1
        · cases hplace
      rw [List.count_filter hname]
      exact honce ▸ (topVars_sublist stmts).count_le name
  · rw [List.mem_filter, List.contains_iff_mem]
    refine ⟨fun hmem => hmem.2, fun hmem => ⟨?_, hmem⟩⟩
    obtain ⟨init, hvar⟩ := Meaning.exists_var_of_inPlaceNames (Meaning.mem_inPlaceNames.mp hmem)
    exact List.mem_flatMap.mpr ⟨_, hvar, List.mem_singleton_self name⟩

end Promoting

theorem blockNames_append (first second : List Stmt) :
    blockNames (first ++ second) = blockNames first ++ blockNames second := List.flatMap_append

theorem Block.blockNames_parameters (names : Renaming) (params : List String) (args : List Expr) :
    blockNames (Block.parameters names params args) = params.map names.apply := by
  induction params generalizing args with
  | nil => rfl
  | cons param params ih =>
    cases args with
    | nil => exact congrArg _ (ih [])
    | cons arg args => exact congrArg _ (ih args)

namespace Block.Drawn

variable (drawn : Drawn) (fn : FunctionLit) (args : List Expr)

theorem blockNames_prologue :
    blockNames (drawn.prologue fn args) = fn.params.map drawn.names.apply ++ drawn.hoisted fn := by
  have hexcess : blockNames (excess fn.params args) = [] := by
    rw [blockNames, excess, List.flatMap_map]
    exact List.flatMap_eq_nil_iff.mpr fun _ _ => rfl
  have hdeclarations : blockNames (rebind (drawn.copy fn).1).declarations = drawn.hoisted fn := by
    have hlet :
      (rebind (drawn.copy fn).1).declarations = (drawn.hoisted fn).map (.var .letVar · none) := rfl
    rw [hlet, blockNames, List.flatMap_map]
    exact List.flatMap_singleton' _
  rw [prologue, blockNames_append, blockNames_append, blockNames_parameters, hexcess, hdeclarations,
    List.append_nil]

/-- What the lists of the block declare. -/
theorem layerBlocks_block : layerBlocks (drawn.block fn args) =
    (fn.params.map drawn.names.apply ++ drawn.hoisted fn ++
      blockNames ((drawn.copy fn).1.map (·.promote (drawn.inPlace fn)))) ::
        (drawn.copy fn).1.flatMap Stmt.blocks := by
  have hprologue : (drawn.prologue fn args).flatMap Stmt.blocks = [] := by
    refine List.flatMap_eq_nil_iff.mpr fun s hs => ?_
    rcases drawn.mem_prologue fn args hs with ⟨_, rfl⟩ | ⟨_, _, _, rfl⟩ <;>
      exact Stmt.blocks_of_isSimple rfl
  have hlowered : layerBlocks (drawn.lowered fn) =
      layerBlocks ((drawn.copy fn).1.map (·.promote (drawn.inPlace fn))) :=
    (layerBlocks_lower _ _ Meaning.trailing_rebound).trans (layerBlocks_demoteAll _ _)
  rw [layerBlocks_inj, List.flatMap_map,
    funext (Stmt.blocks_promote (drawn.inPlace fn))] at hlowered
  rw [block_eq, layerBlocks_append, blockNames_prologue, hprologue, hlowered.1, hlowered.2,
    List.nil_append]

/-- The block itself declares the parameters, the variables and what the list of the body
declares. -/
theorem blockNames_block : (blockNames (drawn.block fn args)).Perm
    (fn.params.map drawn.names.apply ++
      ((varNames (drawn.copy fn).1).eraseDups ++ blockNames (drawn.copy fn).1)) := by
  have hpromoted : (blockNames ((drawn.copy fn).1.map (·.promote (drawn.inPlace fn)))).Perm
      (drawn.inPlace fn ++ blockNames (drawn.copy fn).1) :=
    (blockNames_promoteAll _ _).trans ((topVars_inPlace _).append_right _)
  have hvars : (drawn.hoisted fn ++ drawn.inPlace fn).Perm (varNames (drawn.copy fn).1).eraseDups :=
    List.perm_append_comm.trans (List.filter_append_perm _ _)
  have hlists := drawn.layerBlocks_block fn args
  rw [layerBlocks_eq, List.cons_eq_cons] at hlists
  rw [hlists.1, List.append_assoc]
  refine ((hpromoted.append_left _).trans ?_).append_left _
  rw [← List.append_assoc]
  exact hvars.append_right _

theorem layerBlocks_prelude :
    layerBlocks (drawn.prelude fn args) = [drawn.result] :: layerBlocks (drawn.block fn args) := by
  have hlet : (Stmt.var .letVar drawn.result none).blocks = [] := Stmt.blocks_of_isSimple rfl
  have hwrapped : (drawn.wrapped fn args).blockNames = [] ∧
      (drawn.wrapped fn args).blocks = layerBlocks (drawn.block fn args) := by
    unfold wrapped
    split <;> rw [Stmt.blocks_parts rfl, layerBlocks_eq] <;> exact ⟨rfl, by simp [Stmt.bodies]⟩
  rw [prelude, ← List.singleton_append, layerBlocks_append, blockNames, blockNames,
    List.flatMap_singleton, List.flatMap_singleton, List.flatMap_singleton, List.flatMap_singleton,
    hlet, hwrapped.1, hwrapped.2]
  rfl

variable {drawn fn} {outer : List String}

/-- Renaming keeps different declared names different. -/
theorem nodup_map_apply (h : Meaning.Fresh fn outer drawn) {list : List String}
    (hlist : ∀ name ∈ list, name ∈ declaredNames fn.params fn.body) :
    (list.map drawn.names.apply).Nodup ↔ list.Nodup := by
  refine ⟨List.Nodup.of_map _, List.Nodup.map_on fun x hx y hy heq => ?_⟩
  exact h.apply_injective (hlist x hx) (hlist y hy) heq

theorem mem_declaredNames_of_layerBlocks {block : List String}
    (hblock : block ∈ layerBlocks fn.body) :
    ∀ name ∈ block, name ∈ declaredNames fn.params fn.body := fun _ hname =>
  mem_declaredNames.mpr
    (.inr (layerNames_subset _ ((layerBlocks_sublist block hblock).subset hname)))

theorem nodup_blockNames_block (h : Meaning.Fresh fn outer drawn) (hp : Meaning.PlainParams fn) :
    (blockNames (drawn.block fn args)).Nodup ↔
      (blockNames fn.body).Nodup ∧ ∀ name ∈ varNames fn.body, name ∉ blockNames fn.body := by
  have hdeclared : ∀ name ∈ blockNames fn.body, name ∈ declaredNames fn.params fn.body :=
    mem_declaredNames_of_layerBlocks List.mem_cons_self
  have hcopy : blockNames (drawn.copy fn).1 = (blockNames fn.body).map drawn.names.apply :=
    blockNames_renameAll _ _ _ _
  rw [(drawn.blockNames_block fn args).nodup_iff, hcopy, List.nodup_append, List.nodup_append,
    nodup_map_apply h hdeclared]
  constructor
  · rintro ⟨-, ⟨-, hnodup, hapart⟩, -⟩
    refine ⟨hnodup, fun name hvar hname => ?_⟩
    have hvar : drawn.names.apply name ∈ varNames (drawn.copy fn).1 :=
      Meaning.mem_varNames_copy.mpr ⟨name, hvar, rfl⟩
    exact hapart _ (List.mem_eraseDups.mpr hvar) _ (List.mem_map_of_mem hname) rfl
  · rintro ⟨hnodup, hapart⟩
    have hparam (param : String) (hmem : param ∈ fn.params) :
        param ∈ declaredNames fn.params fn.body :=
      mem_declaredNames.mpr (.inl hmem)
    refine ⟨(nodup_map_apply h hparam).mpr hp.nodup, ⟨nodup_eraseDups _, hnodup, ?_⟩, ?_⟩
    · rintro x hx y hy rfl
      obtain ⟨var, hvar, rfl⟩ := Meaning.mem_varNames_copy.mp (List.mem_eraseDups.mp hx)
      obtain ⟨name, hname, heq⟩ := List.mem_map.mp hy
      obtain rfl :=
        h.apply_injective (hdeclared name hname) (Meaning.mem_declaredNames_of_varNames hvar) heq
      exact hapart name hvar hname
    · rintro x hx y hy rfl
      rcases List.mem_append.mp hy with hy | hy
      · exact h.param_ne_var hp (List.mem_eraseDups.mp hy) hx
      · obtain ⟨param, hmem, rfl⟩ := List.mem_map.mp hx
        obtain ⟨name, hname, heq⟩ := List.mem_map.mp hy
        obtain rfl := h.apply_injective (hdeclared name hname) (hparam param hmem) heq
        exact hp.once name (layerNames_subset _ ((blockNames_sublist _).subset hname)) hmem

/-- The lists of a block declare no name twice just if those of the body do not, and none of
the variables is declared by the list of the body. -/
theorem nodup_layerBlocks_prelude (h : Meaning.Fresh fn outer drawn) (hp : Meaning.PlainParams fn) :
    (∀ block ∈ layerBlocks (drawn.prelude fn args), block.Nodup) ↔
      (∀ block ∈ layerBlocks fn.body, block.Nodup) ∧ ∀ name ∈ varNames fn.body,
        name ∉ blockNames fn.body := by
  have hnested : (∀ block ∈ (drawn.block fn args).flatMap Stmt.blocks, block.Nodup) ↔
      ∀ block ∈ fn.body.flatMap Stmt.blocks, block.Nodup := by
    have hblock := drawn.layerBlocks_block fn args
    have hcopy := layerBlocks_renameAll drawn.names drawn.labels fn.body drawn.ctx.nextNodeId
    rw [layerBlocks_eq, List.cons_eq_cons] at hblock
    rw [layerBlocks_eq, layerBlocks_eq, List.map_cons, List.cons_eq_cons] at hcopy
    rw [hblock.2, Block.Drawn.copy, hcopy.2, List.forall_mem_map]
    refine forall₂_congr fun block hmem => nodup_map_apply h (mem_declaredNames_of_layerBlocks ?_)
    exact layerBlocks_eq fn.body ▸ List.mem_cons_of_mem _ hmem
  rw [layerBlocks_prelude, layerBlocks_eq, layerBlocks_eq, List.forall_mem_cons,
    List.forall_mem_cons, List.forall_mem_cons, nodup_blockNames_block args h hp, hnested]
  have hresult : [drawn.result].Nodup := List.nodup_singleton _
  exact ⟨fun hlists => ⟨⟨hlists.2.1.1, hlists.2.2⟩, hlists.2.1.2⟩,
    fun hlists => ⟨hresult, ⟨hlists.1.1, hlists.2⟩, hlists.1.2⟩⟩

end Block.Drawn

/-- The names that a node declares by `let` or `const`. -/
def Node.lexicals : Node → List String
  | .stmt (.var .var _ _) => []
  | .stmt (.var _ name _) => [name]
  | _ => []

/-- A body in which only `var` variables are declared again, by `var` or as functions. -/
structure DeclaredOnce (body : List Stmt) : Prop where
  distinct : (layerNames body).Nodup
  apart : ∀ name ∈ (Stmt.nodesAll .ownLayer body).flatMap Node.lexicals, name ∉ varNames body

instance : DecidablePred DeclaredOnce := fun _ =>
  decidable_of_iff (_ ∧ _) ⟨fun h => ⟨h.1, h.2⟩, fun h => ⟨h.distinct, h.apart⟩⟩

theorem DeclaredOnce.nodup {body : List Stmt} (h : DeclaredOnce body) :
    ∀ block ∈ layerBlocks body, block.Nodup := fun block hblock =>
  h.distinct.sublist (layerBlocks_sublist block hblock)

/-- What the list of such a body declares is no variable, but for functions. -/
theorem DeclaredOnce.notMem_varNames {body : List Stmt} (h : DeclaredOnce body) :
    (∀ name ∈ varNames body, name ∉ blockNames body) ↔
      ∀ fn, .function fn ∈ body → ∀ name ∈ fn.name, name ∉ varNames body := by
  constructor
  · intro hapart fn hfn name hname hvar
    exact hapart name hvar (List.mem_flatMap.mpr ⟨_, hfn, Option.mem_toList.mpr hname⟩)
  · intro hapart name hvar hname
    obtain ⟨s, hs, hname⟩ := List.mem_flatMap.mp hname
    cases s with
    | var kind declared init =>
      have hlexical : name ∈ Node.lexicals (.stmt (.var kind declared init)) := by
        cases kind <;> exact hname
      exact h.apart name (List.mem_flatMap.mpr ⟨_, Stmt.nodes_subset_nodesAll hs
        (Stmt.self_mem_nodes .ownLayer _), hlexical⟩) hvar
    | function fn => exact hapart fn hs name (Option.mem_toList.mp hname) hvar
    | _ => cases hname

/-- No list of statements, at any depth, declares a name twice by `let`, `const` or as
functions. -/
def Legal (stmts : List Stmt) : Prop :=
  (∀ block ∈ layerBlocks stmts, block.Nodup) ∧
    ∀ literal ∈ interiorsOf stmts, ∀ block ∈ literal.blocks, block.Nodup

instance : DecidablePred Legal := fun _ => inferInstanceAs (Decidable (_ ∧ _))

/-- A block for a body in which only variables are declared again is legal, just if no variable
shares its name with a function of the list of the body. The functions in it are legal just if
those of the arguments and the body are. -/
theorem Definition.legal_expandCall {definition : Definition} {args : List Expr} {site : CallSite}
    {ctx ctx' : Context} {expansion : Expansion}
    (h : definition.expandCall args site ctx = .ok (.expanded expansion, ctx'))
    (hshape : expansion.shape = .block) (honce : DeclaredOnce definition.function.body) :
    Legal expansion.prelude ↔
      (∀ fn, .function fn ∈ definition.function.body →
        ∀ name ∈ fn.name, name ∉ varNames definition.function.body) ∧
      ∀ literal ∈ (definition.function.passed args).flatMap Expr.interiors ++
        interiorsOf definition.function.body, ∀ block ∈ literal.blocks, block.Nodup := by
  obtain ⟨-, ⟨expr, -, hdone⟩ | ⟨-, hblock, hdone⟩⟩ := Definition.expandCall_cases h
  · -- a substitution is no block
    rw [CallOutcome.expanded.inj (Prod.mk.inj hdone).1] at hshape
    cases hshape
  · rw [CallOutcome.expanded.inj (Prod.mk.inj hdone).1, Block.inline_eq]
    have hlists := Block.Drawn.nodup_layerBlocks_prelude args
      (Meaning.fresh_draw definition.function site.scope ctx)
        (Meaning.plainParams_of_unblockable? hblock)
    have hliterals := (Block.draw definition.function site.scope ctx).interiorsOf_prelude
      definition.function args
    exact and_congr (hlists.trans ((and_iff_right honce.nodup).trans honce.notMem_varNames))
      (by rw [← hliterals]; rfl)

section Settled

/-- `function(a) { if (a) { var t = a; let u = t; } var t; function pick() { let u = true;
return u; } return pick(); }`, where `t` is declared twice and `u` in two functions. -/
def Definition.picking : Definition :=
  { Definition.tallying with
    function := ⟨0, none, ["a"],
      [.ifElse (.ident "a")
        [.var .var "t" (some (.ident "a")), .var .letVar "u" (some (.ident "t"))] none,
        .var .var "t" none,
        .function ⟨1, some "pick", [],
          [.var .letVar "u" (some (.bool true)), .ret (some (.ident "u"))]⟩,
        .ret (some (.call (.ident "pick") []))]⟩ }

/-- A program that calls it. -/
def Program.picking : Program :=
  ⟨[⟨0, "host.js",
      [.expr
        (.assign (.member (.ident "A") "tally") none (.function Definition.picking.function))]⟩,
    ⟨1, "main.js", [.expr (.call (.member (.ident "A") "tally") [.bool true])]⟩]⟩

theorem Definition.legal_expandCall_picking :
    let ctx := Context.ofProgram Program.picking .counter
    let site : CallSite := ⟨4, true⟩
    DeclaredOnce picking.function.body ∧
      ∃ expansion ctx', picking.expandCall [.bool true] site ctx = .ok (.expanded expansion, ctx') ∧
        expansion.shape = .block ∧ Legal expansion.prelude := by
  intro ctx site
  have helig : picking.ineligible? site ctx.scopes = .ok none := by decide +kernel
  have hblock : picking.unblockable? site = none := by decide +kernel
  have h := Definition.expandCall_block helig rfl hblock [.bool true]
  have honce : DeclaredOnce picking.function.body := by decide +kernel
  exact ⟨honce, _, _, h, rfl, (legal_expandCall h rfl honce).mpr
    ⟨honce.notMem_varNames.mp (by decide +kernel), by decide +kernel⟩⟩

end Settled

section Sharing

/-- `A.one = function() { var x; function x() { return true; } return x(); }`, where a variable and
a function share their name, and a program that calls it. -/
def Program.sharing : Program :=
  ⟨[⟨0, "host.js",
      [.expr (.assign (.member (.ident "A") "one") none
        (.function ⟨0, none, [],
          [.var .var "x" none, .function ⟨1, some "x", [], [.ret (some (.bool true))]⟩,
            .ret (some (.call (.ident "x") []))]⟩))]⟩,
    ⟨1, "main.js", [.expr (.call (.member (.ident "A") "one") [])]⟩]⟩

/-- The variable becomes a `let` beside the function. -/
theorem Program.sharing_redeclared :
    let program := Program.sharing
    let table := (program.collect "host.js" ["one"] .lastWins).table
    let ctx := Context.ofProgram program .counter
    ∃ i ∈ program.inlinings table ctx, i.expansion.shape = .block ∧
      DeclaredOnce i.definition.function.body ∧ ¬Legal i.expansion.prelude := by
  decide +kernel

end Sharing

end StaticInliner
