import StaticInliner.Proofs.AlphaConversion

/-!
Control flow of blocks. The statements of a block are those of the body up to a return at its
end, renamed, rebound and lowered one by one, and then an assignment to the result. No return
is left, and jumps end where they ended before or at the label of the block, which is there
just if some return is not at the end. Functions inside keep their returns.
-/
namespace StaticInliner

section Jumps

open Meaning

theorem jumpsInsideAll_eq_all (loop : Bool) (inside : List String) (stmts : List Stmt) :
    jumpsInsideAll loop inside stmts = stmts.all (jumpsInside loop inside) := by
  induction stmts with
  | nil => rfl
  | cons s rest ih => rw [jumpsInsideAll, ih, List.all_cons]

theorem jumpsInsideAll_iff {loop : Bool} {inside : List String} {stmts : List Stmt} :
    jumpsInsideAll loop inside stmts = true ↔ ∀ s ∈ stmts, jumpsInside loop inside s = true := by
  rw [jumpsInsideAll_eq_all, List.all_eq_true]

theorem Stmt.forall_mem_renameAll {P : Stmt → Prop} {names labels : Renaming} {stmts : List Stmt}
    (h : ∀ s ∈ stmts, ∀ next, P (s.rename names labels next).1) (next : IdCounter) :
    ∀ s ∈ (Stmt.renameAll names labels stmts next).1, P s := by
  induction stmts generalizing next with
  | nil => exact List.forall_mem_nil _
  | cons s rest ih =>
    obtain ⟨hs, hrest⟩ := List.forall_mem_cons.mp h
    exact List.forall_mem_cons.mpr ⟨hs next, ih hrest _⟩

/-- The jumps of a renamed statement end at the renamed labels. -/
theorem Stmt.jumpsInside_rename (names labels : Renaming) (s : Stmt) {loop : Bool}
    {inside inside' : List String} (hinside : ∀ label ∈ inside, labels.apply label ∈ inside')
    (h : jumpsInside loop inside s = true) (next : IdCounter) :
    jumpsInside loop inside' (s.rename names labels next).1 = true := by
  induction s using Stmt.byBodies generalizing loop inside inside' next with
  | statement s ih =>
    have hbody (body : List Stmt) (hmem : body ∈ s.bodies) {loop : Bool}
      {inside inside' : List String}
        (hinside : ∀ label ∈ inside, labels.apply label ∈ inside')
        (h : jumpsInsideAll loop inside body = true) (next : IdCounter) :
        jumpsInsideAll loop inside' (Stmt.renameAll names labels body next).1 = true := by
      rw [jumpsInsideAll_iff] at h ⊢
      exact Stmt.forall_mem_renameAll (fun s hs next => ih body hmem s hs hinside (h s hs) next)
        next
    cases s with
    | breakTo target | continueTo target =>
      cases target with
      | none => exact h
      | some label =>
        exact List.contains_iff_mem.mpr (hinside label (List.contains_iff_mem.mp h))
    | ifElse _ thenBranch elseBranch =>
      cases elseBranch with
      | none => exact hbody thenBranch List.mem_cons_self hinside h _
      | some elseBranch =>
        obtain ⟨hthen, helse⟩ := (Bool.and_eq_true _ _).mp h
        exact (Bool.and_eq_true _ _).mpr ⟨hbody thenBranch List.mem_cons_self hinside hthen _,
          hbody elseBranch (List.mem_cons_of_mem _ List.mem_cons_self) hinside helse _⟩
    | whileDo _ body | block body => exact hbody body List.mem_cons_self hinside h _
    | labeled label body =>
      -- the label is around the body before and after
      refine hbody body List.mem_cons_self (List.forall_mem_cons.mpr ⟨List.mem_cons_self, ?_⟩) h _
      exact fun other hother => List.mem_cons_of_mem _ (hinside other hother)
    | var _ _ init => cases init <;> rfl
    | ret value => cases value <;> rfl
    | function fn => cases fn; rfl
    | expr _ | throw _ => rfl

/-- Jumps that stay inside still do so, if those among the given labels do. -/
theorem bodywise_jumpsInside (base : List String) : Bodywise fun body body' => ∀ loop inside,
    base ⊆ inside → jumpsInsideAll loop inside body = true →
      jumpsInsideAll loop inside body' = true where
  refl _ _ _ _ h := h
  append h h' loop inside hbase := by
    simp only [jumpsInsideAll_iff, List.forall_mem_append] at h h' ⊢
    exact fun hboth => ⟨h loop inside hbase hboth.1, h' loop inside hbase hboth.2⟩
  below {s bodies} hs hbodies loop inside hbase := by
    simp only [jumpsInsideAll_iff, List.forall_mem_singleton]
    cases s with
    | ifElse _ _ elseBranch =>
      cases elseBranch with
      | none =>
        obtain _ | ⟨hbody, _ | _⟩ := hbodies
        exact hbody loop inside hbase
      | some _ =>
        obtain _ | ⟨hthen, _ | ⟨helse, _ | _⟩⟩ := hbodies
        intro h
        obtain ⟨hthen', helse'⟩ := (Bool.and_eq_true _ _).mp h
        exact (Bool.and_eq_true _ _).mpr ⟨hthen loop inside hbase hthen',
          helse loop inside hbase helse'⟩
    | whileDo _ _ =>
      obtain _ | ⟨hbody, _ | _⟩ := hbodies
      exact hbody true inside hbase
    | block _ =>
      obtain _ | ⟨hbody, _ | _⟩ := hbodies
      exact hbody loop inside hbase
    | labeled label _ =>
      obtain _ | ⟨hbody, _ | _⟩ := hbodies
      exact hbody loop (label :: inside) (List.subset_cons_of_subset _ hbase)
    | _ => cases hs

theorem jumpsInsideAll_rebind (hoisted inPlace : List String) {stmts : List Stmt} {loop : Bool}
    {inside : List String} (h : jumpsInsideAll loop inside stmts = true) :
    jumpsInsideAll loop inside (Stmt.demoteAll hoisted (stmts.map (·.promote inPlace))) = true := by
  have hbodywise := bodywise_jumpsInside []
  refine hbodywise.demoteAll hoisted (fun _ _ _ _ _ _ => rfl)
    (fun _ _ _ _ _ _ _ => rfl) _ loop inside
    (List.nil_subset _) ?_
  exact hbodywise.promoteAll (fun _ _ _ _ _ _ => rfl) inPlace stmts loop inside
    (List.nil_subset _) h

theorem jumpsInsideAll_lowerAll (result : String) {label : Option String} {stmts : List Stmt}
    {loop : Bool} (h : jumpsInsideAll loop label.toList stmts = true) :
    jumpsInsideAll loop label.toList (Block.lowerAll result label stmts) = true := by
  have hjump (target : String) (htarget : target ∈ label) (loop : Bool) (inside : List String)
      (hbase : label.toList ⊆ inside) :
        jumpsInsideAll loop inside [.breakTo (some target)] = true := by
    rw [jumpsInsideAll_iff, List.forall_mem_singleton]
    exact List.contains_iff_mem.mpr (hbase (Option.mem_toList.mpr htarget))
  exact (bodywise_jumpsInside label.toList).lowerAll
    (fun target htarget loop inside hbase _ => hjump target htarget loop inside hbase)
    (fun target htarget _ loop inside hbase _ => hjump target htarget loop inside hbase) stmts loop
      label.toList
    (List.Subset.refl _) h

end Jumps

section Returns

theorem returns_mem_marks {node : Node} : .returns ∈ node.marks ↔ node.isReturn = true := by
  cases node with
  | expr e => cases e <;> simp [Node.marks, Node.isReturn]
  | stmt s =>
    cases s with
    | breakTo label | continueTo label => cases label <;> simp [Node.marks, Node.isReturn]
    | _ => simp [Node.marks, Node.isReturn]

/-- Some return stands in the own layer of the statements. -/
def HasReturn (stmts : List Stmt) : Prop :=
  ∃ node ∈ Stmt.nodesAll .ownLayer stmts, node.isReturn = true

theorem hasReturn_iff {stmts : List Stmt} :
    HasReturn stmts ↔ .returns ∈ marksOf (Stmt.nodesAll .ownLayer stmts) := by
  simp only [HasReturn, marksOf, List.mem_flatMap, returns_mem_marks]

theorem returnCount_eq_zero {stmts : List Stmt} : returnCount stmts = 0 ↔ ¬HasReturn stmts := by
  simp only [returnCount_eq, List.countP_eq_zero, HasReturn, not_exists, not_and]

theorem hasReturn_append {first second : List Stmt} :
    HasReturn (first ++ second) ↔ HasReturn first ∨ HasReturn second := by
  simp only [hasReturn_iff, Stmt.nodesAll_append, marksOf_append, List.mem_append]

theorem hasReturn_iff_exists {stmts : List Stmt} :
    HasReturn stmts ↔ ∃ s ∈ stmts, HasReturn [s] := by
  induction stmts with
  | nil => simp [HasReturn, Stmt.nodesAll]
  | cons s rest ih => rw [← List.singleton_append, hasReturn_append, ih]; simp

theorem hasReturn_parts {s : Stmt} (h : s.function? = none) :
    HasReturn [s] ↔ Node.isReturn (.stmt s) = true ∨ ∃ body ∈ s.bodies, HasReturn body := by
  have hexpr (e : Expr) (node : Node) (hnode : node ∈ e.nodes .ownLayer) :
      ¬node.isReturn = true := by
    obtain ⟨_, rfl⟩ := e.isExpr_of_mem_nodes node hnode
    exact Bool.false_ne_true
  simp only [HasReturn, Stmt.nodesAll, List.append_nil, Stmt.nodes_parts .ownLayer h, List.mem_cons,
    List.mem_append, List.mem_flatMap, Expr.mem_nodesAll, or_and_right, exists_or, exists_eq_left]
  refine or_congr_right ⟨?_, ?_⟩
  · rintro (⟨node, ⟨e, -, hnode⟩, hreturn⟩ | ⟨node, ⟨body, hbody, hnode⟩, hreturn⟩)
    · exact absurd hreturn (hexpr e node hnode)
    · exact ⟨body, hbody, node, hnode, hreturn⟩
  · rintro ⟨body, hbody, node, hnode, hreturn⟩
    exact .inr ⟨node, ⟨body, hbody, hnode⟩, hreturn⟩

theorem hasReturn_compound {s : Stmt} (h : s.isSimple = false) :
    HasReturn [s] ↔ ∃ body ∈ s.bodies, HasReturn body := by
  rw [hasReturn_parts (Stmt.function?_compound h), or_iff_right]
  cases s with
  | ret _ => cases h
  | _ => exact Bool.false_ne_true

/-- A simple statement that is no return has none. -/
theorem not_hasReturn_simple {s : Stmt} (h : s.isSimple = true)
    (hself : Node.isReturn (.stmt s) = false) :
    ¬HasReturn [s] := by
  cases s with
  | ifElse _ _ _ | whileDo _ _ | block _ | labeled _ _ => cases h
  | ret _ => cases hself
  | function fn =>
    cases fn
    simp [HasReturn, Stmt.nodesAll, Stmt.nodes, Node.isReturn]
  | _ =>
    rw [hasReturn_parts rfl, hself]
    simp [Stmt.bodies]

/-- No return is left where returns have become jumps. -/
theorem Stmt.not_hasReturn_returnsToJumps (result label : String) (s : Stmt) :
    ¬HasReturn (s.returnsToJumps result label) := by
  induction s using Stmt.byBodies with
  | statement s ih =>
    cases hs : s.isSimple with
    | false =>
      rw [(descends_returnsToJumps result label).eq_withParts hs,
        hasReturn_compound ((s.isSimple_withParts _).trans hs),
        Stmt.bodies_withParts hs (List.length_map _)]
      rintro ⟨_, hmem, hreturn⟩
      obtain ⟨body, hbody, rfl⟩ := List.mem_map.mp hmem
      obtain ⟨inner', hinner', hreturn⟩ := hasReturn_iff_exists.mp hreturn
      obtain ⟨inner, hinner, hinner'⟩ := List.mem_flatMap.mp hinner'
      exact ih body hbody inner hinner (hasReturn_iff_exists.mpr ⟨inner', hinner', hreturn⟩)
    | true =>
      cases s with
      | ret value =>
        have hjump : ¬HasReturn [.breakTo (some label)] := not_hasReturn_simple rfl rfl
        cases value with
        | none => exact hjump
        | some value =>
          rw [Stmt.returnsToJumps, ← List.singleton_append, hasReturn_append, not_or]
          exact ⟨not_hasReturn_simple rfl rfl, hjump⟩
      | ifElse _ _ _ | whileDo _ _ | block _ | labeled _ _ => cases hs
      | _ => exact not_hasReturn_simple rfl rfl

/-- The body without a return at its end. -/
def beforeReturn (body : List Stmt) : List Stmt :=
  if Block.endsWithReturn body then body.dropLast else body

theorem beforeReturn_concat (init : List Stmt) (value : Option Expr) :
    beforeReturn (init ++ [Stmt.ret value]) = init := by
  simp [beforeReturn, Block.endsWithReturn]

/-- A label is needed just if there is a return before the end. -/
theorem Block.needsLabel_iff {body : List Stmt} :
    Block.needsLabel body = true ↔ HasReturn (beforeReturn body) := by
  rw [← not_iff_not, ← returnCount_eq_zero, Block.needsLabel, decide_eq_true_iff]
  cases hends : Block.endsWithReturn body with
  | false => simp [beforeReturn, hends]
  | true =>
    obtain ⟨init, value, rfl⟩ := Meaning.endsWithReturn_eq_true hends
    rw [beforeReturn_concat, returnCount_concat]
    simp

end Returns

namespace Block.Drawn

variable (drawn : Drawn) (fn : FunctionLit) (args : List Expr)

/-- The variables that are declared ahead of the copied body. -/
def hoisted : List String :=
  (varNames (drawn.copy fn).1).eraseDups.filter (!rebindsInPlace (drawn.copy fn).1 ·)

/-- The variables that stay where they are declared. -/
def inPlace : List String :=
  (varNames (drawn.copy fn).1).eraseDups.filter (rebindsInPlace (drawn.copy fn).1 ·)

/-- The copied body up to a return at its end, rebound. -/
def early : List Stmt :=
  Stmt.demoteAll (drawn.hoisted fn) ((Stmt.renameAll drawn.names drawn.labels (beforeReturn fn.body)
    drawn.ctx.nextNodeId).1.map (·.promote (drawn.inPlace fn)))

/-- A return at the end of the body becomes an assignment at the end of the block. -/
theorem lowered_eq :
    ∃ last, drawn.lowered fn = lowerAll drawn.result drawn.label (drawn.early fn) ++ last ∧
    ∀ s ∈ last, ∃ value, s = .assign drawn.result value := by
  cases hends : endsWithReturn fn.body with
  | false =>
    refine ⟨[], ?_, List.forall_mem_nil _⟩
    rw [lowered, lower, early, beforeReturn, hends, List.append_nil]
    rfl
  | true =>
    obtain ⟨init, value, hbody⟩ := Meaning.endsWithReturn_eq_true hends
    have hrebound : ∃ value', (rebind (drawn.copy fn).1).body =
        drawn.early fn ++ [Stmt.ret value'] := by
      have hcopy : ∃ value', (drawn.copy fn).1 = (Stmt.renameAll drawn.names drawn.labels init
          drawn.ctx.nextNodeId).1 ++ [Stmt.ret value'] := by
        rw [copy, hbody, Stmt.renameAll_append]
        cases value <;> exact ⟨_, rfl⟩
      obtain ⟨value', hcopy⟩ := hcopy
      refine ⟨value', ?_⟩
      rw [early, hbody, beforeReturn_concat]
      have hbody : (rebind (drawn.copy fn).1).body =
          Stmt.demoteAll (drawn.hoisted fn)
            ((drawn.copy fn).1.map (·.promote (drawn.inPlace fn))) := rfl
      rw [hbody, hcopy, List.map_append, Meaning.demoteAll_append]
      rfl
    obtain ⟨value', hrebound⟩ := hrebound
    rw [lowered, lower, hends, if_pos rfl, hrebound, List.dropLast_concat, List.getLast?_concat]
    cases value' with
    | none => exact ⟨[], rfl, List.forall_mem_nil _⟩
    | some value' => exact ⟨_, rfl, List.forall_mem_singleton.mpr ⟨value', rfl⟩⟩

theorem jumpsInside_early {loop : Bool} (h : Meaning.jumpsInsideAll loop [] fn.body = true)
    (inside : List String) : Meaning.jumpsInsideAll loop inside (drawn.early fn) = true := by
  rw [jumpsInsideAll_iff] at h ⊢
  have hbefore : ∀ s ∈ beforeReturn fn.body, Meaning.jumpsInside loop [] s = true := by
    unfold beforeReturn
    split
    · exact fun s hs => h s (List.dropLast_subset _ hs)
    · exact h
  exact jumpsInsideAll_iff.mp (jumpsInsideAll_rebind _ _ (jumpsInsideAll_iff.mpr
    (Stmt.forall_mem_renameAll (fun s hs => Stmt.jumpsInside_rename _ _ s (List.forall_mem_nil _)
      (hbefore s hs)) _)))

/-- The jumps of the block end inside it, or at its label. -/
theorem jumpsInside_prelude {loop : Bool} (h : Meaning.jumpsInsideAll loop [] fn.body = true) :
    Meaning.jumpsInsideAll loop [] (drawn.prelude fn args) = true := by
  have hlowerAll : Meaning.jumpsInsideAll loop drawn.label.toList
      (lowerAll drawn.result drawn.label (drawn.early fn)) = true :=
    jumpsInsideAll_lowerAll _ (drawn.jumpsInside_early fn h drawn.label.toList)
  have hblock : Meaning.jumpsInsideAll loop drawn.label.toList (drawn.block fn args) = true := by
    obtain ⟨last, hlowered, hlast⟩ := drawn.lowered_eq fn
    rw [block_eq, hlowered, jumpsInsideAll_iff, List.forall_mem_append, List.forall_mem_append]
    refine ⟨fun s hs => ?_, jumpsInsideAll_iff.mp hlowerAll, fun s hs => ?_⟩
    · rcases drawn.mem_prologue fn args hs with ⟨_, rfl⟩ | ⟨_, _, _, rfl⟩ <;> rfl
    · obtain ⟨_, rfl⟩ := hlast s hs
      rfl
  rw [jumpsInsideAll_iff, prelude, List.forall_mem_cons, List.forall_mem_singleton]
  refine ⟨rfl, ?_⟩
  unfold wrapped
  cases hlabel : drawn.label with
  | none =>
    rw [hlabel] at hblock
    exact hblock
  | some label =>
    rw [hlabel] at hblock
    exact hblock

/-- Renaming and rebinding add no return. -/
theorem hasReturn_early (h : HasReturn (drawn.early fn)) : HasReturn (beforeReturn fn.body) := by
  rw [hasReturn_iff] at h
  have hcopy : HasReturn (Stmt.renameAll drawn.names drawn.labels (beforeReturn fn.body)
      drawn.ctx.nextNodeId).1 := hasReturn_iff.mpr (marks_rebind .ownLayer _ _ _ h)
  rwa [← not_not (a := HasReturn _), ← returnCount_eq_zero, returnCount_renameAll,
    returnCount_eq_zero, not_not] at hcopy

/-- The block has no return of its own, if it has a label wherever one is needed. -/
theorem not_hasReturn_prelude
    (hlabel : HasReturn (beforeReturn fn.body) → drawn.label.isSome = true) :
    ¬HasReturn (drawn.prelude fn args) := by
  have hlowerAll : ¬HasReturn (lowerAll drawn.result drawn.label (drawn.early fn)) := by
    cases hdrawn : drawn.label with
    | none =>
      intro hreturn
      have hsome := hlabel (drawn.hasReturn_early fn hreturn)
      rw [hdrawn] at hsome
      cases hsome
    | some label =>
      rw [lowerAll, Stmt.returnsToJumpsAll_eq_flatMap]
      intro hreturn
      obtain ⟨s', hs', hreturn⟩ := hasReturn_iff_exists.mp hreturn
      obtain ⟨s, hs, hs'⟩ := List.mem_flatMap.mp hs'
      exact s.not_hasReturn_returnsToJumps _ _ (hasReturn_iff_exists.mpr ⟨s', hs', hreturn⟩)
  have hblock : ¬HasReturn (drawn.block fn args) := by
    obtain ⟨last, hlowered, hlast⟩ := drawn.lowered_eq fn
    rw [block_eq, hlowered, hasReturn_append, hasReturn_append]
    rintro (hreturn | hreturn | hreturn)
    · obtain ⟨s, hs, hreturn⟩ := hasReturn_iff_exists.mp hreturn
      rcases drawn.mem_prologue fn args hs with ⟨_, rfl⟩ | ⟨_, _, _, rfl⟩ <;>
        exact not_hasReturn_simple rfl rfl hreturn
    · exact hlowerAll hreturn
    · obtain ⟨s, hs, hreturn⟩ := hasReturn_iff_exists.mp hreturn
      obtain ⟨_, rfl⟩ := hlast s hs
      exact not_hasReturn_simple rfl rfl hreturn
  rw [prelude, ← List.singleton_append, hasReturn_append, not_or]
  refine ⟨not_hasReturn_simple rfl rfl, ?_⟩
  unfold wrapped
  split
  all_goals
    rw [hasReturn_compound rfl]
    rintro ⟨body, hbody, hreturn⟩
    exact hblock (List.mem_singleton.mp hbody ▸ hreturn)

/-- The literals of the block are those of the arguments and of the body. -/
theorem interiorsOf_prelude : interiorsOf (drawn.prelude fn args) =
    (fn.passed args).flatMap Expr.interiors ++ interiorsOf fn.body := by
  have hgathered := drawn.gathered_prelude_eq fn gathers_interiors args
  rw [← interiorsOf_eq_flatMap, ← interiorsOf_eq_flatMap, copy, interiorsOf_renameAll] at hgathered
  exact hgathered

theorem labeled_mem_prelude :
    (∃ label block, Stmt.labeled label block ∈ drawn.prelude fn args) ↔
      drawn.label.isSome = true := by
  unfold prelude wrapped
  cases drawn.label <;> simp

end Block.Drawn

/-- How control flows in a block that stands for a call of the function. -/
structure Expansion.Confined (fn : FunctionLit) (args : List Expr) (expansion : Expansion) :
    Prop where
  returns : ¬HasReturn expansion.prelude
  /-- The functions in the block are those of the arguments and those of the body, with all
  their returns. -/
  literals : interiorsOf expansion.prelude =
    (fn.passed args).flatMap Expr.interiors ++ interiorsOf fn.body
  /-- In a loop, this is about the jumps to labels only. -/
  jumps : ∀ loop, Meaning.jumpsInsideAll loop [] fn.body = true →
    Meaning.jumpsInsideAll loop [] expansion.prelude = true
  label : (∃ label block, Stmt.labeled label block ∈ expansion.prelude) ↔
    HasReturn (beforeReturn fn.body)

/-- Control does not leave a block but at its end: it has no return, and all of its jumps stay
inside if those of the body do. -/
theorem Definition.confined_expandCall {definition : Definition} {args : List Expr}
    {site : CallSite} {ctx ctx' : Context} {expansion : Expansion}
    (h : definition.expandCall args site ctx = .ok (.expanded expansion, ctx'))
    (hshape : expansion.shape = .block) : expansion.Confined definition.function args := by
  obtain ⟨-, ⟨expr, -, hdone⟩ | ⟨-, -, hdone⟩⟩ := Definition.expandCall_cases h
  · -- a substitution is no block
    rw [CallOutcome.expanded.inj (Prod.mk.inj hdone).1] at hshape
    cases hshape
  · rw [CallOutcome.expanded.inj (Prod.mk.inj hdone).1, Block.inline_eq]
    generalize hdrawn : Block.draw definition.function site.scope ctx = drawn
    have hlabel :
        drawn.label.isSome = true ↔ HasReturn (beforeReturn definition.function.body) := by
      rw [← hdrawn, Block.isSome_label_draw, Block.needsLabel_iff]
    exact ⟨drawn.not_hasReturn_prelude _ args hlabel.mpr, drawn.interiorsOf_prelude _ args,
      fun loop hjumps => drawn.jumpsInside_prelude _ args hjumps,
      (drawn.labeled_mem_prelude _ args).trans hlabel⟩

section Seeking

/-- `A.seek = function(a) { l: while (a) { if (a.b) { return function() { return a.b; }; }
break l; } return a; }`, with a return in a loop and one in a function. -/
def Definition.seeking : Definition :=
  ⟨⟨["A", "seek"], by decide, by decide⟩,
    ⟨0, none, ["a"],
      [.labeled "l" [.whileDo (.ident "a")
        [.ifElse (.member (.ident "a") "b")
          [.ret (some (.function ⟨1, none, [], [.ret (some (.member (.ident "a") "b"))]⟩))] none,
          .breakTo (some "l")]],
        .ret (some (.ident "a"))]⟩, 0, "host.js"⟩

/-- A program that calls it. -/
def Program.seeking : Program :=
  ⟨[⟨0, "host.js",
      [.expr (.assign (.member (.ident "A") "seek") none (.function Definition.seeking.function))]⟩,
    ⟨1, "main.js", [.expr (.call (.member (.ident "A") "seek") [.ident "x"])]⟩]⟩

theorem Definition.confined_expandCall_seeking :
    let fn := Definition.seeking.function
    let ctx := Context.ofProgram Program.seeking .counter
    let done := Block.inline fn [.ident "x"] 4 ctx
    Definition.seeking.expandCall [.ident "x"] ⟨4, true⟩ ctx =
        .ok (.expanded done.1, (Definition.finish ⟨4, true⟩ done).2) ∧
      Meaning.jumpsInsideAll true [] fn.body = true ∧ HasReturn (beforeReturn fn.body) ∧
      done.1.Confined fn [.ident "x"] := by
  intro fn ctx done
  have hcall : Definition.seeking.expandCall [.ident "x"] ⟨4, true⟩ ctx =
      .ok (.expanded done.1, (Definition.finish ⟨4, true⟩ done).2) :=
    Definition.expandCall_block (by decide +kernel) (by rfl) (by decide +kernel) _
  have hreturn : HasReturn (beforeReturn fn.body) := Block.needsLabel_iff.mp (by decide +kernel)
  exact ⟨hcall, by decide +kernel, hreturn, Definition.confined_expandCall hcall rfl⟩

end Seeking

end StaticInliner
