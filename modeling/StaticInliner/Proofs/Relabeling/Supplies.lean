import Mathlib.Logic.Equiv.Basic
import StaticInliner.Proofs.Marks
import StaticInliner.Proofs.Relabeling.Walks
import StaticInliner.Proofs.RunInvariants

/-!
Runs with different supplies. The ids of a supply decide what generated names look like, and
which ids are refused, but nothing else: two runs over one program count the same, change the
same bodies, and end with programs that differ by a permutation of the names generated in the
one run or the other. The permutation is made of the names reserved at the end of the runs;
then the runs are followed from the beginning, each context next to the other.
-/
namespace StaticInliner

section Fixed

/-- The names at the mark are kept. -/
def Mark.Fixed (f : String → String) : Mark → Prop
  | .name spelling | .label spelling | .target spelling => f spelling = spelling
  | .returns => True

variable {f : String → String}

theorem map_of_forall_fixed {names : List String} (h : ∀ mark ∈ names.map Mark.name, mark.Fixed f) :
    names.map f = names := by
  rw [List.forall_mem_map] at h
  rw [List.map_congr_left h, List.map_id']

theorem FunctionLit.head_of_fixed {fn : FunctionLit}
    (h : ∀ mark ∈ (fn.name.toList ++ fn.params).map Mark.name, mark.Fixed f) :
    fn.name.map f = fn.name ∧ fn.params.map f = fn.params := by
  obtain ⟨id, name, params, body⟩ := fn
  rw [List.map_append, List.forall_mem_append] at h
  refine ⟨?_, map_of_forall_fixed h.2⟩
  cases name with
  | none => rfl
  | some name => exact congrArg some (h.1 (.name name) List.mem_cons_self)

theorem Stmt.forall_marks {list : List Stmt}
    (h : ∀ mark ∈ marksOf (Stmt.nodesAll .nested list), mark.Fixed f) {s : Stmt} (hs : s ∈ list) :
    ∀ mark ∈ marksOf (s.nodes .nested), mark.Fixed f := by
  intro mark hmark
  refine h mark ?_
  rw [Stmt.nodesAll_eq_flatMap, marksOf, List.flatMap_assoc]
  exact List.mem_flatMap.mpr ⟨s, hs, hmark⟩

/-- What spells only names that are kept is kept. -/
theorem byParts_relabel_eq_self (f : String → String) : ByParts
    (fun e => (∀ mark ∈ marksOf (e.nodes .nested), mark.Fixed f) → e.relabel (.ofNames f) = e)
    (fun s => (∀ mark ∈ marksOf (s.nodes .nested), mark.Fixed f) → s.relabel (.ofNames f) = s)
    (fun list => (∀ mark ∈ marksOf (Stmt.nodesAll .nested list), mark.Fixed f) →
      Stmt.relabelAll (.ofNames f) list = list) := by
  refine ⟨fun e hlayer ih h => ?_, fun fn ih h => ?_, fun fn ih h => ?_,
    fun s hfn hhead hbodies h => ?_, fun list ih h => ?_⟩
  · rw [Expr.nodes_operation .nested hlayer, marksOf_cons, List.forall_mem_append] at h
    have hchildren : e.children.map (·.relabel (.ofNames f)) = e.children := by
      refine (List.map_congr_left fun operand hoperand => ih operand hoperand ?_).trans
        (List.map_id' _)
      intro mark hmark
      refine h.2 mark ?_
      rw [Expr.nodesAll_eq_flatMap, marksOf, List.flatMap_assoc]
      exact List.mem_flatMap.mpr ⟨operand, hoperand, hmark⟩
    have hown : (e.relabel (.ofNames f)).withOperands e.children = e.withOperands e.children := by
      cases e with
      | ident name => exact congrArg Expr.ident (h.1 (.name name) List.mem_cons_self)
      | function _ => cases hlayer
      | _ => rfl
    rw [← e.withOperands_children, Expr.relabel_withOperands _ hlayer rfl, hchildren, hown,
      e.withOperands_children]
  · obtain ⟨id, name, params, body⟩ := fn
    rw [Expr.nodes, marksOf_cons, List.forall_mem_append] at h
    obtain ⟨hname, hparams⟩ := FunctionLit.head_of_fixed h.1
    rw [Expr.relabel, Labels.name_ofNames, hname, hparams, ih h.2]
  · obtain ⟨id, name, params, body⟩ := fn
    rw [Stmt.nodes, marksOf_cons, List.forall_mem_append] at h
    obtain ⟨hname, hparams⟩ := FunctionLit.head_of_fixed h.1
    rw [Stmt.relabel, Labels.name_ofNames, hname, hparams, ih h.2]
  · rw [Stmt.nodes_parts .nested hfn, marksOf_cons, marksOf_append, List.forall_mem_append,
      List.forall_mem_append] at h
    obtain ⟨hself, hexpr, hbelow⟩ := h
    have hhead' : s.head?.map (·.relabel (.ofNames f)) = s.head? := by
      cases hs : s.head? with
      | none => rfl
      | some e =>
        refine congrArg some (hhead e hs ?_)
        simpa only [hs, Option.toList_some, Expr.nodesAll, List.append_nil] using hexpr
    have hbodies' : s.bodies.map (Stmt.relabelAll (.ofNames f)) = s.bodies := by
      refine (List.map_congr_left fun body hbody => hbodies body hbody ?_).trans (List.map_id' _)
      intro mark hmark
      refine hbelow mark ?_
      rw [marksOf, List.flatMap_assoc]
      exact List.mem_flatMap.mpr ⟨body, hbody, hmark⟩
    have hown : (s.relabel (.ofNames f)).withParts s.head? s.bodies =
        s.withParts s.head? s.bodies := by
      cases s with
      | function _ => cases hfn
      | var kind name init =>
        have hname : f name = name := hself (.name name) List.mem_cons_self
        cases init <;> simp only [Stmt.relabel, Labels.name_ofNames, Stmt.withParts, hname]
      | ret value => cases value <;> rfl
      | ifElse _ _ elseBranch => cases elseBranch <;> rfl
      | labeled label body =>
        have hlabel : f label = label := hself (.label label) List.mem_cons_self
        simp only [Stmt.relabel, Labels.name_ofNames, hlabel]
        rfl
      | breakTo label | continueTo label =>
        cases label with
        | none => rfl
        | some label =>
          have hlabel : f label = label := hself (.target label) List.mem_cons_self
          simp only [Stmt.relabel, Option.map_some, Labels.name_ofNames, hlabel]
      | _ => rfl
    rw [← Stmt.withParts_parts hfn, Stmt.relabel_withParts _ rfl rfl, hhead', hbodies', hown,
      Stmt.withParts_parts hfn]
  · have heq : ∀ s ∈ list, s.relabel (.ofNames f) = s :=
      fun s hs => ih s hs (Stmt.forall_marks h hs)
    rw [Stmt.relabelAll_eq_map, List.map_congr_left heq, List.map_id']

/-- Every label that a `break` or `continue` names is declared. -/
def Program.JumpsDeclared (program : Program) : Prop :=
  ∀ label, .target label ∈ marksOf program.nodes → .label label ∈ marksOf program.nodes

/-- A program is not changed by a map that keeps the names written in it. -/
theorem Program.relabel_eq_self {program : Program} (hjumps : program.JumpsDeclared)
    (h : ∀ name ∈ program.writtenNames, f name = name) :
    program.relabel (.ofNames f) = program := by
  have hwritten {mark : Mark} {name : String} (hmark : mark ∈ marksOf program.nodes)
      (hname : mark = .name name ∨ mark = .label name) : f name = name := by
    refine h name (mem_writtenNames.mpr ?_)
    obtain ⟨node, hnode, hmark⟩ := List.mem_flatMap.mp hmark
    refine List.mem_flatMap.mpr ⟨node, hnode, Node.mem_written.mpr ?_⟩
    rcases hname with rfl | rfl
    · exact .inl hmark
    · exact .inr hmark
  have hfixed : ∀ mark ∈ marksOf program.nodes, mark.Fixed f := by
    intro mark hmark
    cases mark with
    | name name => exact hwritten hmark (.inl rfl)
    | label name => exact hwritten hmark (.inr rfl)
    | target name => exact hwritten (hjumps name hmark) (.inr rfl)
    | returns => trivial
  obtain ⟨units⟩ := program
  refine congrArg Program.mk ((List.map_congr_left fun unit hunit => ?_).trans (List.map_id' _))
  obtain ⟨id, name, body⟩ := unit
  refine congrArg (SourceUnit.mk id name) ?_
  rw [Stmt.relabelAll_eq_map]
  refine (List.map_congr_left fun s hs => (byParts_relabel_eq_self f).stmt s ?_).trans
    (List.map_id' _)
  refine Stmt.forall_marks (fun mark hmark => hfixed mark ?_) hs
  rw [Program.nodes, marksOf, List.flatMap_assoc]
  exact List.mem_flatMap.mpr ⟨_, hunit, hmark⟩

end Fixed

section Permutation

/-- The entries of a list are taken to those of another one, and nothing else is moved. -/
theorem exists_perm_getElem? {list list' : List String} (h : list.Nodup) (h' : list'.Nodup) :
    ∃ σ : Equiv.Perm String,
      (∀ (i : Nat) a b, list[i]? = some a → list'[i]? = some b → σ a = b) ∧
      ∀ a, a ∉ list → a ∉ list' → σ a = a := by
  induction list generalizing list' with
  | nil =>
    refine ⟨.refl _, fun i a b ha => ?_, fun _ _ _ => rfl⟩
    cases ha
  | cons first rest ih =>
    cases list' with
    | nil =>
      refine ⟨.refl _, fun i a b _ hb => ?_, fun _ _ _ => rfl⟩
      cases hb
    | cons first' rest' =>
      rw [List.nodup_cons] at h h'
      obtain ⟨σ, hmoves, hkeeps⟩ := ih h.2 h'.2
      -- the swap puts the first entry right and disturbs none of the others
      refine ⟨σ.trans (.swap (σ first) first'), fun i a b ha hb => ?_, fun a ha ha' => ?_⟩
      · cases i with
        | zero =>
          obtain rfl : first = a := Option.some.inj ha
          obtain rfl : first' = b := Option.some.inj hb
          exact Equiv.swap_apply_left _ _
        | succ i =>
          have hne : a ≠ first := fun heq => h.1 (heq ▸ List.mem_of_getElem? ha)
          have hne' : b ≠ first' := fun heq => h'.1 (heq ▸ List.mem_of_getElem? hb)
          have hab : σ a = b := hmoves i a b ha hb
          rw [Equiv.trans_apply, Equiv.swap_apply_of_ne_of_ne (σ.injective.ne hne) (hab ▸ hne'),
            hab]
      · rw [List.mem_cons, not_or] at ha ha'
        have hkept : σ a = a := hkeeps a ha.2 ha'.2
        rw [Equiv.trans_apply, Equiv.swap_apply_of_ne_of_ne (σ.injective.ne ha.1)
          (hkept.symm ▸ ha'.1), hkept]

/-- The arguments object is no generated name. -/
theorem freshName_ne_arguments (base id : String) : freshName base id ≠ "arguments" := by
  intro h
  have hmem : '$' ∈ (freshName base id).toList := by simp [freshName, freshMarker]
  rw [h] at hmem
  exact absurd hmem (by decide)

end Permutation

section Following

variable {p : Pairing}

/-- Runs with different supplies at the same point. -/
structure Run.Paired (p : Pairing) (run run' : Run) : Prop where
  program : run'.program = run.program.relabel p.label
  ctx : run.ctx.Paired p run'.ctx
  fault : run'.fault = run.fault

namespace Run

theorem generates_target (policy : DuplicatePolicy) (run : Run) (target : Target) :
    run.ctx.Generates (run.target policy target).ctx := by
  unfold Run.target
  split
  · exact .refl _
  · exact run.program.generates_expandCalls _ { run.ctx with stats := _ }

/-- The run over the targets only reserves generated names. -/
theorem generates_foldl (policy : DuplicatePolicy) (run : Run) (targets : List Target) :
    run.ctx.Generates (targets.foldl (Run.target policy) run).ctx := by
  induction targets generalizing run with
  | nil => exact .refl _
  | cons target rest ih => exact (run.generates_target policy target).trans (ih _)

variable {run run' : Run}

/-- The runs still correspond after a target. -/
theorem Paired.target (hkeeps : p.label.KeepsOperators) (h : run.Paired p run')
    (policy : DuplicatePolicy) (target : Target)
    (hpasses : p.Passes (run.target policy target).ctx (run'.target policy target).ctx) :
    (run.target policy target).Paired p (run'.target policy target) := by
  have htable := run.program.collect_relabel hkeeps target.host target.functions policy
  simp only [Run.target, h.fault, h.program, htable, DefinitionTable.size_relabel,
    h.ctx.stats] at hpasses ⊢
  by_cases hgo : run.fault.isSome = true
  · simp only [if_pos hgo]
    exact h
  · simp only [if_neg hgo] at hpasses ⊢
    have hctx (stats : Stats) : Context.Paired p { run.ctx with stats } { run'.ctx with stats } :=
      { h.ctx with stats := rfl }
    obtain ⟨hprogram, hctx', hfault, -⟩ := run.program.expandCalls_paired (hctx _) _ hpasses
    exact ⟨hprogram, hctx', hfault⟩

/-- The runs correspond along any list of targets. -/
theorem Paired.foldl (hkeeps : p.label.KeepsOperators) (h : run.Paired p run')
    (policy : DuplicatePolicy) (targets : List Target)
    (hpasses : p.Passes (targets.foldl (Run.target policy) run).ctx
      (targets.foldl (Run.target policy) run').ctx) :
    (targets.foldl (Run.target policy) run).Paired p (targets.foldl (Run.target policy) run') := by
  induction targets generalizing run run' with
  | nil => exact h
  | cons target rest ih =>
    have hfirst := h.target hkeeps policy target
      (hpasses.before (generates_foldl policy _ rest) (generates_foldl policy _ rest))
    exact ih hfirst hpasses

end Run

theorem Program.scopes_relabel (σ : Relabeling) (program : Program) :
    (program.relabel σ).scopes = program.scopes.relabel σ := by
  refine foldl_declare_relabel σ (fun unit _ tree => ?_) ScopeTree.initial
  simp only [ScopeTree.addUnit, ScopeTree.size_relabel, ScopeTree.push_relabel, SourceUnit.relabel,
    Stmt.declareAll_relabelAll]

theorem NameSupply.reserved_foldl {α : Type} {step : NameSupply → α → NameSupply}
    (hstep : ∀ (names names' : NameSupply) (a : α), names'.reserved = names.reserved →
      (step names' a).reserved = (step names a).reserved)
    (list : List α) {names names' : NameSupply} (h : names'.reserved = names.reserved) :
    (list.foldl step names').reserved = (list.foldl step names).reserved := by
  induction list generalizing names names' with
  | nil => exact h
  | cons a rest ih => exact ih (hstep names names' a h)

/-- Which names are reserved at the beginning does not depend on the supply. -/
theorem NameSupply.reserved_reserveAll (supply supply' : IdSupply) (program : Program) :
    (reserveAll ⟨supply', []⟩ program).reserved = (reserveAll ⟨supply, []⟩ program).reserved := by
  have hreserve (names names' : NameSupply) (name : String) (h : names'.reserved = names.reserved) :
      (names'.reserve name).reserved = (names.reserve name).reserved := by
    have hsame : names'.isReserved name = names.isReserved name := by rw [isReserved, isReserved, h]
    unfold reserve
    rw [hsame]
    cases names.isReserved name with
    | true => exact h
    | false => exact congrArg (List.cons name) h
  unfold reserveAll
  refine reserved_foldl (fun _ _ unit h => ?_) program.units rfl
  exact reserved_foldl hreserve (writtenNames unit.body) h

/-- The runs correspond at the start. -/
theorem Run.paired_start {program : Program} (h : program.relabel p.label = program)
    (hone : ¬p.oneSupply) (supply supply' : IdSupply) :
    (Run.start program supply).Paired p (Run.start program supply') where
  program := h.symm
  ctx :=
    { scopes := by
        have hscopes := program.scopes_relabel p.label
        rwa [h] at hscopes
      changes := rfl
      stats := rfl
      nextNodeId := rfl
      reserved := congrArg List.length (NameSupply.reserved_reserveAll supply supply' program)
      names := (absurd · hone) }
  fault := rfl

end Following

section Supplies

namespace Config

/-- The names generated in a run, in the order in which they are drawn. -/
def generated (config : Config) (program : Program) (supply : IdSupply) : List String :=
  (config.inlinings program supply).flatMap Inlining.drawn

variable {program : Program}

/-- What is reserved at the end of a run, in the order of time. -/
theorem reverse_reserved_run (config : Config) (h : program.validate = .ok ()) (supply : IdSupply) :
    (config.run program supply).ctx.names.reserved.reverse =
      (NameSupply.reserveAll ⟨supply, []⟩ program).reserved.reverse ++
        config.generated program supply := by
  rw [(config.reserved_run h supply).1, List.reverse_append, List.reverse_reverse]
  rfl

theorem exists_freshName_of_mem_generated (config : Config) (h : program.validate = .ok ())
    (supply : IdSupply) {name : String} (hname : name ∈ config.generated program supply) :
    ∃ base id, name = freshName base id := by
  have hreserved := (config.reserved_run h supply).1
  rw [config.run_eq_foldl h supply] at hreserved
  obtain ⟨new, hnew, hfresh⟩ :=
    Run.generates_foldl config.policy (Run.start program supply) config.targets
  rw [hnew] at hreserved
  refine hfresh name ?_
  rw [List.append_cancel_right hreserved, List.mem_reverse]
  exact hname

/-- A name of the program is not among the generated ones. -/
theorem written_not_generated (config : Config) (h : program.validate = .ok ()) (supply : IdSupply)
    {name : String} (hname : name ∈ (NameSupply.reserveAll ⟨supply, []⟩ program).reserved) :
    name ∉ config.generated program supply :=
  fun hgenerated => (config.reserved_run h supply).2.2 name hgenerated hname

/-- Names of two runs that correspond by their order are taken to each other, and no others
are moved. -/
structure Matches (config : Config) (program : Program) (supply supply' : IdSupply)
    (σ : Equiv.Perm String) : Prop where
  moves : ∀ (i : Nat) (name name' : String), (config.generated program supply)[i]? = some name →
    (config.generated program supply')[i]? = some name' → σ name = name'
  keeps : ∀ name, name ∉ config.generated program supply → name ∉ config.generated program supply' →
    σ name = name

variable {config : Config} {supply supply' : IdSupply} {σ : Equiv.Perm String}

/-- Some permutation matches the generated names of two runs. -/
theorem exists_matches (config : Config) (h : program.validate = .ok ())
    (supply supply' : IdSupply) :
    ∃ σ, config.Matches program supply supply' σ := by
  obtain ⟨σ, hmoves, hkeeps⟩ := exists_perm_getElem? (config.reserved_run h supply).2.1
    (config.reserved_run h supply').2.1
  exact ⟨σ, hmoves, hkeeps⟩

namespace Matches

theorem keeps_reserved (hσ : config.Matches program supply supply' σ)
    (h : program.validate = .ok ()) {name : String}
    (hname : name ∈ (NameSupply.reserveAll ⟨supply, []⟩ program).reserved) :
    σ name = name := by
  refine hσ.keeps name (config.written_not_generated h supply hname) ?_
  rw [← NameSupply.reserved_reserveAll supply supply'] at hname
  exact config.written_not_generated h supply' hname

theorem keeps_of_ne (hσ : config.Matches program supply supply' σ) (h : program.validate = .ok ())
    {name : String} (hname : ∀ base id, freshName base id ≠ name) : σ name = name := by
  have hnot (supply : IdSupply) : name ∉ config.generated program supply := by
    intro hmem
    obtain ⟨base, id, heq⟩ := config.exists_freshName_of_mem_generated h supply hmem
    exact hname base id heq.symm
  exact hσ.keeps name (hnot supply) (hnot supply')

/-- The permutation as a relabeling of all that is reserved in the two runs. -/
def pairing (hσ : config.Matches program supply supply' σ) (h : program.validate = .ok ()) :
    Pairing where
  label :=
    { toLabels := .ofNames σ
      injective := σ.injective
      empty := hσ.keeps_of_ne h fun base id => freshName_ne_empty base id
      arguments := hσ.keeps_of_ne h freshName_ne_arguments
      plain := rfl }
  names := (config.run program supply).ctx.names.reserved
  names' := (config.run program supply').ctx.names.reserved
  corresponds i name name' hname hname' := by
    rw [config.reverse_reserved_run h] at hname hname'
    rw [NameSupply.reserved_reserveAll supply supply'] at hname'
    rw [List.getElem?_append] at hname hname'
    split at hname
    · next hi =>
      -- before the first draw both runs have the same names
      rw [if_pos hi, hname] at hname'
      cases hname'
      exact hσ.keeps_reserved h (List.mem_reverse.mp (List.mem_of_getElem? hname))
    · next hi =>
      rw [if_neg hi] at hname'
      exact hσ.moves _ name name' hname hname'
  oneSupply := False
  keeps := False.elim

end Matches

/-- The ids of a supply do not matter. Two runs over a valid program whose jumps go to labels
of the program end alike, count the same and change the same bodies, and their results differ by a
permutation that takes the names generated in the one run to those generated in the other,
in order, and keeps every name that was not generated, in particular those of the program. -/
theorem run_relabeled (config : Config) (h : program.validate = .ok ())
    (hjumps : program.JumpsDeclared) (supply supply' : IdSupply) :
    let run := config.run program supply
    let run' := config.run program supply'
    run'.fault = run.fault ∧ (config.IdsFit program supply → run.fault = none) ∧
    run'.ctx.stats = run.ctx.stats ∧ run'.ctx.changes = run.ctx.changes ∧
    ∃ σ : Equiv.Perm String,
      (∀ name ∈ program.writtenNames, σ name = name) ∧
      (∀ name, name ∉ config.generated program supply → name ∉ config.generated program supply' →
        σ name = name) ∧
      (config.generated program supply).map σ = config.generated program supply' ∧
      run'.program = run.program.relabel (.ofNames σ) := by
  intro run run'
  obtain ⟨σ, hσ⟩ := config.exists_matches h supply supply'
  have hwritten : ∀ name ∈ program.writtenNames, σ name = name := by
    intro name hname
    have hreserved :=
      (Run.grounded_start program supply).reserved name (Program.mem_writtenNames.mp hname)
    exact hσ.keeps_reserved h hreserved
  -- both runs pass everything they reserve, so they stay paired to their ends
  have hpaired : run.Paired (hσ.pairing h) run' := by
    have hstart : (Run.start program supply).Paired (hσ.pairing h) (Run.start program supply') :=
      Run.paired_start (Program.relabel_eq_self hjumps hwritten) id supply supply'
    have hpasses : (hσ.pairing h).Passes run.ctx run'.ctx := .inr ⟨List.suffix_rfl, List.suffix_rfl⟩
    simp only [run, run', config.run_eq_foldl h] at hpasses ⊢
    exact hstart.foldl (fun _ => rfl) config.policy config.targets hpasses
  have hlength : (config.generated program supply').length =
      (config.generated program supply).length := by
    have hreserved :
        run'.ctx.names.reserved.reverse.length = run.ctx.names.reserved.reverse.length := by
      simp only [List.length_reverse, hpaired.ctx.reserved]
    rw [config.reverse_reserved_run h, config.reverse_reserved_run h, List.length_append,
      List.length_append, NameSupply.reserved_reserveAll supply supply'] at hreserved
    omega
  refine ⟨hpaired.fault, going_run h, hpaired.ctx.stats,
    hpaired.ctx.changes, σ, hwritten, hσ.keeps, ?_, hpaired.program⟩
  refine List.ext_getElem (by rw [List.length_map, hlength]) fun i hi hi' => ?_
  rw [List.length_map] at hi
  rw [List.getElem_map]
  exact hσ.moves i _ _ (List.getElem?_eq_getElem hi) (List.getElem?_eq_getElem hi')

end Config

/-- A function that returns out of a labeled loop, called where the first name that a counter
would give its result is taken. -/
def Program.searching : Program :=
  ⟨[⟨0, "host.js",
      [.expr (.assign (.member (.ident "A") "find") none
        (.function ⟨0, none, ["a"],
          [.labeled "outer" [.whileDo (.ident "a")
            [.ifElse (.member (.ident "a") "found") [.ret (some (.ident "a"))] none,
              .breakTo (some "outer")]]]⟩))]⟩,
    ⟨1, "main.js",
      [.function ⟨1, some "f", ["x", "result$inline_0"],
        [.expr (.assign (.ident "x") none (.call (.member (.ident "A") "find") [.ident "x"])),
          .ret (some (.ident "x"))]⟩]⟩]⟩

theorem Program.jumpsDeclared_searching : searching.JumpsDeclared := by
  have hmarks : marksOf searching.nodes =
      [.name "A", .name "a", .label "outer", .name "a", .name "a", .returns, .name "a",
        .target "outer", .name "f", .name "x", .name "result$inline_0", .name "x", .name "A",
        .name "x", .returns, .name "x"] := rfl
  intro label hlabel
  rw [hmarks] at hlabel ⊢
  simp only [List.mem_cons, reduceCtorEq, Mark.target.injEq, false_or, or_false,
    List.not_mem_nil] at hlabel
  subst hlabel
  simp

/-- A counter draws once more than a supply that begins with a letter, which has to draw twice
for the last name. -/
theorem Config.run_relabeled_searching :
    let config : Config := ⟨[⟨"host.js", ["find"]⟩], .lastWins⟩
    let supply : IdSupply := .listed ["p", "q", "q"]
    let run := config.run .searching .counter
    let run' := config.run .searching supply
    run.ctx.stats = { targets := 1, collected := 1, inlinedBlock := 1 } ∧
    run.fault = none ∧ run'.fault = none ∧
    run'.ctx.stats = run.ctx.stats ∧ run'.ctx.changes = run.ctx.changes ∧
    config.generated .searching .counter =
      ["result$inline_1", "label$inline_2", "a$inline_3", "outer$inline_4"] ∧
    config.generated .searching supply =
      ["result$inline_p", "label$inline_q", "a$inline_q", "outer$inline_r0"] ∧
    ∃ σ : Equiv.Perm String, σ "result$inline_0" = "result$inline_0" ∧
      σ "result$inline_1" = "result$inline_p" ∧ run'.program =
        run.program.relabel (.ofNames σ) := by
  intro config supply run run'
  have hcounter : config.generated .searching .counter =
      ["result$inline_1", "label$inline_2", "a$inline_3", "outer$inline_4"] := by decide +kernel
  have hlisted : config.generated .searching supply =
      ["result$inline_p", "label$inline_q", "a$inline_q", "outer$inline_r0"] := by decide +kernel
  have hvalid : Program.searching.validate = .ok () := by decide +kernel
  obtain ⟨hsame, hgoing, hstats, hchanges, σ, hwritten, -, hgenerated, hprogram⟩ :=
    config.run_relabeled hvalid Program.jumpsDeclared_searching .counter supply
  rw [hcounter, hlisted] at hgenerated
  have hfault : run.fault = none := hgoing (by decide +kernel)
  refine ⟨by decide +kernel, hfault, hsame.trans hfault, hstats, hchanges, hcounter, hlisted, σ,
    hwritten _ (by decide +kernel), (List.cons.inj hgenerated).1, hprogram⟩

end Supplies

end StaticInliner
