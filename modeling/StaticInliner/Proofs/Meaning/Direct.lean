import StaticInliner.Proofs.Meaning.Arguments
import StaticInliner.Proofs.Meaning.Call

/-!
A direct substitution means what the call means: the same value, the same
effects in the same order and the same store in the end.
-/
namespace StaticInliner.Meaning

variable {L : Language}

section Call

variable {view : View L} {fn : FunctionLit} {expr : Expr} {args : List Expr}

theorem evalAll_append (view : View L) (first second : List Expr) :
    evalAll view (first ++ second) =
      (do
        let vs ← evalAll view first
        let ws ← evalAll view second
        pure (vs ++ ws)) := by
  induction first with
  | nil => simp [evalAll]
  | cons e rest ih => simp [evalAll, ih]

/-- A sequence is evaluated for its last item. -/
theorem eval_sequence_concat (view : View L) (items : List Expr) (e : Expr) :
    eval view (.sequence (items ++ [e])) =
      (do
        let _ ← evalAll view items
        eval view e) := by
  simp [eval, refer, evalAll_append, evalAll]

theorem eval_replacement (view : View L) (items : List Expr) (e : Expr) :
    eval view (if items.isEmpty then e else .sequence (items ++ [e])) =
      (do
        let _ ← evalAll view items
        eval view e) := by
  cases items with
  | nil => simp [evalAll]
  | cons first rest => rw [if_neg (by simp), eval_sequence_concat]

theorem returned?_cases (h : fn.returned? = some expr) :
    (fn.body = [] ∧ expr = .undefined) ∨ (fn.body = [.ret none] ∧ expr = .undefined) ∨
      fn.body = [.ret (some expr)] := by
  unfold FunctionLit.returned? at h
  split at h
  · next hbody => exact .inl ⟨hbody, (Option.some.inj h).symm⟩
  · next hbody => exact .inr (.inl ⟨hbody, (Option.some.inj h).symm⟩)
  · next value hbody => exact .inr (.inr (by rw [hbody, Option.some.inj h]))
  · simp at h

/-- A body of at most one `return` declares no variables. -/
theorem frame_of_returned? (h : fn.returned? = some expr) (vs : List L.Value) :
    frame fn vs = fun name => ((bindArgs fn.params vs []).lookup name).map (⟨some ·, false⟩) := by
  have hvars : varNames fn.body = [] := by
    rw [varNames_eq]
    rcases returned?_cases h with ⟨hbody, -⟩ | ⟨hbody, -⟩ | hbody
    · rw [hbody]; rfl
    · rw [hbody]; rfl
    · rw [hbody, List.flatMap_eq_nil_iff]
      intro node hnode
      simp only [Stmt.nodesAll, Stmt.nodes, List.append_nil, List.mem_cons] at hnode
      rcases hnode with rfl | hnode
      · rfl
      · obtain ⟨e, rfl⟩ := expr.isExpr_of_mem_nodes node hnode
        rfl
  have hlexicals : lexicals fn.body = [] := by
    rcases returned?_cases h with ⟨hbody, -⟩ | ⟨hbody, -⟩ | hbody <;> rw [hbody] <;> rfl
  funext name
  simp only [frame, hvars, entryCell, declarationsOf, hlexicals]
  cases (bindArgs fn.params vs []).lookup name with
  | none => simp
  | some v => rfl

theorem declaredNames_of_returned? (h : fn.returned? = some expr) :
    declaredNames fn.params fn.body = fn.params.eraseDups := by
  have hnone : Stmt.declarationsAll fn.body = [] := by
    rcases returned?_cases h with ⟨hbody, -⟩ | ⟨hbody, -⟩ | hbody <;> rw [hbody] <;> rfl
  rw [declaredNames, hnone, List.append_nil]

/-- Such a body is run by evaluating the returned expression. -/
theorem execAll_of_returned? (h : fn.returned? = some expr) (rounds : Nat) :
    Completion.result <$> execAll view rounds [] fn.body = eval view expr := by
  rcases returned?_cases h with ⟨hbody, rfl⟩ | ⟨hbody, rfl⟩ | hbody
  · simp [hbody, execAll, eval, refer, Completion.result]
  · simp [hbody, execAll, exec, eval, refer, Completion.result]
  · simp [hbody, execAll, exec, Completion.result]

theorem invoke_eq (scopes : ScopeTree) (rounds : Nat) (fn : FunctionLit) (self : L.Value)
    (vs : List L.Value) (s : State L) :
    invoke scopes rounds fn self vs s =
      match (Completion.result <$> execAll (calleeView scopes fn self) rounds [] fn.body)
        { s with locals := frame fn vs } with
      | .ok v t => .ok v { t with locals := s.locals }
      | .error e t => .error e t := by
  unfold invoke
  simp only [Functor.map, EStateM.map]
  cases execAll (calleeView scopes fn self) rounds [] fn.body { s with locals := frame fn vs } <;>
    rfl

variable {target : Direct.Target} {outer temps reserved : List String} {bindings : Bindings}

/-- With all parameters bound, running the function is evaluating the returned
expression with atoms in place of the parameters. -/
theorem Ready.invoke {scopes : ScopeTree} {rounds : Nat} {self : L.Value} {vs : List L.Value}
    (hreturned : fn.returned? = some target.expr)
    (hlate : target.late = (target.expr.lateReads fn.params {}).late)
    (hnodes : ∀ node ∈ target.expr.nodes .nested, Replaceable fn.params node)
    (hshared : ∀ name, Node.expr (.ident name) ∈ target.expr.nodes .nested → name ∉ fn.params →
      name ∈ outer ∧ (calleeView scopes fn self).reach name = view.reach name) :
    Sim (Ready view target outer temps reserved [] bindings (bindArgs fn.params vs []))
      (Same fun s t => s.world = t.world) (Meaning.invoke scopes rounds fn self vs)
      (Meaning.eval view (target.expr.substitute bindings)) := by
  intro s t hready
  let c : Returning L := ⟨calleeView scopes fn self, view, fn.params, target.late, reserved,
    bindArgs fn.params vs [], bindings, t⟩
  have hadmits : ∀ node ∈ target.expr.nodes .nested, c.Admits node := by
    refine fun node hnode => ⟨hnodes node hnode, ?_⟩
    rintro name rfl
    by_cases hparam : name ∈ fn.params
    · obtain ⟨v, hv⟩ := lookup_bindArgs_of_mem hparam
      have hused : target.expr.occurrences name ≠ 0 :=
        fun h => Expr.occurrences_eq_zero.mp h hnode
      obtain ⟨arg, harg, hstands⟩ := hready.bound.lookup hused hv
      exact .inl ⟨hparam, v, arg, hv, harg,
        hstands.step (fun _ _ => rfl) (fun _ => ⟨trivial, rfl⟩) (fun _ h => h)⟩
    · have hvalue : (bindArgs fn.params vs []).lookup name = none :=
        lookup_bindArgs_of_notMem hparam
      obtain ⟨houter, hreach⟩ := hshared name hnode hparam
      exact .inr ⟨hvalue, hready.bound.lookup_eq_none hvalue, hready.outside name houter, hreach⟩
  have hstart : c.Since false { s with locals := frame fn vs } t :=
    ⟨hready.world, frame_of_returned? hreturned vs, rfl, fun _ => rfl⟩
  have hlate' : (target.expr.lateReads c.params {}).late ⊆ c.late := by rw [← hlate]; simp [c]
  have hagree := Returning.eval_substitute hadmits hlate'
    (Returning.refer_substitute target.expr {} hadmits hlate') _ _ hstart
  rw [invoke_eq, execAll_of_returned? hreturned]
  match Meaning.eval (calleeView scopes fn self) target.expr { s with locals := frame fn vs },
    Meaning.eval view (target.expr.substitute bindings) t, hagree with
  | .ok _ _, .ok _ _, hagree => exact ⟨hagree.1, hagree.2.world⟩
  | .error _ _, .error _ _, hagree => exact hagree

theorem mem_nodesAll_of_returned? {reach : Reach} (h : fn.returned? = some expr) {node : Node}
    (hnode : node ∈ expr.nodes reach) :
    node = .expr .undefined ∨ node ∈ Stmt.nodesAll reach fn.body := by
  rcases returned?_cases h with ⟨-, rfl⟩ | ⟨-, rfl⟩ | hbody
  · exact .inl (by simpa [Expr.nodes] using hnode)
  · exact .inl (by simpa [Expr.nodes] using hnode)
  · refine .inr ?_
    rw [hbody]
    simp [Stmt.nodesAll, Stmt.nodes, hnode]

/-- The returned expression of a direct substitution has only one layer. -/
theorem nodes_eq_of_substitutable? (h : fn.substitutable? = some expr) :
    expr.nodes .nested = expr.nodes .ownLayer := by
  obtain ⟨-, hfunction, -⟩ := FunctionLit.substitutable?_eq_some_iff.mp h
  refine expr.nodes_nested_eq fun node hnode => ?_
  obtain ⟨e, rfl⟩ := expr.isExpr_of_mem_nodes node hnode
  cases e with
  | function fn =>
    exact absurd (expr.nodes_subset hnode) (Expr.hasFunctionLit_eq_false.mp hfunction fn)
  | _ => rfl

theorem replaceable_of_substitutable? (h : fn.substitutable? = some expr)
    (hthis : readsThis fn.body = false) (hdelete : deletesVariable fn.body = false) :
    ∀ node ∈ expr.nodes .nested, Replaceable fn.params node := by
  obtain ⟨hreturned, hfunction, hassigns⟩ := FunctionLit.substitutable?_eq_some_iff.mp h
  intro node hnode
  unfold Replaceable
  split
  · rw [nodes_eq_of_substitutable? h] at hnode
    rcases mem_nodesAll_of_returned? hreturned hnode with h | h
    · cases h
    · exact readsThis_eq_false.mp hthis h
  · exact Expr.hasFunctionLit_eq_false.mp hfunction _ hnode
  · rcases mem_nodesAll_of_returned? hreturned hnode with h | h
    · cases h
    · exact deletesVariable_eq_false.mp hdelete _ h
  · exact Expr.assignsTo_eq_false.mp hassigns _ _ _ hnode
  · trivial

/-- Variables that statements declare, with values left from before. -/
def leftover (stmts : List Stmt) (old : String → L.Value) : Locals L := fun name =>
  if name ∈ Stmt.declarationsAll stmts then some ⟨some (old name), false⟩ else none

/-- What a direct substitution of an eligible function shares with its call. -/
theorem shared_of_substitutable? {definition : Definition} {site : CallSite} {ctx : Context}
    (helig : definition.Eligible site ctx.scopes)
    (hexpr : definition.function.substitutable? = some expr)
    (hown : ∀ name, definition.function.name = some name →
      mentions name definition.function.body = false)
    (hreserved : ctx.Reserves (.expr (.function definition.function) :: args.map .expr))
    (self calleeSelf : L.Value) {name : String}
    (hname : Node.expr (.ident name) ∈ expr.nodes .nested)
    (hparam : name ∉ definition.function.params) :
    name ∈ ctx.names.reserved ∧ (calleeView ctx.scopes definition.function calleeSelf).reach name =
      (scopeView ctx.scopes site.scope self).reach name := by
  have hreturned := (FunctionLit.substitutable?_eq_some_iff.mp hexpr).1
  have hbody := (mem_nodesAll_of_returned? hreturned hname).resolve_left nofun
  rw [nodes_eq_of_substitutable? hexpr] at hname
  have hlayer := (mem_nodesAll_of_returned? hreturned hname).resolve_left nofun
  have hdecl : name ∉ declaredNames definition.function.params definition.function.body := by
    rwa [declaredNames_of_returned? hreturned, List.mem_eraseDups]
  exact ⟨hreserved _ (mem_writtenNames_call (.inl hbody) (List.mem_singleton_self name)),
    reach_eq_of_eligible helig
    (fun h => mentions_eq_false.mp (hown name h) hbody) hlayer hdecl _ _⟩

/-- Before the first argument only the temporaries are private. -/
theorem ready_leftover (view : View L) (target : Direct.Target) (params : List String)
    (args : List Expr) (ctx : Context) (old : String → L.Value) (world : World L) :
    let prelude := (Direct.bindParams target params args ⟨[], [], [], ctx⟩).prelude
    Ready view target ctx.names.reserved (Stmt.declarationsAll prelude) ctx.names.reserved args
      [] [] ⟨fun _ => none, world⟩ ⟨leftover prelude old, world⟩ := by
  refine ⟨rfl, fun _ => rfl, fun name hname => if_neg fun hdecl => ?_,
    fun name hname => ⟨old name, if_pos hname⟩, .nil⟩
  obtain ⟨s, hs, hdecl⟩ := Stmt.mem_declarationsAll.mp hdecl
  rcases prelude_bindParams (fun _ h => h) hs with hs | ⟨temp, rfl, hfresh⟩
  · simp at hs
  · exact hfresh (List.mem_singleton.mp hdecl ▸ hname)

/-- The expression that takes the place of a call to an eligible function does what the
call does. -/
theorem outcome_direct_inline {definition : Definition} {site : CallSite} {ctx : Context}
    (helig : definition.Eligible site ctx.scopes)
    (hexpr : definition.function.substitutable? = some expr)
    (hown : ∀ name, definition.function.name = some name →
      mentions name definition.function.body = false)
    (hdelete : deletesVariable definition.function.body = false)
    (hreserved : ctx.Reserves (.expr (.function definition.function) :: args.map .expr))
    (self calleeSelf : L.Value) (rounds : Nat) (old : String → L.Value) (world : World L) :
    let expansion := (Direct.inline definition.function expr args site.scope ctx).1
    outcome (eval (scopeView ctx.scopes site.scope self) expansion.value
      ⟨leftover expansion.prelude old, world⟩) =
    outcome (call (scopeView ctx.scopes site.scope self) ctx.scopes rounds
      definition.function calleeSelf args ⟨fun _ => none, world⟩) := by
  let fn := definition.function
  let view : View L := scopeView ctx.scopes site.scope self
  let target : Direct.Target := ⟨expr, (expr.lateReads fn.params {}).late, site.scope⟩
  let build := Direct.bindParams target fn.params args ⟨[], [], [], ctx⟩
  obtain ⟨sequence, hbinds⟩ : ∃ sequence, Binds view target ctx.names.reserved
      (Stmt.declarationsAll build.prelude) fn.params args ⟨[], [], [], ctx⟩ sequence := by
    refine exists_binds fn.params args ⟨[], [], [], ctx⟩ (fun _ h => h) (fun name hname => ?_)
      fun name hname => Stmt.mem_declarationsAll.mpr ⟨_, hname, List.mem_singleton_self name⟩
    exact hreserved _ (mem_writtenNames_call (.inr (Expr.nodesAll_subset args hname))
      (List.mem_singleton_self name))
  have hvalue : eval view (Direct.inline fn expr args site.scope ctx).1.value =
      (do
        let _ ← evalAll view sequence
        eval view (expr.substitute build.bindings)) := by
    have hsequence : build.sequence = sequence := hbinds.sequence_eq
    rw [← eval_replacement, ← hsequence]
    rfl
  have hsim : Sim (Ready view target ctx.names.reserved (Stmt.declarationsAll build.prelude)
      ctx.names.reserved args [] []) (Same fun s t => s.world = t.world)
      (call view ctx.scopes rounds fn calleeSelf args)
      (eval view (Direct.inline fn expr args site.scope ctx).1.value) := by
    rw [hvalue]
    refine (hbinds.sim []).bind fun vs _ => Ready.invoke ?_ rfl
      (replaceable_of_substitutable? hexpr helig.this hdelete) fun name hname hparam =>
        shared_of_substitutable? helig hexpr hown hreserved self calleeSelf hname hparam
    exact (FunctionLit.substitutable?_eq_some_iff.mp hexpr).1
  exact ((hsim _ _ (ready_leftover view target fn.params args ctx old world)).outcome_eq
    fun _ _ h => h).symm

/-- A call that is substituted directly may be replaced by the expression: it has
the same value or throws the same, after the same effects, and leaves the same
store. The function must not mention its own name or delete a variable, and all
names in it and in the arguments must be reserved. -/
theorem outcome_direct_expansion {definition : Definition} {site : CallSite} {ctx ctx' : Context}
    {expansion : Expansion}
    (h : definition.expandCall args site ctx = .ok (.expanded expansion, ctx'))
    (hshape : expansion.shape = .direct)
    (hown : ∀ name, definition.function.name = some name →
      mentions name definition.function.body = false)
    (hdelete : deletesVariable definition.function.body = false)
    (hreserved : ctx.Reserves (.expr (.function definition.function) :: args.map .expr))
    (self calleeSelf : L.Value) (rounds : Nat) (old : String → L.Value) (world : World L) :
    outcome (eval (scopeView ctx.scopes site.scope self) expansion.value
      ⟨leftover expansion.prelude old, world⟩) =
    outcome (call (scopeView ctx.scopes site.scope self) ctx.scopes rounds
      definition.function calleeSelf args ⟨fun _ => none, world⟩) := by
  obtain ⟨helig, ⟨expr, hexpr, hfinish⟩ | ⟨-, -, hfinish⟩⟩ := Definition.expandCall_cases h
  · obtain rfl : expansion = (Direct.inline definition.function expr args site.scope ctx).1 :=
      CallOutcome.expanded.inj (Prod.ext_iff.mp hfinish).1
    exact outcome_direct_inline helig hexpr hown hdelete hreserved self calleeSelf rounds old world
  · obtain rfl : expansion = (Block.inline definition.function args site.scope ctx).1 :=
      CallOutcome.expanded.inj (Prod.ext_iff.mp hfinish).1
    exact absurd hshape nofun

end Call

/-- `function f(a, b) { return k(b) + a; }`, which reads `a` after an effect. -/
def readsLate : Definition :=
  ⟨nameOfF,
    ⟨0, some "f", ["a", "b"],
      [.ret (some (.binary .add (.call (.ident "k") [.ident "b"]) (.ident "a")))]⟩, 0, "main"⟩

/-- The program that calls it as `f(x, g())`. -/
def readsLateCalled : Program :=
  ⟨[⟨0, "main", [.function readsLate.function,
    .expr (.call (.ident "f") [.ident "x", .call (.ident "g") []])]⟩]⟩

theorem outcome_direct_expansion_readsLate : ∃ expansion ctx',
    readsLate.expandCall [.ident "x", .call (.ident "g") []] ⟨1, false⟩
      (.ofProgram readsLateCalled .counter) = .ok (.expanded expansion, ctx') ∧
    expansion.shape = .direct ∧
    outcome (eval (L := tally) (scopeView readsLateCalled.scopes 1 (0 : Nat)) expansion.value
      ⟨leftover expansion.prelude fun _ => (0 : Nat), ⟨⟨fun _ => (7 : Nat), (0 : Nat)⟩, []⟩⟩) =
    outcome
      (call (L := tally) (scopeView readsLateCalled.scopes 1 (0 : Nat)) readsLateCalled.scopes 0
      readsLate.function (0 : Nat) [.ident "x", .call (.ident "g") []]
      ⟨fun _ => none, ⟨⟨fun _ => (7 : Nat), (0 : Nat)⟩, []⟩⟩) := by
  have helig : readsLate.ineligible? ⟨1, false⟩
      (Context.ofProgram readsLateCalled .counter).scopes = .ok none := by decide +kernel
  have h := Definition.expandCall_direct helig rfl [.ident "x", .call (.ident "g") []]
  refine ⟨_, _, h, rfl, outcome_direct_expansion h rfl ?_ ?_ ?_ _ _ _ _ _⟩
  · intro name hname
    obtain rfl : "f" = name := Option.some.inj hname
    decide
  · decide
  · unfold Context.Reserves
    decide

end StaticInliner.Meaning
