import StaticInliner.Proofs.Meaning.Frame

/-!
A block substitution means what the call means: the same value, the same effects
in the same order and the same store in the end, as often as it is run.
-/
namespace StaticInliner.Meaning

variable {L : Language}

section Body

variable {fn : FunctionLit} {outer : List String} {drawn : Block.Drawn}

/-- On the one side nothing is private; on the other the result variable holds the
value, and nothing that was in use before is private. -/
structure Served (outer : List String) (result : String) (v : L.Value) (s t : State L) : Prop where
  world : s.world = t.world
  plain : s.locals = fun _ => none
  outside : ∀ x ∈ outer, t.locals x = none
  result : t.locals result = some ⟨some v, false⟩

/-- The block has ended, or has jumped to its label. -/
def Arrived (drawn : Block.Drawn) (k : Completion L.Value) : Prop :=
  k = .normal ∨ (drawn.label.isSome = true ∧ k = .breaks (some (loweringOf drawn).label))

/-- A completion that leaves the body by no jump has no label. -/
theorem relabel_of_staysIn {labels : Renaming} {k : Completion L.Value}
    (h : k.StaysIn false []) : k.relabel labels = k := by
  cases k with
  | normal | returns _ => rfl
  | breaks label | continues label => cases label <;> cases h

/-- A body in its frame, and the lowered body in the block. -/
theorem execAll_body (h : Fresh fn outer drawn) {callee caller : View L}
    (hfits : (h.copying callee caller).FitsAll false [] (bodyScope fn) fn.body)
    (huse : ∀ mark ∈ marksOf (Stmt.nodesAll .ownLayer fn.body), InUse outer mark) (rounds : Nat) :
    Sim (fun s t => ∃ u, (h.copying callee caller).Linked (bodyScope fn) s u ∧
        Awaiting (inPlaceNames (drawn.copy fn).1) u t ∧
        t.locals drawn.result = some ⟨some L.undefined, false⟩)
      (fun k k' s t => Arrived drawn k' ∧ s.world = t.world ∧ (∀ x ∈ outer, t.locals x = none) ∧
        t.locals drawn.result = some ⟨some k.result, false⟩)
      (execAll callee rounds [] fn.body)
      (execAll caller rounds drawn.label.toList (Block.lower drawn.result drawn.label
        (Block.endsWithReturn fn.body) (rebind (drawn.copy fn).1).body)) := by
  have hambient : (h.copying callee caller).Ambient [] (bodyScope fn) [] := by
    refine ⟨fun x hx => ?_, nofun, nofun⟩
    rcases List.mem_append.mp hx with hx | hx
    · exact mem_declaredNames_of_lexicalNames hx
    · exact (List.mem_append.mp hx).elim (fun hx => mem_declaredNames.mpr (.inl hx))
        mem_declaredNames_of_varNames
  have hcopy := Copying.execAll_copy rounds fn.body drawn.ctx.nextNodeId hfits hambient
  have hrebound := execAll_rebound caller rounds [] (drawn.copy fn).1
  have hlowered := execAll_lowered h huse caller rounds
  refine ((hcopy.trans hrebound).trans hlowered).mono ?_ ?_
  · rintro s t ⟨u, hlinked, hawaiting, hresult⟩
    exact ⟨t, ⟨u, hlinked, hawaiting⟩, rfl, fun _ _ => rfl, hresult⟩
  · rintro k k' s t ⟨_, w, ⟨_, u, hended, rfl, hapart⟩, hdelivered⟩
    rw [hended.relabel, relabel_of_staysIn hended.stays] at hdelivered
    obtain ⟨harrived, hholding⟩ := hdelivered hended.stays
    refine ⟨harrived, ?_, fun x hx => ?_, hholding.result⟩
    · rw [hended.linked.world, hapart.world, hholding.world]
    · have hplace : ¬ inPlaceNames (drawn.copy fn).1 x :=
        fun hplace => (h.unnamed (h.outer_unnamed hx)).2 hplace.1
      have hne : x ≠ (loweringOf drawn).result := by
        rintro rfl
        exact h.result_notMem_outer hx
      rw [← hholding.others x hne, ← hapart.others x hplace]
      exact hended.linked.outside x hx

variable {args : List Expr} {s₀ : State L}

/-- Calling the function with the values of its arguments, and the block from
where its parameters are bound. -/
theorem invoke_block (h : Fresh fn outer drawn) (hp : PlainParams fn) {self : L.Value}
    {caller : View L} {scopes : ScopeTree}
    (hfits : (h.copying (calleeView scopes fn self) caller).FitsAll false [] (bodyScope fn) fn.body)
    (huse : ∀ mark ∈ marksOf (Stmt.nodesAll .ownLayer fn.body), InUse outer mark) (rounds : Nat)
    (houter : ∀ x ∈ outer, s₀.locals x = none)
    (hresult : s₀.locals drawn.result = some ⟨some L.undefined, false⟩) (vs : List L.Value) :
    Sim (Beside (boundLocals fn args drawn vs s₀))
      (fun v k s t => Arrived drawn k ∧ Served outer drawn.result v s t)
      (invoke scopes rounds fn self vs) (execAll caller rounds drawn.label.toList
        ((rebind (drawn.copy fn).1).declarations ++ Block.lower drawn.result drawn.label
          (Block.endsWithReturn fn.body) (rebind (drawn.copy fn).1).body)) := by
  intro s t hst
  obtain ⟨hparam, hvar⟩ := h.unnamed h.result_unnamed
  have hhoisted : ∀ x ∈ (varNames (drawn.copy fn).1).eraseDups.filter
      (!rebindsInPlace (drawn.copy fn).1 ·), t.locals x = some ⟨none, false⟩ := by
    intro x hx
    have hvar := (mem_hoistedNames.mp hx).1
    rw [hst.right, boundLocals, overlay_base (lookup_bindArgs_of_notMem (h.param_ne_var hp hvar)),
      enter_block_var hvar]
  have hstart : { t with locals := startLocals fn args drawn vs s₀ }.locals drawn.result =
      some ⟨some L.undefined, false⟩ := by
    refine (if_neg fun hmem => hvar (mem_hoistedNames.mp hmem).1).trans ?_
    rw [boundLocals, overlay_base (lookup_bindArgs_of_notMem hparam),
      State.enter_other (h.undeclared h.result_unnamed), hresult]
  have hbody := execAll_body h hfits huse rounds ⟨frame fn vs, t.world⟩
    { t with locals := startLocals fn args drawn vs s₀ }
    ⟨_, linked_frame h hp _ _ houter t.world, awaiting_start h hp t.world, hstart⟩
  have hdeclarations : execAll caller rounds drawn.label.toList
      (rebind (drawn.copy fn).1).declarations t =
        .ok .normal { t with locals := startLocals fn args drawn vs s₀ } := by
    refine (execAll_hoistedLets _ fun x hx => .inl (hhoisted x hx)).trans ?_
    rw [hst.right]
    rfl
  generalize Block.lower drawn.result drawn.label (Block.endsWithReturn fn.body)
    (rebind (drawn.copy fn).1).body = lowered at hbody ⊢
  rw [execAll_append, bind_ok hdeclarations, invoke, hst.world]
  change Agree _ _ (execAll caller rounds drawn.label.toList lowered _)
  generalize execAll (calleeView scopes fn self) rounds [] fn.body ⟨frame fn vs, t.world⟩ =
    done at hbody ⊢
  generalize execAll caller rounds drawn.label.toList lowered
    { t with locals := startLocals fn args drawn vs s₀ } = done' at hbody ⊢
  cases done with
  | ok _ _ =>
    cases done' with
    | ok _ _ =>
      obtain ⟨harrived, hworld, houtside, hvalue⟩ := hbody
      exact ⟨harrived, hworld, hst.left, houtside, hvalue⟩
    | error _ _ => cases hbody
  | error _ _ =>
    cases done' with
    | ok _ _ => cases hbody
    | error _ _ => exact hbody

/-- A call, and the block that takes its place. -/
theorem call_block (h : Fresh fn outer drawn) (hp : PlainParams fn) {self : L.Value}
    {caller : View L} {scopes : ScopeTree}
    (hfits : (h.copying (calleeView scopes fn self) caller).FitsAll false [] (bodyScope fn) fn.body)
    (huse : ∀ mark ∈ marksOf (Stmt.nodesAll .ownLayer fn.body), InUse outer mark) (rounds : Nat)
    (hargs : ∀ x, Node.expr (.ident x) ∈ Expr.nodesAll .ownLayer args → x ∈ outer)
    (houter : ∀ x ∈ outer, s₀.locals x = none)
    (hresult : s₀.locals drawn.result = some ⟨some L.undefined, false⟩) :
    Sim (Beside (s₀.enter (drawn.block fn args)).locals)
      (fun v k s t => Arrived drawn k ∧ Served outer drawn.result v s t)
      (call caller scopes rounds fn self args)
      (execAll caller rounds drawn.label.toList (drawn.block fn args)) := by
  have hunbound : Unbound (s₀.enter (drawn.block fn args)).locals []
      (fn.params.map drawn.names.apply) := by
    refine ⟨fun _ _ => rfl, fun p hmem => ⟨?_, rfl⟩, ?_⟩
    · obtain ⟨param, hparam, rfl⟩ := List.mem_map.mp hmem
      exact enter_block_param hparam
    · refine List.Nodup.map_on (fun x hx y hy heq => ?_) hp.nodup
      exact h.apply_injective (mem_declaredNames.mpr (.inl hx))
        (mem_declaredNames.mpr (.inl hy)) heq
  have hbase : ∀ x, Node.expr (.ident x) ∈ Expr.nodesAll .ownLayer args →
      (s₀.enter (drawn.block fn args)).locals x = none := by
    intro x hx
    rw [State.enter_other (h.undeclared (h.outer_unnamed (hargs x hx))), houter x (hargs x hx)]
  have hblock := execAll_append caller rounds drawn.label.toList
    (Block.parameters drawn.names fn.params args ++ Block.excess fn.params args)
    ((rebind (drawn.copy fn).1).declarations ++ Block.lower drawn.result drawn.label
      (Block.endsWithReturn fn.body) (rebind (drawn.copy fn).1).body)
  rw [← List.append_assoc] at hblock
  rw [call]
  refine hblock ▸ (execAll_parameters drawn.names fn.params args hunbound hbase).bind
    fun vs k s t hst => ?_
  obtain ⟨rfl, hst⟩ := hst
  exact invoke_block h hp hfits huse rounds houter hresult vs s t hst

/-- The block with its label, run where the result variable has been declared. -/
theorem exec_wrapped (h : Fresh fn outer drawn) (hp : PlainParams fn) {self : L.Value}
    {caller : View L} {scopes : ScopeTree}
    (hfits : (h.copying (calleeView scopes fn self) caller).FitsAll false [] (bodyScope fn) fn.body)
    (huse : ∀ mark ∈ marksOf (Stmt.nodesAll .ownLayer fn.body), InUse outer mark) (rounds : Nat)
    (hargs : ∀ x, Node.expr (.ident x) ∈ Expr.nodesAll .ownLayer args → x ∈ outer) :
    Sim (Served outer drawn.result L.undefined)
      (fun v k s t => k = .normal ∧ Served outer drawn.result v s t)
      (call caller scopes rounds fn self args) (exec caller rounds [] (drawn.wrapped fn args)) := by
  have hblock : Sim (Served outer drawn.result L.undefined)
      (fun v k s t => Arrived drawn k ∧ Served outer drawn.result v s t)
      (call caller scopes rounds fn self args) (Exec.inBlock (drawn.block fn args)
        (execAll caller rounds drawn.label.toList (drawn.block fn args))) := by
    refine .inBlock_right fun s t hst => ?_
    refine (call_block h hp hfits huse rounds hargs hst.outside hst.result s
      (t.enter (drawn.block fn args)) ⟨hst.world, hst.plain, rfl⟩).mono ?_
    rintro v k s' t' ⟨harrived, hserved⟩
    refine ⟨harrived, hserved.world, hserved.plain, fun x hx => ?_, ?_⟩
    · rw [State.leave_other (h.undeclared (h.outer_unnamed hx)), hserved.outside x hx]
    · rw [State.leave_other (h.undeclared h.result_unnamed), hserved.result]
  unfold Block.Drawn.wrapped
  cases hlabel : drawn.label with
  | none =>
    rw [exec]
    rw [hlabel] at hblock
    refine hblock.mono (fun _ _ h => h) fun v k s t hend => ⟨?_, hend.2⟩
    refine hend.1.resolve_right fun hjump => ?_
    rw [hlabel] at hjump
    cases hjump.1
  | some label =>
    rw [exec]
    rw [hlabel] at hblock
    refine hblock.bind_right fun v k => .pure fun s t hend => ⟨?_, hend.2⟩
    rcases hend.1 with rfl | ⟨-, rfl⟩
    · rfl
    · simp [Completion.leave, loweringOf, hlabel]

end Body

/-- Run what an expansion puts ahead of the statement, in the block around it, and
read the value where the call stood; `none` if that place is not reached. -/
def spliced (view : View L) (rounds : Nat) (expansion : Expansion) : Exec L (Option L.Value) :=
  Exec.inBlock expansion.prelude do
    let completion ← execAll view rounds [] expansion.prelude
    match completion with
    | .normal => some <$> eval view expansion.value
    | _ => pure none

/-- What happens elsewhere between two runs: the world may become any other. -/
def Exec.meanwhile (change : World L → World L) : Exec L Unit := fun s =>
  .ok () { s with world := change s.world }

/-- Run a computation again and again and collect the values. -/
def repeatedly (run : Exec L α) : List (World L → World L) → Exec L (List α)
  | [] => pure []
  | change :: changes => do
    Exec.meanwhile change
    let value ← run
    let values ← repeatedly run changes
    pure (value :: values)

/-- Computations that agree once agree as often as they are run. -/
theorem Sim.repeatedly {P : State L → State L → Prop} (hP : Steady P) {run run' : Exec L α}
    (h : Sim P (Same P) run run') (changes : List (World L → World L)) :
    Sim P (Same P) (repeatedly run changes) (Meaning.repeatedly run' changes) := by
  induction changes with
  | nil => exact .pure fun _ _ hst => ⟨rfl, hst⟩
  | cons change changes ih =>
    have hmeanwhile : Sim P (fun _ _ => P) (Exec.meanwhile change) (Exec.meanwhile change) := by
      intro s t hst
      unfold Exec.meanwhile
      rw [hP.world hst]
      exact hP.change hst (change t.world)
    exact hmeanwhile.bind fun _ _ => h.bind_same fun _ => ih.bind_same fun _ =>
      .pure fun _ _ hst => ⟨rfl, hst⟩

/-- Nothing is private on the one side, and nothing in use on the other. -/
structure Outside (outer : List String) (s t : State L) : Prop where
  world : s.world = t.world
  plain : s.locals = fun _ => none
  outside : ∀ x ∈ outer, t.locals x = none

theorem Outside.steady (outer : List String) : Steady (Outside (L := L) outer) :=
  ⟨world, fun h _ => ⟨rfl, h.plain, h.outside⟩⟩

section Splice

variable {fn : FunctionLit} {args : List Expr} {outer : List String} {drawn : Block.Drawn}

theorem lexicals_prelude (drawn : Block.Drawn) (fn : FunctionLit) (args : List Expr) :
    lexicals (drawn.prelude fn args) = [(drawn.result, false)] := by
  unfold Block.Drawn.prelude Block.Drawn.wrapped
  cases drawn.label <;> rfl

/-- The declaration of the result variable. -/
theorem exec_result (h : Fresh fn outer drawn) (view : View L) (rounds : Nat) :
    Sim (fun s t => Outside outer s t ∧ t.locals drawn.result = some ⟨none, false⟩)
      (fun _ k s t => k = .normal ∧ Served outer drawn.result L.undefined s t)
      (pure ()) (exec view rounds [] (.var .letVar drawn.result none)) := by
  intro s t hst
  rw [exec_hoistedLet (.inl hst.2)]
  refine ⟨rfl, hst.1.world, hst.1.plain, fun x hx => ?_, Locals.set_same _ _ _⟩
  have hne : x ≠ drawn.result := fun heq => h.result_notMem_outer (heq ▸ hx)
  exact (Locals.set_other _ _ hne).trans (hst.1.outside x hx)

/-- The statements ahead of the call, from where the block around them is entered,
and then the read of the result. -/
theorem spliced_block (h : Fresh fn outer drawn) (hp : PlainParams fn) {self : L.Value}
    {caller : View L} {scopes : ScopeTree}
    (hfits : (h.copying (calleeView scopes fn self) caller).FitsAll false [] (bodyScope fn) fn.body)
    (huse : ∀ mark ∈ marksOf (Stmt.nodesAll .ownLayer fn.body), InUse outer mark) (rounds : Nat)
    (hargs : ∀ x, Node.expr (.ident x) ∈ Expr.nodesAll .ownLayer args → x ∈ outer) :
    Sim (Outside outer) (Same (Outside outer)) (some <$> call caller scopes rounds fn self args)
      (spliced caller rounds (drawn.expansion fn args)) := by
  have hother : ∀ x ∈ outer, declarationsOf (drawn.prelude fn args) x = [] := by
    intro x hx
    rw [declarationsOf_eq_nil, lexicalNames, lexicals_prelude]
    intro hmem
    obtain rfl := List.mem_singleton.mp hmem
    exact h.result_notMem_outer hx
  have hrun : Sim (fun s t => Outside outer s t ∧ t.locals drawn.result = some ⟨none, false⟩)
      (fun v k s t => k = .normal ∧ Served outer drawn.result v s t)
      (call caller scopes rounds fn self args)
        (execAll caller rounds [] (drawn.prelude fn args)) := by
    have hwrapped := exec_wrapped h hp hfits huse rounds hargs
    rw [← execAll_singleton] at hwrapped
    have hboth := Sim.execAll_cons (exec_result h caller rounds) fun _ => hwrapped
    rwa [pure_bind] at hboth
  have hread : Sim (fun s t => Outside outer s t ∧ t.locals drawn.result = some ⟨none, false⟩)
      (Same (Outside outer)) (some <$> call caller scopes rounds fn self args)
      (do
        let completion ← execAll caller rounds [] (drawn.prelude fn args)
        match completion with
        | .normal => some <$> eval caller (.ident drawn.result)
        | _ => pure none) := by
    rw [map_eq_pure_bind]
    refine hrun.bind fun v k s t hst => ?_
    obtain ⟨rfl, hserved⟩ := hst
    have heval : eval caller (.ident drawn.result) t = .ok v t := Ref.get_private hserved.result
    change Agree _ _ ((some <$> eval caller (.ident drawn.result)) t)
    rw [map_eq_pure_bind, bind_ok heval]
    exact ⟨rfl, hserved.world, hserved.plain, hserved.outside⟩
  refine .inBlock_right fun s t hst => ?_
  have hentered : Outside outer s (t.enter (drawn.prelude fn args)) ∧
      (t.enter (drawn.prelude fn args)).locals drawn.result = some ⟨none, false⟩ := by
    refine ⟨⟨hst.world, hst.plain, fun x hx => ?_⟩, State.enter_let ?_⟩
    · rw [State.enter_other (hother x hx), hst.outside x hx]
    · rw [lexicals_prelude]
      exact List.mem_singleton_self _
  refine (hread s (t.enter (drawn.prelude fn args)) hentered).mono fun v w s' t' hend => ?_
  refine ⟨hend.1, hend.2.world, hend.2.plain, fun x hx => ?_⟩
  exact (State.leave_other (hother x hx)).trans (hend.2.outside x hx)

end Splice

section Expansion

variable {definition : Definition} {site : CallSite} {ctx : Context} {args : List Expr}

/-- If jumps stay inside, everything a body names is in use where it is reserved. -/
theorem inUse_body {fn : FunctionLit} (hjumps : jumpsInsideAll false [] fn.body = true)
    (hreserved : ctx.Reserves (.expr (.function fn) :: args.map .expr)) :
    ∀ mark ∈ marksOf (Stmt.nodesAll .ownLayer fn.body), InUse ctx.names.reserved mark := by
  have hwritten : ∀ name, Mark.name name ∈ marksOf (Stmt.nodesAll .ownLayer fn.body) ∨
      Mark.label name ∈ marksOf (Stmt.nodesAll .ownLayer fn.body) → name ∈ ctx.names.reserved := by
    intro name hname
    obtain ⟨node, hnode, hwritten⟩ : ∃ node ∈ Stmt.nodesAll .ownLayer fn.body,
        name ∈ node.written := by
      rcases hname with hname | hname
      · obtain ⟨node, hnode, hmark⟩ := List.mem_flatMap.mp hname
        exact ⟨node, hnode, Node.mem_written.mpr (.inl hmark)⟩
      · obtain ⟨node, hnode, hmark⟩ := List.mem_flatMap.mp hname
        exact ⟨node, hnode, Node.mem_written.mpr (.inr hmark)⟩
    exact hreserved name
      (mem_writtenNames_call (.inl (Stmt.nodesAll_subset fn.body hnode)) hwritten)
  intro mark hmark
  cases mark with
  | name x => exact hwritten x (.inl hmark)
  | label x => exact hwritten x (.inr hmark)
  | target x =>
    have hlabel := label_of_jumpsInsideAll fn.body hjumps hmark
    exact hwritten x (.inr (hlabel.resolve_left List.not_mem_nil))
  | returns => trivial

theorem plainParams_of_unblockable? (h : definition.unblockable? site = none) :
    PlainParams definition.function := by
  simp only [Definition.unblockable?] at h
  split at h
  · cases h
  · split at h
    · cases h
    · next hrepeated =>
      obtain ⟨hnodup, honce⟩ := FunctionLit.params_of_repeatedParams hrepeated
      exact ⟨hnodup, honce⟩

/-- The body of an eligible function fits its copy. -/
theorem fitsAll_of_eligible (helig : definition.Eligible site ctx.scopes) {drawn : Block.Drawn}
    (h : Fresh definition.function ctx.names.reserved drawn)
    (hfunction : containsFunction definition.function.body = false)
    (hown : ∀ name, definition.function.name = some name →
      mentions name definition.function.body = false)
    (hjumps : jumpsInsideAll false [] definition.function.body = true)
    (hscope : inScopeAll (declaredNames definition.function.params definition.function.body)
      (bodyScope definition.function) definition.function.body = true)
    (hreserved : ctx.Reserves (.expr (.function definition.function) :: args.map .expr))
    (self calleeSelf : L.Value) :
    (h.copying (calleeView ctx.scopes definition.function calleeSelf)
      (scopeView ctx.scopes site.scope self)).FitsAll false [] (bodyScope definition.function)
        definition.function.body := by
  set fn := definition.function
  have hallows : ∀ node ∈ Stmt.nodesAll .ownLayer fn.body,
      (h.copying (calleeView ctx.scopes fn calleeSelf)
        (scopeView ctx.scopes site.scope self)).Allows
        (varNames fn.body) node := by
    intro node hnode
    have hnone := containsFunction_eq_false hfunction node hnode
    unfold Copying.Allows
    split
    · next x =>
      by_cases hdecl : x ∈ declaredNames fn.params fn.body
      · exact .inl hdecl
      · refine .inr ⟨?_, reach_eq_of_eligible helig (fun hname => ?_) hnode hdecl self calleeSelf⟩
        · exact inUse_body hjumps hreserved (.name x)
            (List.mem_flatMap.mpr ⟨_, hnode, List.mem_singleton_self _⟩)
        · exact mentions_eq_false.mp (hown x hname) (Stmt.nodesAll_subset fn.body hnode)
    · exact readsThis_eq_false.mp helig.this hnode
    · cases hnone
    · cases hnone
    · exact mem_varNames.mpr ⟨_, hnode⟩
    · exact mem_declaredNames.mpr (.inr (Stmt.mem_declarationsAll_of_var fn.body hnode))
    · exact mem_declaredLabels.mpr ⟨_, hnode⟩
    · trivial
  refine Copying.fitsAll_of_allows fn.body hallows (fun x hx => ?_) (fun s hs x const hl => ?_)
    hjumps hscope
  · exact List.mem_append_right _ (List.mem_append_right _ hx)
  · exact List.mem_append_left _ (Copying.lexical?_mem hs hl)

/-- The block that takes the place of a call to an eligible function does what the call
does, as often as it is run. -/
theorem outcome_block_inline (helig : definition.Eligible site ctx.scopes)
    (hblock : definition.unblockable? site = none)
    (hfunction : containsFunction definition.function.body = false)
    (hown : ∀ name, definition.function.name = some name →
      mentions name definition.function.body = false)
    (hjumps : jumpsInsideAll false [] definition.function.body = true)
    (hscope : inScopeAll (declaredNames definition.function.params definition.function.body)
      (bodyScope definition.function) definition.function.body = true)
    (hreserved : ctx.Reserves (.expr (.function definition.function) :: args.map .expr))
    (self calleeSelf : L.Value) (rounds : Nat) (locals : Locals L)
    (hlocals : ∀ name ∈ ctx.names.reserved, locals name = none)
    (changes : List (World L → World L)) (world : World L) :
    let expansion := (Block.inline definition.function args site.scope ctx).1
    outcome (repeatedly (spliced (scopeView ctx.scopes site.scope self) rounds expansion) changes
      ⟨locals, world⟩) =
    outcome (repeatedly (some <$> call (scopeView ctx.scopes site.scope self) ctx.scopes rounds
      definition.function calleeSelf args) changes ⟨fun _ => none, world⟩) := by
  have hfresh := fresh_draw definition.function site.scope ctx
  have hargs : ∀ x, Node.expr (.ident x) ∈ Expr.nodesAll .ownLayer args →
      x ∈ ctx.names.reserved := fun x hx =>
    hreserved x (mem_writtenNames_call (.inr (Expr.nodesAll_subset args hx))
      (List.mem_singleton_self x))
  have hsim := spliced_block hfresh (plainParams_of_unblockable? hblock)
    (fitsAll_of_eligible helig hfresh hfunction hown hjumps hscope hreserved self calleeSelf)
    (inUse_body hjumps hreserved) rounds hargs
  have hrepeated := hsim.repeatedly (Outside.steady _) changes
    ⟨fun _ => none, world⟩ ⟨locals, world⟩ ⟨rfl, rfl, hlocals⟩
  exact (hrepeated.outcome_eq fun _ _ hst => hst.world).symm

/-- A call that is substituted by a block may be replaced by it: run any number of
times, with any changes of the store in between, the block and the read of its
result give the same values or throw the same, after the same effects, and leave
the same store. The function must contain no other function, must not mention its
own name, must jump only inside itself and mention its variables only in their
scope; all names in it and in the arguments must be reserved. -/
theorem outcome_block_expansion {ctx' : Context} {expansion : Expansion}
    (h : definition.expandCall args site ctx = .ok (.expanded expansion, ctx'))
    (hshape : expansion.shape = .block)
    (hfunction : containsFunction definition.function.body = false)
    (hown : ∀ name, definition.function.name = some name →
      mentions name definition.function.body = false)
    (hjumps : jumpsInsideAll false [] definition.function.body = true)
    (hscope : inScopeAll (declaredNames definition.function.params definition.function.body)
      (bodyScope definition.function) definition.function.body = true)
    (hreserved : ctx.Reserves (.expr (.function definition.function) :: args.map .expr))
    (self calleeSelf : L.Value) (rounds : Nat) (locals : Locals L)
    (hlocals : ∀ name ∈ ctx.names.reserved, locals name = none)
    (changes : List (World L → World L)) (world : World L) :
    outcome (repeatedly (spliced (scopeView ctx.scopes site.scope self) rounds expansion) changes
      ⟨locals, world⟩) =
    outcome (repeatedly (some <$> call (scopeView ctx.scopes site.scope self) ctx.scopes rounds
      definition.function calleeSelf args) changes ⟨fun _ => none, world⟩) := by
  obtain ⟨helig, ⟨expr, -, hfinish⟩ | ⟨-, hblock, hfinish⟩⟩ := Definition.expandCall_cases h
  · obtain rfl : expansion = (Direct.inline definition.function expr args site.scope ctx).1 :=
      CallOutcome.expanded.inj (Prod.ext_iff.mp hfinish).1
    exact absurd hshape nofun
  · obtain rfl : expansion = (Block.inline definition.function args site.scope ctx).1 :=
      CallOutcome.expanded.inj (Prod.ext_iff.mp hfinish).1
    exact outcome_block_inline helig hblock hfunction hown hjumps hscope hreserved self calleeSelf
      rounds locals hlocals changes world

end Expansion

/-- `function f(a) { var t = a; while (k(t)) { return t; } }`, which returns from
inside a loop. -/
def returnsEarly : Definition :=
  ⟨nameOfF,
    ⟨0, some "f", ["a"],
      [.var .var "t" (some (.ident "a")),
        .whileDo (.call (.ident "k") [.ident "t"]) [.ret (some (.ident "t"))]]⟩, 0, "main"⟩

/-- The program that calls it as `f(g())` in a loop. -/
def returnsEarlyCalled : Program :=
  ⟨[⟨0, "main", [.function returnsEarly.function,
    .whileDo (.ident "x") [.expr (.call (.ident "f") [.call (.ident "g") []])]]⟩]⟩

theorem outcome_block_expansion_returnsEarly : ∃ expansion ctx',
    returnsEarly.expandCall [.call (.ident "g") []] ⟨1, true⟩
      (.ofProgram returnsEarlyCalled .counter) = .ok (.expanded expansion, ctx') ∧
    expansion.shape = .block ∧
    outcome (repeatedly (L := tally)
      (spliced (scopeView returnsEarlyCalled.scopes 1 (0 : Nat)) 3 expansion) [id, id]
      ⟨fun _ => none, ⟨⟨fun _ => (7 : Nat), (1 : Nat)⟩, []⟩⟩) =
    outcome (repeatedly (L := tally)
      (some <$> call (scopeView returnsEarlyCalled.scopes 1 (0 : Nat)) returnsEarlyCalled.scopes 3
        returnsEarly.function (0 : Nat) [.call (.ident "g") []]) [id, id]
      ⟨fun _ => none, ⟨⟨fun _ => (7 : Nat), (1 : Nat)⟩, []⟩⟩) := by
  have helig : returnsEarly.ineligible? ⟨1, true⟩
      (Context.ofProgram returnsEarlyCalled .counter).scopes = .ok none := by decide +kernel
  have hblock : returnsEarly.unblockable? ⟨1, true⟩ = none := by decide +kernel
  have h := Definition.expandCall_block helig rfl hblock [.call (.ident "g") []]
  refine ⟨_, _, h, rfl,
    outcome_block_expansion h rfl ?_ ?_ ?_ ?_ ?_ _ _ _ _ (fun _ _ => rfl) _ _⟩
  · decide
  · intro name hname
    obtain rfl : "f" = name := Option.some.inj hname
    decide
  · decide
  · decide
  · unfold Context.Reserves
    decide

end StaticInliner.Meaning
