import Mathlib.Data.List.Basic
import StaticInliner.Proofs.Meaning.Scoping

/-!
Running a copied body. The variables a function declares get new names in the
copy, and so do its labels. Running the body in a frame and running the copy
beside the variables of the caller go through the same steps, provided that the
body mentions a variable only where it is in scope and jumps only within itself.
-/
namespace StaticInliner.Meaning

variable {L : Language}

/-- The labels of a jump renamed. -/
def Completion.relabel (labels : Renaming) : Completion Value → Completion Value
  | .normal => .normal
  | .breaks label => .breaks (label.map labels.apply)
  | .continues label => .continues (label.map labels.apply)
  | .returns value => .returns value

namespace Copying

variable {c : Copying L} {scope : List String}

/-- A frame and the variables of its copy, as far as they are in scope. -/
structure Linked (c : Copying L) (scope : List String) (s t : State L) : Prop where
  world : s.world = t.world
  inside : ∀ x ∈ scope, ∃ cell, s.locals x = some cell ∧ t.locals (c.names.apply x) = some cell
  undeclared : ∀ x, x ∉ c.declared → s.locals x = none
  outside : ∀ x ∈ c.outer, t.locals x = none

/-- Both runs end in the same way, up to the names of labels. -/
structure Ended (c : Copying L) (loop : Bool) (inside scope : List String)
    (k k' : Completion L.Value) (s t : State L) : Prop where
  relabel : k' = k.relabel c.labels
  stays : k.StaysIn loop inside
  linked : c.Linked scope s t

theorem Linked.steady (c : Copying L) (scope : List String) : Steady (c.Linked scope) :=
  ⟨Linked.world, fun h _ => ⟨rfl, h.inside, h.undeclared, h.outside⟩⟩

/-- Setting a variable and its copy to the same cell. -/
theorem Linked.set {s t : State L} (h : c.Linked scope s t)
    (hscope : ∀ x ∈ scope, x ∈ c.declared) {x : String} (hx : x ∈ scope) (cell : Cell L.Value) :
    c.Linked scope { s with locals := s.locals.set x cell }
      { t with locals := t.locals.set (c.names.apply x) cell } where
  world := h.world
  inside y hy := by
    by_cases hyx : y = x
    · subst hyx
      exact ⟨cell, Locals.set_same _ _ _, Locals.set_same _ _ _⟩
    · obtain ⟨old, hs, ht⟩ := h.inside y hy
      have hne : c.names.apply y ≠ c.names.apply x :=
        fun heq => hyx (c.injective y (hscope y hy) x (hscope x hx) heq)
      exact ⟨old, (Locals.set_other _ _ hyx).trans hs, (Locals.set_other _ _ hne).trans ht⟩
  undeclared y hy := by
    have hne : y ≠ x := fun heq => hy (heq ▸ hscope x hx)
    exact (Locals.set_other _ _ hne).trans (h.undeclared y hy)
  outside y hy := by
    have hne : y ≠ c.names.apply x := fun heq => c.fresh x (hscope x hx) (heq ▸ hy)
    exact (Locals.set_other _ _ hne).trans (h.outside y hy)

theorem refSim_of_mem (hscope : ∀ x ∈ scope, x ∈ c.declared) {x : String} (hx : x ∈ scope) :
    RefSim (c.Linked scope) c.callee c.caller (.variable x) (.variable (c.names.apply x)) := by
  refine .of_cells (Linked.steady c scope) (fun h => ?_) (fun h hnone => ?_)
    fun h _ v => h.set hscope hx ⟨some v, false⟩
  · obtain ⟨cell, hs, ht⟩ := h.inside x hx
    rw [hs, ht]
  · obtain ⟨cell, hs, -⟩ := h.inside x hx
    rw [hs] at hnone
    cases hnone

/-- Expressions of the body and of the copy. -/
theorem eval_copy (hscope : ∀ x ∈ scope, x ∈ c.declared) {e : Expr} (h : c.AdmitsExpr scope e) :
    Sim (c.Linked scope) (Same (c.Linked scope)) (eval c.callee e)
      (eval c.caller (e.substitute (idents c.names))) := by
  refine (refer_idents (Linked.steady c scope) e fun node hnode => ?_).get
  have hadmits := h node hnode
  unfold Alike
  split
  · next x =>
    rcases hadmits with hx | ⟨hdeclared, houter, hreach⟩
    · exact refSim_of_mem hscope hx
    · rw [c.kept x hdeclared]
      refine .of_cells (Linked.steady c scope) (fun h => ?_) (fun _ _ => hreach) fun h hcell => ?_
      · rw [h.undeclared x hdeclared, h.outside x houter]
      · rw [h.undeclared x hdeclared] at hcell
        cases hcell
  · exact hadmits.elim
  · exact hadmits.elim
  · trivial

end Copying

section Renaming

variable {names labels : Renaming}

mutual

/-- Without functions, renaming an expression is putting identifiers for names. -/
theorem rename_eq : ∀ (e : Expr) (next : IdCounter),
    (∀ fn, Node.expr (.function fn) ∉ e.nodes .ownLayer) →
    e.rename names next = (e.substitute (idents names), next)
  | .undefined, _, _ | .null, _, _ | .bool _, _, _ | .number _, _, _ | .string _, _, _
  | .this, _, _ => by rw [Expr.rename, Expr.substitute]
  | .ident name, _, _ => by rw [Expr.rename, Expr.substitute, lookup_idents]
  | .function ⟨_, _, _, _⟩, _, h => by simp [Expr.nodes] at h
  | .member e _, next, h | .unary _ e, next, h => by
    simp only [Expr.nodes, List.mem_cons, not_or, forall_and] at h
    rw [Expr.rename, Expr.substitute, rename_eq e next h.2]
  | .index left right, next, h | .assign left _ right, next, h | .binary _ left right, next, h
  | .logical _ left right, next, h => by
    simp only [Expr.nodes, List.mem_cons, List.mem_append, not_or, forall_and] at h
    rw [Expr.rename, Expr.substitute, rename_eq left next h.2.1, rename_eq right next h.2.2]
  | .call callee args, next, h | .new callee args, next, h => by
    simp only [Expr.nodes, List.mem_cons, List.mem_append, not_or, forall_and] at h
    rw [Expr.rename, Expr.substitute, rename_eq callee next h.2.1, renameAll_eq args next h.2.2]
  | .conditional condition thenExpr elseExpr, next, h => by
    simp only [Expr.nodes, List.mem_cons, List.mem_append, not_or, forall_and] at h
    rw [Expr.rename, Expr.substitute, rename_eq condition next h.2.1.1,
      rename_eq thenExpr next h.2.1.2, rename_eq elseExpr next h.2.2]
  | .sequence items, next, h | .array items, next, h => by
    simp only [Expr.nodes, List.mem_cons, not_or, forall_and] at h
    rw [Expr.rename, Expr.substitute, renameAll_eq items next h.2]

theorem renameAll_eq : ∀ (es : List Expr) (next : IdCounter),
    (∀ fn, Node.expr (.function fn) ∉ Expr.nodesAll .ownLayer es) →
    Expr.renameAll names es next = (Expr.substituteAll (idents names) es, next)
  | [], _, _ => by rw [Expr.renameAll, Expr.substituteAll]
  | e :: rest, next, h => by
    simp only [Expr.nodesAll, List.mem_append, not_or, forall_and] at h
    rw [Expr.renameAll, Expr.substituteAll, rename_eq e next h.1, renameAll_eq rest next h.2]

end

theorem lexical?_rename (s : Stmt) (next : IdCounter) :
    lexical? (s.rename names labels next).1 =
      (lexical? s).map fun declared => (names.apply declared.1, declared.2) := by
  cases s with
  | var kind name init => cases kind <;> cases init <;> rfl
  | function fn => cases fn; rfl
  | ret value => cases value <;> rfl
  | ifElse condition thenBranch elseBranch => cases elseBranch <;> rfl
  | _ => rfl

/-- A copied block has the copied variables. -/
theorem lexicals_renameAll (body : List Stmt) (next : IdCounter) :
    lexicals (Stmt.renameAll names labels body next).1 =
      (lexicals body).map fun declared => (names.apply declared.1, declared.2) := by
  induction body generalizing next with
  | nil => rfl
  | cons s rest ih =>
    rw [Stmt.renameAll, lexicals, List.filterMap_cons, lexical?_rename, lexicals,
      List.filterMap_cons]
    cases lexical? s with
    | none => exact ih _
    | some declared => exact congrArg _ (ih _)

end Renaming

namespace Copying

variable {c : Copying L} {scope : List String}

section Blocks

variable {body : List Stmt} {next : IdCounter} {s t s' t' : State L}

/-- The copied block. -/
abbrev block (c : Copying L) (body : List Stmt) (next : IdCounter) : List Stmt :=
  (Stmt.renameAll c.names c.labels body next).1

theorem declarationsOf_block (hdecl : ∀ y ∈ lexicalNames body, y ∈ c.declared) {x : String}
    (hx : x ∈ c.declared) :
    declarationsOf (c.block body next) (c.names.apply x) = declarationsOf body x := by
  rw [declarationsOf, lexicals_renameAll, List.filterMap_map]
  refine List.filterMap_congr fun declared hmem => ?_
  have hy : declared.1 ∈ c.declared := hdecl _ (List.mem_map_of_mem hmem)
  by_cases heq : declared.1 = x
  · simp [heq]
  · have hne : c.names.apply declared.1 ≠ c.names.apply x :=
      fun h => heq (c.injective _ hy x hx h)
    simp [heq, hne]

/-- A copied block hides nothing that was in use before. -/
theorem declarationsOf_block_outer (hdecl : ∀ y ∈ lexicalNames body, y ∈ c.declared) {x : String}
    (hx : x ∈ c.outer) : declarationsOf (c.block body next) x = [] := by
  rw [declarationsOf_eq_nil, lexicalNames, lexicals_renameAll, List.map_map, List.mem_map]
  rintro ⟨declared, hmem, rfl⟩
  exact c.fresh _ (hdecl _ (List.mem_map_of_mem hmem)) hx

theorem declarationsOf_undeclared (hdecl : ∀ y ∈ lexicalNames body, y ∈ c.declared) {x : String}
    (hx : x ∉ c.declared) : declarationsOf body x = [] :=
  declarationsOf_eq_nil.mpr fun h => hx (hdecl x h)

theorem Linked.enter (h : c.Linked scope s t) (hscope : ∀ x ∈ scope, x ∈ c.declared)
    (hdecl : ∀ y ∈ lexicalNames body, y ∈ c.declared) (next : IdCounter) :
    c.Linked (lexicalNames body ++ scope) (s.enter body) (t.enter (c.block body next)) where
  world := h.world
  inside x hx := by
    have hx' : x ∈ c.declared := (List.mem_append.mp hx).elim (hdecl x) (hscope x)
    have hblock : declarationsOf (c.block body next) (c.names.apply x) = declarationsOf body x :=
      declarationsOf_block hdecl hx'
    by_cases hnil : declarationsOf body x = []
    · rw [State.enter_other hnil, State.enter_other (hblock.trans hnil)]
      exact h.inside x ((List.mem_append.mp hx).resolve_left (declarationsOf_eq_nil.mp hnil))
    · rw [State.enter_declared hnil, State.enter_declared (hblock ▸ hnil), hblock]
      exact ⟨_, rfl, rfl⟩
  undeclared x hx := by
    rw [State.enter_other (declarationsOf_undeclared hdecl hx), h.undeclared x hx]
  outside x hx := by
    rw [State.enter_other (declarationsOf_block_outer hdecl hx), h.outside x hx]

theorem Linked.leave (h : c.Linked scope s t) (hscope : ∀ x ∈ scope, x ∈ c.declared)
    (hdecl : ∀ y ∈ lexicalNames body, y ∈ c.declared) {next : IdCounter}
    (h' : c.Linked (lexicalNames body ++ scope) s' t') :
    c.Linked scope (s'.leave body s) (t'.leave (c.block body next) t) where
  world := h'.world
  inside x hx := by
    have hblock : declarationsOf (c.block body next) (c.names.apply x) = declarationsOf body x :=
      declarationsOf_block hdecl (hscope x hx)
    by_cases hnil : declarationsOf body x = []
    · rw [State.leave_other hnil, State.leave_other (hblock.trans hnil)]
      exact h'.inside x (List.mem_append_right _ hx)
    · rw [State.leave_declared hnil, State.leave_declared (hblock ▸ hnil)]
      exact h.inside x hx
  undeclared x hx := by
    rw [State.leave_other (declarationsOf_undeclared hdecl hx), h'.undeclared x hx]
  outside x hx := by
    rw [State.leave_other (declarationsOf_block_outer hdecl hx), h'.outside x hx]

/-- A block and its copy, given their statements. -/
theorem inBlock_copy {loop : Bool} {inside : List String} {run run' : Exec L (Completion L.Value)}
    (hscope : ∀ x ∈ scope, x ∈ c.declared) (hdecl : ∀ y ∈ lexicalNames body, y ∈ c.declared)
    (h : Sim (c.Linked (lexicalNames body ++ scope))
      (c.Ended loop inside (lexicalNames body ++ scope)) run run') :
    Sim (c.Linked scope) (c.Ended loop inside scope) (Exec.inBlock body run)
      (Exec.inBlock (c.block body next) run') :=
  .inBlock fun _ _ hst => (h _ _ (hst.enter hscope hdecl next)).mono
    fun _ _ _ _ hend => ⟨hend.relabel, hend.stays, hst.leave hscope hdecl hend.linked⟩

end Blocks

section Jumps

variable {loop : Bool} {inside labels : List String} {k : Completion L.Value}

theorem mem_map_labels (hlabels : ∀ l ∈ labels, l ∈ c.marks) {label : String}
    (hlabel : label ∈ c.marks) :
    c.labels.apply label ∈ labels.map c.labels.apply ↔ label ∈ labels := by
  rw [List.mem_map]
  constructor
  · rintro ⟨other, hother, heq⟩
    exact c.distinct other (hlabels other hother) label hlabel heq ▸ hother
  · exact fun h => ⟨label, h, rfl⟩

/-- A round of the copied loop ends it if the round of the loop does. -/
theorem Ended.endsAlike {s t : State L} {k' : Completion L.Value}
    (h : c.Ended true inside scope k k' s t) (hinside : ∀ l ∈ inside, l ∈ c.marks)
    (hlabels : ∀ l ∈ labels, l ∈ c.marks) :
    EndsAlike (c.Linked scope) labels (labels.map c.labels.apply) (c.Ended loop inside scope)
      k k' s t := by
  obtain ⟨rfl, hstays, hlinked⟩ := h
  unfold EndsAlike
  match k, hstays with
  | .normal, _ | .continues none, _ => exact hlinked
  | .breaks none, _ => exact ⟨rfl, trivial, hlinked⟩
  | .breaks (some label), hstays => exact ⟨rfl, hstays, hlinked⟩
  | .returns v, _ => exact ⟨rfl, trivial, hlinked⟩
  | .continues (some label), hstays =>
    have hmem := mem_map_labels hlabels (hinside label hstays)
    simp only [Completion.relabel, Option.map_some, Completion.endsLoop?, hmem]
    by_cases hlabel : label ∈ labels
    · simpa [hlabel] using hlinked
    · simpa [hlabel] using ⟨rfl, hstays, hlinked⟩

theorem leave_relabel {label : String} (hstays : k.StaysIn loop (label :: inside))
    (hlabel : label ∈ c.marks) (hinside : ∀ l ∈ inside, l ∈ c.marks) :
    (k.relabel c.labels).leave (c.labels.apply label) = (k.leave label).relabel c.labels ∧
      (k.leave label).StaysIn loop inside := by
  have hmarks : ∀ l ∈ label :: inside, l ∈ c.marks := List.forall_mem_cons.mpr ⟨hlabel, hinside⟩
  match k, hstays with
  | .normal, _ | .returns _, _ => exact ⟨rfl, trivial⟩
  | .breaks none, hstays | .continues none, hstays => exact ⟨rfl, hstays⟩
  | .breaks (some other), hstays | .continues (some other), hstays =>
    simp only [Completion.relabel, Option.map_some, Completion.leave]
    by_cases heq : other = label
    · simp [heq, Completion.StaysIn]
    · have hne : c.labels.apply other ≠ c.labels.apply label :=
        fun h => heq (c.distinct other (hmarks other hstays) label hlabel h)
      have hmem : other ∈ inside := (List.mem_cons.mp hstays).resolve_left heq
      simp [heq, hne, hmem, Completion.StaysIn]

end Jumps

section Statements

/-- A scope and labels that belong to the body. -/
structure Ambient (c : Copying L) (inside scope labels : List String) : Prop where
  scope : ∀ x ∈ scope, x ∈ c.declared
  inside : ∀ l ∈ inside, l ∈ c.marks
  labels : ∀ l ∈ labels, l ∈ c.marks

variable {loop : Bool} {inside labels : List String}

theorem Ambient.block (h : c.Ambient inside scope labels) {body : List Stmt}
    (hdecl : ∀ x ∈ lexicalNames body, x ∈ c.declared) :
    c.Ambient inside (lexicalNames body ++ scope) [] where
  scope x hx := (List.mem_append.mp hx).elim (hdecl x) (h.scope x)
  inside := h.inside
  labels := nofun

theorem Ambient.labeled (h : c.Ambient inside scope labels) {label : String} {body : List Stmt}
    (hlabel : label ∈ c.marks) (hdecl : ∀ x ∈ lexicalNames body, x ∈ c.declared) :
    c.Ambient (label :: inside) (lexicalNames body ++ scope) (label :: labels) where
  scope := (h.block hdecl).scope
  inside := List.forall_mem_cons.mpr ⟨hlabel, h.inside⟩
  labels := List.forall_mem_cons.mpr ⟨hlabel, h.labels⟩

theorem AdmitsExpr.rename_eq {e : Expr} (h : c.AdmitsExpr scope e) (next : IdCounter) :
    e.rename c.names next = (e.substitute (idents c.names), next) :=
  Meaning.rename_eq e next fun _ hfn => h _ hfn

theorem initialise_copy (hscope : ∀ x ∈ scope, x ∈ c.declared) {x : String} (hx : x ∈ scope)
    (v : L.Value) : Sim (c.Linked scope) (fun _ _ => c.Linked scope) (Exec.initialise x v)
      (Exec.initialise (c.names.apply x) v) := by
  intro s t hst
  obtain ⟨cell, hs, ht⟩ := hst.inside x hx
  simp only [Exec.initialise, hs, ht]
  exact hst.set hscope hx _

theorem declare_copy (hscope : ∀ x ∈ scope, x ∈ c.declared) {x : String} (hx : x ∈ scope) :
    Sim (c.Linked scope) (fun _ _ => c.Linked scope) (Exec.declare x)
      (Exec.declare (c.names.apply x)) := by
  intro s t hst
  obtain ⟨cell, hs, ht⟩ := hst.inside x hx
  simp only [Exec.declare, hs, ht]
  split
  · exact hst
  · exact initialise_copy hscope hx L.undefined s t hst

theorem ended_normal {s t : State L} (h : c.Linked scope s t) :
    c.Ended loop inside scope .normal .normal s t :=
  ⟨rfl, trivial, h⟩

mutual

/-- A statement and its copy. -/
theorem exec_copy (rounds : Nat) : ∀ (s : Stmt) (next : IdCounter) {loop : Bool}
    {inside scope labels : List String}, c.Fits loop inside scope s →
    c.Ambient inside scope labels →
    Sim (c.Linked scope) (c.Ended loop inside scope) (exec c.callee rounds labels s)
      (exec c.caller rounds (labels.map c.labels.apply) (s.rename c.names c.labels next).1)
  | .var .var name none, _, _, _, _, _, _, _ => by
    rw [Stmt.rename, exec, exec]
    exact .pure fun _ _ => ended_normal
  | .var .letVar name none, _, _, _, _, _, h, ha
  | .var .constVar name none, _, _, _, _, _, h, ha => by
    simp only [Stmt.rename, exec]
    exact (declare_copy ha.scope h).bind fun _ _ => .pure fun _ _ => ended_normal
  | .var .var name (some init), next, _, _, _, _, h, ha => by
    simp only [Stmt.rename, exec, h.2.rename_eq]
    exact (eval_copy ha.scope h.2).bind_same fun v =>
      ((refSim_of_mem ha.scope h.1).put v).bind_same fun _ => .pure fun _ _ => ended_normal
  | .var .letVar name (some init), next, _, _, _, _, h, ha
  | .var .constVar name (some init), next, _, _, _, _, h, ha => by
    simp only [Stmt.rename, exec, h.2.rename_eq]
    exact (eval_copy ha.scope h.2).bind_same fun v =>
      (initialise_copy ha.scope h.1 v).bind fun _ _ => .pure fun _ _ => ended_normal
  | .function _, _, _, _, _, _, h, _ => h.elim
  | .expr value, next, _, _, _, _, h, ha => by
    simp only [Stmt.rename, exec, AdmitsExpr.rename_eq h]
    exact (eval_copy ha.scope h).bind_same fun _ => .pure fun _ _ => ended_normal
  | .ret none, _, _, _, _, _, _, _ => by
    rw [Stmt.rename, exec, exec]
    exact .pure fun _ _ hst => ⟨rfl, trivial, hst⟩
  | .ret (some value), next, _, _, _, _, h, ha => by
    simp only [Stmt.rename, exec, AdmitsExpr.rename_eq h]
    exact (eval_copy ha.scope h).bind_same fun _ => .pure fun _ _ hst => ⟨rfl, trivial, hst⟩
  | .ifElse condition thenBranch none, next, _, _, _, _, h, ha => by
    simp only [Stmt.rename, exec, h.1.rename_eq]
    refine (eval_copy ha.scope h.1).bind_same fun _ => .ite _ ?_ (.pure fun _ _ => ended_normal)
    exact inBlock_copy ha.scope h.2.1 (execAll_copy rounds thenBranch next h.2.2 (ha.block h.2.1))
  | .ifElse condition thenBranch (some elseBranch), next, _, _, _, _, h, ha => by
    obtain ⟨hcondition, ⟨hthen, hfits⟩, helse, hfits'⟩ := h
    simp only [Stmt.rename, exec, hcondition.rename_eq]
    refine (eval_copy ha.scope hcondition).bind_same fun _ => .ite _ ?_ ?_
    · exact inBlock_copy ha.scope hthen (execAll_copy rounds thenBranch _ hfits (ha.block hthen))
    · exact inBlock_copy ha.scope helse (execAll_copy rounds elseBranch _ hfits' (ha.block helse))
  | .whileDo condition body, next, loop, inside, scope, labels, h, ha => by
    obtain ⟨hcondition, hdecl, hfits⟩ := h
    simp only [Stmt.rename, exec, hcondition.rename_eq]
    refine .loop (fun _ _ => Linked.world) (eval_copy ha.scope hcondition) ?_
      (fun _ _ => ended_normal) rounds
    refine (inBlock_copy ha.scope hdecl (execAll_copy rounds body next hfits
      (ha.block hdecl))).mono (fun _ _ h => h) fun _ _ _ _ hend => ?_
    exact hend.endsAlike ha.inside ha.labels
  | .block body, next, _, _, _, _, h, ha => by
    simp only [Stmt.rename, exec]
    exact inBlock_copy ha.scope h.1 (execAll_copy rounds body next h.2 (ha.block h.1))
  | .labeled label body, next, _, _, _, _, h, ha => by
    obtain ⟨hlabel, hdecl, hfits⟩ := h
    simp only [Stmt.rename, exec]
    refine (inBlock_copy ha.scope hdecl (execAll_copy rounds body next hfits
      (ha.labeled hlabel hdecl))).bind fun k k' => .pure fun s t hend => ?_
    obtain ⟨rfl, hstays, hlinked⟩ := hend
    obtain ⟨hleave, hstays'⟩ := leave_relabel hstays hlabel ha.inside
    exact ⟨hleave, hstays', hlinked⟩
  | .breakTo none, _, _, _, _, _, h, _ | .breakTo (some _), _, _, _, _, _, h, _
  | .continueTo none, _, _, _, _, _, h, _ | .continueTo (some _), _, _, _, _, _, h, _ => by
    simp only [Stmt.rename, exec]
    exact .pure fun _ _ hst => ⟨rfl, h, hst⟩
  | .throw value, next, _, _, _, _, h, ha => by
    simp only [Stmt.rename, exec, AdmitsExpr.rename_eq h]
    exact (eval_copy ha.scope h).bind_same fun _ => .throw (fun _ _ => Linked.world) _

theorem execAll_copy (rounds : Nat) : ∀ (stmts : List Stmt) (next : IdCounter) {loop : Bool}
    {inside scope labels : List String}, c.FitsAll loop inside scope stmts →
    c.Ambient inside scope labels →
    Sim (c.Linked scope) (c.Ended loop inside scope) (execAll c.callee rounds labels stmts)
      (execAll c.caller rounds (labels.map c.labels.apply)
        (Stmt.renameAll c.names c.labels stmts next).1)
  | [], _, _, _, _, _, _, _ => by
    rw [Stmt.renameAll, execAll, execAll]
    exact .pure fun _ _ => ended_normal
  | s :: rest, next, _, _, _, _, h, ha => by
    rw [Stmt.renameAll, execAll, execAll]
    refine (exec_copy rounds s next h.1 ha).bind fun k k' s t hend => ?_
    obtain ⟨rfl, hstays, hlinked⟩ := hend
    cases k with
    | normal => exact execAll_copy rounds rest _ h.2 ha s t hlinked
    | breaks _ | continues _ | returns _ => exact ⟨rfl, hstays, hlinked⟩

end

end Statements

end Copying

end StaticInliner.Meaning
