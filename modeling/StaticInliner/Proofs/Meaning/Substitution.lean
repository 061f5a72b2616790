import StaticInliner.Proofs.Meaning.Purity
import StaticInliner.Proofs.Meaning.Simulation

/-!
Evaluating an expression in which atoms stand for parameters. A constant and a
temporary stand for their parameter at all times. A variable of the caller does
so until the first effect, which may change it; the scan for late reads makes
sure that its parameter is not read after that.
-/
namespace StaticInliner

/-- A scan that is at least as far as another one. -/
structure LateReads.Within (before after : LateReads) : Prop where
  effect : before.effectSeen = true → after.effectSeen = true
  late : before.late ⊆ after.late

namespace LateReads.Within

theorem refl (scan : LateReads) : scan.Within scan := ⟨id, fun _ h => h⟩

theorem trans {a b c : LateReads} (hab : a.Within b) (hbc : b.Within c) : a.Within c :=
  ⟨hbc.effect ∘ hab.effect, fun _ h => hbc.late (hab.late h)⟩

theorem seen {a b : LateReads} (h : a.Within b) : a.Within { b with effectSeen := true } :=
  ⟨fun _ => rfl, h.late⟩

end LateReads.Within

mutual

theorem Expr.within_lateReads (params : List String) : ∀ (e : Expr) (scan : LateReads),
    scan.Within (e.lateReads params scan)
  | .ident name, scan => by
    rw [Expr.lateReads]
    split
    · exact ⟨id, fun _ h => List.mem_cons_of_mem _ h⟩
    · exact .refl scan
  | .undefined, scan | .null, scan | .bool _, scan | .number _, scan | .string _, scan
  | .this, scan | .function _, scan => by
    rw [Expr.lateReads]
    exact .refl scan
  | .call callee args, scan | .new callee args, scan => by
    rw [Expr.lateReads]
    exact ((callee.within_lateReads params scan).trans
      (Expr.within_lateReadsAll params args _)).seen
  | .assign target op value, scan => by
    have htarget := target.within_lateReads params scan
    have hvalue := value.within_lateReads params
    cases target with
    | ident name =>
      rw [Expr.lateReads]
      exact (hvalue scan).seen
    | _ =>
      rw [Expr.lateReads_assign (by nofun)]
      exact (htarget.trans (hvalue _)).seen
  | .unary op operand, scan => by
    have ih := operand.within_lateReads params scan
    cases op with
    | delete =>
      rw [Expr.lateReads]
      exact ih.seen
    | _ =>
      rw [Expr.lateReads]
      · exact ih
      · nofun
  | .member object _, scan => by
    rw [Expr.lateReads]
    exact object.within_lateReads params scan
  | .index left right, scan | .binary _ left right, scan | .logical _ left right, scan => by
    rw [Expr.lateReads]
    exact (left.within_lateReads params scan).trans (right.within_lateReads params _)
  | .conditional condition thenExpr elseExpr, scan => by
    rw [Expr.lateReads]
    exact ((condition.within_lateReads params scan).trans
      (thenExpr.within_lateReads params _)).trans (elseExpr.within_lateReads params _)
  | .sequence items, scan | .array items, scan => by
    rw [Expr.lateReads]
    exact Expr.within_lateReadsAll params items scan

theorem Expr.within_lateReadsAll (params : List String) : ∀ (es : List Expr) (scan : LateReads),
    scan.Within (Expr.lateReadsAll params es scan)
  | [], scan => by
    rw [Expr.lateReadsAll]
    exact .refl scan
  | e :: rest, scan => by
    rw [Expr.lateReadsAll]
    exact (e.within_lateReads params scan).trans (Expr.within_lateReadsAll params rest _)

end

namespace Meaning

variable {L : Language}

/-- An atom has the value of its parameter, at least in states like `t`. A
variable of the caller may only be used where it is `calm`, that is before any
effect, and for a parameter that is not read late. -/
inductive Stands (view : View L) (late reserved : List String) (calm : Prop) (t : State L)
    (param : String) : Expr → L.Value → Prop
  | literal {e : Expr} {v : L.Value} (hv : ∀ s, refer view e s = .ok (.value v) s) :
    Stands view late reserved calm t param e v
  | temporary {name : String} {v : L.Value} (hname : name ∈ reserved)
    (hcell : t.locals name = some ⟨some v, false⟩) :
    Stands view late reserved calm t param (.ident name) v
  | variable {name : String} {v : L.Value} (hname : name ∈ reserved)
    (hnone : t.locals name = none) (hcalm : calm) (hlate : param ∉ late)
    (hread : t.world.store.read (view.reach name) = v) :
    Stands view late reserved calm t param (.ident name) v

/-- What a returned expression must not contain: `this`, functions, `delete` of a
variable, and assignments to parameters. -/
def Replaceable (params : List String) : Node → Prop
  | .expr .this | .expr (.function _) | .expr (.unary .delete (.ident _)) => False
  | .expr (.assign (.ident name) _ _) => name ∉ params
  | _ => True

/-- What is fixed while the returned expression is evaluated: how the function
and the caller see names, the values of the parameters, what stands for them,
and the state in which the evaluation starts at the call. -/
structure Returning (L : Language) where
  callee : View L
  caller : View L
  params : List String
  late : List String
  reserved : List String
  values : List (String × L.Value)
  bindings : Bindings
  start : State L

namespace Returning

variable (c : Returning L)

/-- The frame of the function: its parameters. -/
def frame : Locals L := fun name => (c.values.lookup name).map (⟨some ·, false⟩)

/-- States reached from the start; without an effect the world is still the same. -/
structure Since (effect : Bool) (s t : State L) : Prop where
  world : s.world = t.world
  callee : s.locals = c.frame
  caller : t.locals = c.start.locals
  still : effect = false → t.world = c.start.world

/-- A parameter with an atom that stands for it. -/
def Substituted (name : String) : Prop :=
  name ∈ c.params ∧ ∃ v arg, c.values.lookup name = some v ∧ c.bindings.lookup name = some arg ∧
    Stands c.caller c.late c.reserved True c.start name arg v

/-- A name that means the same in the function and at the call. -/
structure Shared (name : String) : Prop where
  value : c.values.lookup name = none
  binding : c.bindings.lookup name = none
  caller : c.start.locals name = none
  reach : c.callee.reach name = c.caller.reach name

/-- What is required of each node of the returned expression. -/
structure Admits (node : Node) : Prop where
  replaceable : Replaceable c.params node
  ident : ∀ name, node = .expr (.ident name) → c.Substituted name ∨ c.Shared name

variable {c}

theorem Since.mono {effect effect' : Bool} (h : effect = true → effect' = true) {s t : State L}
    (hst : c.Since effect s t) : c.Since effect' s t :=
  ⟨hst.world, hst.callee, hst.caller, fun h' => hst.still (by cases effect <;> simp_all)⟩

theorem Since.change {effect : Bool} {s t : State L} (hst : c.Since effect s t) (w : World L) :
    c.Since true { s with world := w } { t with world := w } :=
  ⟨rfl, hst.callee, hst.caller, nofun⟩

theorem perform_sim (effect : Bool) (e : Effect L.Value) :
    Sim (c.Since effect) (Same (c.Since true)) (Exec.perform e) (Exec.perform e) :=
  .perform (fun _ _ h => h.world) (fun _ _ h => h.change) e

theorem look_sim (effect : Bool) (f : Store L.Value L.Heap → L.Value) :
    Sim (c.Since effect) (Same (c.Since effect)) (Exec.look f) (Exec.look f) :=
  .look (fun _ _ h => h.world) f

/-- The same reference, not a variable, in related states. -/
def SameFixed (c : Returning L) (effect : Bool) (r r' : Ref L.Value) (s t : State L) : Prop :=
  (r = r' ∧ ∀ name, r ≠ .variable name) ∧ c.Since effect s t

theorem get_sim {effect : Bool} {r : Ref L.Value} (hr : ∀ name, r ≠ .variable name) :
    Sim (c.Since effect) (Same (c.Since effect)) (r.get c.callee) (r.get c.caller) := by
  match r with
  | .value v => exact .pure fun _ _ hst => ⟨rfl, hst⟩
  | .variable name => exact absurd rfl (hr name)
  | .member _ _ | .element _ _ => exact look_sim effect _

theorem put_sim {effect : Bool} {r : Ref L.Value} (hr : ∀ name, r ≠ .variable name) (v : L.Value) :
    Sim (c.Since effect) (Same (c.Since true)) (r.put c.callee v) (r.put c.caller v) := by
  match r with
  | .variable name => exact absurd rfl (hr name)
  | .value _ | .member _ _ | .element _ _ => exact perform_sim effect _

theorem delete_sim {effect : Bool} {r : Ref L.Value} (hr : ∀ name, r ≠ .variable name) :
    Sim (c.Since effect) (Same (c.Since true)) (r.delete c.callee) (r.delete c.caller) := by
  match r with
  | .variable name => exact absurd rfl (hr name)
  | .value _ | .member _ _ | .element _ _ => exact perform_sim effect _

/-- References with the same value and the same object to call them on. -/
def Readable (c : Returning L) (effect : Bool) (r r' : Ref L.Value) (s t : State L) : Prop :=
  (r.self? = r'.self? ∧
    Sim (c.Since effect) (Same (c.Since effect)) (r.get c.callee) (r'.get c.caller)) ∧
  c.Since effect s t

/-- A parameter is read as the atom that stands for it. -/
theorem refer_substituted {name : String} {effect : Bool} (h : c.Substituted name)
    (hlate : effect = true → name ∈ c.late) :
    Sim (c.Since effect) (c.Readable effect) (refer c.callee (.ident name))
      (refer c.caller ((Expr.ident name).substitute c.bindings)) := by
  obtain ⟨-, v, arg, hvalue, hbinding, hstands⟩ := h
  have hframe : c.frame name = some ⟨some v, false⟩ := by simp [frame, hvalue]
  rw [refer, Expr.substitute, hbinding, Option.getD_some]
  intro s t hst
  cases hstands with
  | literal hv =>
    rw [hv]
    refine ⟨⟨rfl, fun s t hst => ?_⟩, hst⟩
    rw [Ref.get_private (by rw [hst.callee, hframe])]
    exact ⟨rfl, hst⟩
  | temporary hname hcell =>
    rw [refer]
    refine ⟨⟨rfl, fun s t hst => ?_⟩, hst⟩
    rw [Ref.get_private (by rw [hst.callee, hframe]), Ref.get_private (by rw [hst.caller, hcell])]
    exact ⟨rfl, hst⟩
  | «variable» hname hnone hcalm hnotlate hread =>
    rw [refer]
    refine ⟨⟨rfl, fun s t hst => ?_⟩, hst⟩
    -- a variable of the caller is not read late, so the world is still that of the start
    have hstill : t.world = c.start.world :=
      hst.still (Bool.eq_false_iff.mpr fun h => hnotlate (hlate h))
    rw [Ref.get_private (by rw [hst.callee, hframe]), Ref.get_store (by rw [hst.caller, hnone]),
      hstill, hread]
    exact ⟨rfl, hst⟩

theorem refer_shared {name : String} (effect : Bool) (h : c.Shared name) :
    Sim (c.Since effect) (c.Readable effect) (refer c.callee (.ident name))
      (refer c.caller ((Expr.ident name).substitute c.bindings)) := by
  have hframe : c.frame name = none := by simp [frame, h.value]
  rw [refer, Expr.substitute, h.binding, Option.getD_none, refer]
  refine .pure fun s t hst => ⟨⟨rfl, fun s t hst => ?_⟩, hst⟩
  rw [Ref.get_store (by rw [hst.callee, hframe]), Ref.get_store (by rw [hst.caller, h.caller]),
    h.reach, hst.world]
  exact ⟨rfl, hst⟩

/-- An assignment to a shared name is the same effect on both sides. -/
theorem put_shared {name : String} {effect : Bool} (h : c.Shared name) (v : L.Value) :
    Sim (c.Since effect) (Same (c.Since true)) ((Ref.variable name).put c.callee v)
      ((Ref.variable name).put c.caller v) := by
  have hframe : c.frame name = none := by simp [frame, h.value]
  intro s t hst
  rw [Ref.put_store (by rw [hst.callee, hframe]), Ref.put_store (by rw [hst.caller, h.caller]),
    h.reach]
  exact perform_sim effect _ s t hst

/-- Either kind of expression can be read once the references of those that are
not identifiers have been compared. -/
theorem readable {e : Expr} {scan : LateReads}
    (hallowed : ∀ node ∈ e.nodes .nested, c.Admits node)
    (hlate : (e.lateReads c.params scan).late ⊆ c.late)
    (h : (∀ name, e ≠ .ident name) →
      Sim (c.Since scan.effectSeen) (c.SameFixed (e.lateReads c.params scan).effectSeen)
        (refer c.callee e) (refer c.caller (e.substitute c.bindings))) :
    Sim (c.Since scan.effectSeen) (c.Readable (e.lateReads c.params scan).effectSeen)
      (refer c.callee e) (refer c.caller (e.substitute c.bindings)) := by
  cases e with
  | ident name =>
    have hscan : ((Expr.ident name).lateReads c.params scan).effectSeen = scan.effectSeen := by
      rw [Expr.lateReads]
      split <;> rfl
    rw [hscan]
    have hname : c.Admits (.expr (.ident name)) := hallowed _ (by simp [Expr.nodes])
    rcases hname.ident name rfl with hname | hname
    · refine refer_substituted hname fun hseen => hlate ?_
      simp [Expr.lateReads, hseen, hname.1]
    · exact refer_shared _ hname
  | _ =>
    refine (h nofun).mono (fun _ _ h => h) fun r r' s t hr => ?_
    obtain ⟨⟨rfl, hr⟩, hst⟩ := hr
    exact ⟨⟨rfl, get_sim hr⟩, hst⟩

theorem eval_substitute {e : Expr} {scan : LateReads}
    (hallowed : ∀ node ∈ e.nodes .nested, c.Admits node)
    (hlate : (e.lateReads c.params scan).late ⊆ c.late)
    (h : (∀ name, e ≠ .ident name) →
      Sim (c.Since scan.effectSeen) (c.SameFixed (e.lateReads c.params scan).effectSeen)
        (refer c.callee e) (refer c.caller (e.substitute c.bindings))) :
    Sim (c.Since scan.effectSeen) (Same (c.Since (e.lateReads c.params scan).effectSeen))
      (eval c.callee e) (eval c.caller (e.substitute c.bindings)) :=
  (readable hallowed hlate h).bind fun _ _ s t hr => hr.1.2 s t hr.2

theorem sameFixed_value {effect : Bool} {v : L.Value} {s t : State L} (h : c.Since effect s t) :
    c.SameFixed effect (.value v) (.value v) s t := by
  refine ⟨⟨rfl, fun name heq => ?_⟩, h⟩
  cases heq

theorem fixed_value {before after : Bool} {m m' : Exec L L.Value}
    (h : Sim (c.Since before) (Same (c.Since after)) m m') :
    Sim (c.Since before) (c.SameFixed after) (m >>= fun v => pure (.value v))
      (m' >>= fun v => pure (.value v)) :=
  h.bind_same fun _ => .pure fun _ _ hst => sameFixed_value hst

/-- An assignment to a shared name, given that the assigned values agree. -/
theorem assign_shared {name : String} {value : Expr} {before after : Bool} (h : c.Shared name)
    (op : Option BinaryOp) (hvalue : Sim (c.Since before) (Same (c.Since after))
      (eval c.callee value) (eval c.caller (value.substitute c.bindings))) :
    Sim (c.Since before) (c.SameFixed true) (refer c.callee (.assign (.ident name) op value))
      (refer c.caller ((Expr.assign (.ident name) op value).substitute c.bindings)) := by
  have htarget : (Expr.ident name).substitute c.bindings = .ident name := by
    rw [Expr.substitute, h.binding, Option.getD_none]
  have hget := (refer_shared before h).bind
    fun _ _ s t (hr : c.Readable _ _ _ s t) => hr.1.2 s t hr.2
  rw [Expr.substitute, htarget]
  rw [htarget, refer, refer] at hget
  cases op with
  | none =>
    rw [refer, refer, refer, refer]
    exact hvalue.bind_same fun v => (put_shared h v).bind_same fun _ =>
      .pure fun _ _ hst => sameFixed_value hst
  | some op =>
    rw [refer, refer, refer, refer]
    exact hget.bind_same fun _ => hvalue.bind_same fun _ => (look_sim after _).bind_same fun v =>
      (put_shared h v).bind_same fun _ => .pure fun _ _ hst => sameFixed_value hst

/-- An assignment to anything else, given that target and value agree. -/
theorem assign_fixed {target value : Expr} {before between after : Bool} (op : Option BinaryOp)
    (htarget : Sim (c.Since before) (c.SameFixed between) (refer c.callee target)
      (refer c.caller (target.substitute c.bindings)))
    (hvalue : Sim (c.Since between) (Same (c.Since after))
      (eval c.callee value) (eval c.caller (value.substitute c.bindings))) :
    Sim (c.Since before) (c.SameFixed true) (refer c.callee (.assign target op value))
      (refer c.caller ((Expr.assign target op value).substitute c.bindings)) := by
  rw [Expr.substitute]
  cases op with
  | none =>
    rw [refer, refer]
    refine htarget.bind fun r r' s t hr => ?_
    obtain ⟨⟨rfl, hr⟩, hst⟩ := hr
    exact (hvalue.bind_same fun v => (put_sim hr v).bind_same fun _ =>
      .pure fun _ _ hst => sameFixed_value hst) s t hst
  | some op =>
    rw [refer, refer]
    refine htarget.bind fun r r' s t hr => ?_
    obtain ⟨⟨rfl, hr⟩, hst⟩ := hr
    exact ((get_sim hr).bind_same fun _ => hvalue.bind_same fun _ =>
      (look_sim after _).bind_same fun v => (put_sim hr v).bind_same fun _ =>
        .pure fun _ _ hst => sameFixed_value hst) s t hst

mutual

/-- An expression with its parameters replaced denotes the same reference, if it
is not itself an identifier. -/
theorem refer_substitute : ∀ (e : Expr) (scan : LateReads),
    (∀ node ∈ e.nodes .nested, c.Admits node) →
    (e.lateReads c.params scan).late ⊆ c.late → (∀ name, e ≠ .ident name) →
    Sim (c.Since scan.effectSeen) (c.SameFixed (e.lateReads c.params scan).effectSeen)
      (refer c.callee e) (refer c.caller (e.substitute c.bindings))
  | .undefined, _, _, _, _ | .null, _, _, _, _ | .bool _, _, _, _, _ | .number _, _, _, _, _
  | .string _, _, _, _, _ => by
    rw [refer, Expr.substitute, refer, Expr.lateReads]
    exact .pure fun _ _ hst => sameFixed_value hst
  | .ident name, _, _, _, hne => absurd rfl (hne name)
  | .this, _, h, _, _ => by
    have hthis : c.Admits (.expr .this) := h _ (by simp [Expr.nodes])
    exact absurd hthis.replaceable id
  | .function ⟨id, name, params, body⟩, _, h, _, _ => by
    have hfunction : c.Admits (.expr (.function ⟨id, name, params, body⟩)) :=
      h _ (by simp [Expr.nodes])
    exact absurd hfunction.replaceable (fun h => h)
  | .member object property, scan, h, hlate, _ => by
    rw [Expr.lateReads] at hlate ⊢
    simp only [Expr.nodes, List.forall_mem_cons] at h
    have hobject := eval_substitute h.2 hlate (refer_substitute object scan h.2 hlate)
    rw [refer, Expr.substitute, refer]
    exact hobject.bind_same fun _ => .pure fun _ _ hst => ⟨⟨rfl, nofun⟩, hst⟩
  | .index object key, scan, h, hlate, _ => by
    rw [Expr.lateReads] at hlate ⊢
    simp only [Expr.nodes, List.forall_mem_cons, List.forall_mem_append] at h
    obtain ⟨-, ho, hk⟩ := h
    have hlate' := List.Subset.trans (key.within_lateReads c.params _).late hlate
    have hobject := eval_substitute ho hlate' (refer_substitute object scan ho hlate')
    have hkey := eval_substitute hk hlate (refer_substitute key _ hk hlate)
    rw [refer, Expr.substitute, refer]
    exact hobject.bind_same fun _ => hkey.bind_same fun _ =>
      .pure fun _ _ hst => ⟨⟨rfl, nofun⟩, hst⟩
  | .call callee args, scan, h, hlate, _ => by
    rw [Expr.lateReads] at hlate ⊢
    simp only [Expr.nodes, List.forall_mem_cons, List.forall_mem_append] at h
    obtain ⟨-, hc, ha⟩ := h
    have hlate' := List.Subset.trans (Expr.within_lateReadsAll c.params args _).late hlate
    have hcallee := readable hc hlate' (refer_substitute callee scan hc hlate')
    have hargs := evalAll_substitute args _ ha hlate
    rw [refer, Expr.substitute, refer]
    refine hcallee.bind fun r r' s t hr => ?_
    obtain ⟨⟨hself, hget⟩, hst⟩ := hr
    rw [hself]
    exact (hget.bind_same fun _ => hargs.bind_same fun _ => fixed_value (perform_sim _ _)) s t hst
  | .new callee args, scan, h, hlate, _ => by
    rw [Expr.lateReads] at hlate ⊢
    simp only [Expr.nodes, List.forall_mem_cons, List.forall_mem_append] at h
    obtain ⟨-, hc, ha⟩ := h
    have hlate' := List.Subset.trans (Expr.within_lateReadsAll c.params args _).late hlate
    have hcallee := eval_substitute hc hlate' (refer_substitute callee scan hc hlate')
    have hargs := evalAll_substitute args _ ha hlate
    rw [refer, Expr.substitute, refer]
    exact hcallee.bind_same fun _ => hargs.bind_same fun _ => fixed_value (perform_sim _ _)
  | .assign target op value, scan, h, hlate, _ => by
    simp only [Expr.nodes, List.forall_mem_cons, List.forall_mem_append] at h
    obtain ⟨hassign, ht, hv⟩ := h
    have htarget := refer_substitute target scan ht
    have hvalue := fun scan hlate => eval_substitute hv hlate (refer_substitute value scan hv hlate)
    rcases target.ident_or with ⟨name, rfl⟩ | hne
    · have hname : c.Admits (.expr (.ident name)) := ht _ (by simp [Expr.nodes])
      have hshared : c.Shared name :=
        (hname.ident name rfl).resolve_left fun h => hassign.replaceable h.1
      rw [Expr.lateReads] at hlate ⊢
      exact assign_shared hshared op (hvalue scan hlate)
    · rw [Expr.lateReads_assign hne] at hlate ⊢
      have hlate' := List.Subset.trans (value.within_lateReads c.params _).late hlate
      exact assign_fixed op (htarget hlate' hne) (hvalue _ hlate)
  | .binary op left right, scan, h, hlate, _ => by
    rw [Expr.lateReads] at hlate ⊢
    simp only [Expr.nodes, List.forall_mem_cons, List.forall_mem_append] at h
    obtain ⟨-, hl, hr⟩ := h
    have hlate' := List.Subset.trans (right.within_lateReads c.params _).late hlate
    have hleft := eval_substitute hl hlate' (refer_substitute left scan hl hlate')
    have hright := eval_substitute hr hlate (refer_substitute right _ hr hlate)
    rw [refer, Expr.substitute, refer]
    exact hleft.bind_same fun _ => hright.bind_same fun _ => fixed_value (look_sim _ _)
  | .logical op left right, scan, h, hlate, _ => by
    rw [Expr.lateReads] at hlate ⊢
    simp only [Expr.nodes, List.forall_mem_cons, List.forall_mem_append] at h
    obtain ⟨-, hl, hr⟩ := h
    have hwithin := right.within_lateReads c.params (left.lateReads c.params scan)
    have hlate' := List.Subset.trans hwithin.late hlate
    have hleft := eval_substitute hl hlate' (refer_substitute left scan hl hlate')
    have hright := eval_substitute hr hlate (refer_substitute right _ hr hlate)
    rw [refer, Expr.substitute, refer]
    refine hleft.bind_same fun _ => .ite _ (fixed_value hright) ?_
    exact .pure fun _ _ hst => ⟨⟨rfl, nofun⟩, hst.mono hwithin.effect⟩
  | .unary op operand, scan, h, hlate, _ => by
    simp only [Expr.nodes, List.forall_mem_cons] at h
    obtain ⟨hunary, ho⟩ := h
    have hoperand := refer_substitute operand scan ho
    cases op with
    | delete =>
      have hne : ∀ name, operand ≠ .ident name := by
        rintro name rfl
        exact hunary.replaceable
      rw [Expr.lateReads] at hlate ⊢
      rw [refer, Expr.substitute, refer]
      refine (hoperand hlate hne).bind fun r r' s t hr => ?_
      obtain ⟨⟨rfl, hr⟩, hst⟩ := hr
      exact fixed_value (delete_sim hr) s t hst
    | _ =>
      rw [Expr.lateReads] at hlate ⊢
      · simp only [refer, Expr.substitute]
        exact (eval_substitute ho hlate (hoperand hlate)).bind_same fun _ =>
          fixed_value (look_sim _ _)
      all_goals nofun
  | .conditional condition thenExpr elseExpr, scan, h, hlate, _ => by
    rw [Expr.lateReads] at hlate ⊢
    simp only [Expr.nodes, List.forall_mem_cons, List.forall_mem_append] at h
    obtain ⟨-, ⟨hc, ht⟩, he⟩ := h
    have hthen := thenExpr.within_lateReads c.params (condition.lateReads c.params scan)
    have helse := elseExpr.within_lateReads c.params
      (thenExpr.lateReads c.params (condition.lateReads c.params scan))
    have hlate' := List.Subset.trans helse.late hlate
    have hlate'' := List.Subset.trans hthen.late hlate'
    have hcondition := eval_substitute hc hlate'' (refer_substitute condition scan hc hlate'')
    have hyes := eval_substitute ht hlate' (refer_substitute thenExpr _ ht hlate')
    have hno := eval_substitute he hlate (refer_substitute elseExpr _ he hlate)
    rw [refer, Expr.substitute, refer]
    refine hcondition.bind_same fun _ => .ite _ ?_ ?_
    · exact (fixed_value hyes).mono (fun _ _ h => h)
        fun _ _ _ _ hr => ⟨hr.1, hr.2.mono helse.effect⟩
    · -- the scan counts the effects of the other branch too, which only weakens what is known
      exact (fixed_value hno).mono (fun _ _ h => h.mono hthen.effect) fun _ _ _ _ hr => hr
  | .sequence items, scan, h, hlate, _ => by
    rw [Expr.lateReads] at hlate ⊢
    simp only [Expr.nodes, List.forall_mem_cons] at h
    rw [refer, Expr.substitute, refer]
    exact (evalAll_substitute items scan h.2 hlate).bind_same fun _ =>
      .pure fun _ _ hst => sameFixed_value hst
  | .array items, scan, h, hlate, _ => by
    rw [Expr.lateReads] at hlate ⊢
    simp only [Expr.nodes, List.forall_mem_cons] at h
    rw [refer, Expr.substitute, refer]
    exact (evalAll_substitute items scan h.2 hlate).bind_same fun _ => fixed_value (look_sim _ _)

theorem evalAll_substitute : ∀ (es : List Expr) (scan : LateReads),
    (∀ node ∈ Expr.nodesAll .nested es, c.Admits node) →
    (Expr.lateReadsAll c.params es scan).late ⊆ c.late →
    Sim (c.Since scan.effectSeen) (Same (c.Since (Expr.lateReadsAll c.params es scan).effectSeen))
      (evalAll c.callee es) (evalAll c.caller (Expr.substituteAll c.bindings es))
  | [], scan, _, _ => by
    rw [evalAll, Expr.substituteAll, evalAll, Expr.lateReadsAll]
    exact .pure fun _ _ hst => ⟨rfl, hst⟩
  | e :: rest, scan, h, hlate => by
    rw [Expr.lateReadsAll] at hlate ⊢
    simp only [Expr.nodesAll, List.forall_mem_append] at h
    have hlate' := List.Subset.trans (Expr.within_lateReadsAll c.params rest _).late hlate
    have hfirst := eval_substitute h.1 hlate' (refer_substitute e scan h.1 hlate')
    rw [evalAll, Expr.substituteAll, evalAll]
    exact hfirst.bind_same fun _ => (evalAll_substitute rest _ h.2 hlate).bind_same fun _ =>
      .pure fun _ _ hst => ⟨rfl, hst⟩

end

end Returning

end Meaning

end StaticInliner
