import StaticInliner.Inline.Direct
import StaticInliner.Inline.Rename
import StaticInliner.Proofs.Meaning.Expression
import StaticInliner.Proofs.Nodes

/-!
Comparing two computations. `Sim P Q` relates computations that, started in
states related by `P`, both end with values and states related by `Q`, or both
abort for the same reason and leave the same world. The rules follow the
structure of the computations, and the expression lemma below reduces an
expression with other names for its variables to a comparison of the variables.
-/
namespace StaticInliner.Meaning

variable {L : Language}

/-- Two results agree, up to what `Q` says of values and states. -/
def Agree (Q : α → β → State L → State L → Prop) :
    EStateM.Result (Abort L) (State L) α → EStateM.Result (Abort L) (State L) β → Prop
  | .ok a s, .ok b t => Q a b s t
  | .error e s, .error e' t => e = e' ∧ s.world = t.world
  | _, _ => False

/-- Started in related states, two computations end alike. -/
def Sim (P : State L → State L → Prop) (Q : α → β → State L → State L → Prop)
    (m : Exec L α) (m' : Exec L β) : Prop :=
  ∀ s t, P s t → Agree Q (m s) (m' t)

/-- The same value, and states related as before. -/
def Same (P : State L → State L → Prop) (a b : α) (s t : State L) : Prop := a = b ∧ P s t

/-- A relation between states of one world that holds whatever the world becomes. -/
structure Steady (P : State L → State L → Prop) : Prop where
  world : ∀ {s t}, P s t → s.world = t.world
  change : ∀ {s t}, P s t → ∀ w, P { s with world := w } { t with world := w }

theorem Agree.mono {Q R : α → β → State L → State L → Prop}
    {r : EStateM.Result (Abort L) (State L) α} {r' : EStateM.Result (Abort L) (State L) β}
    (h : Agree Q r r') (hQ : ∀ a b s t, Q a b s t → R a b s t) : Agree R r r' := by
  match r, r', h with
  | .ok a s, .ok b t, h => exact hQ a b s t h
  | .error _ _, .error _ _, h => exact h

/-- What agreeing results show outside. -/
theorem Agree.outcome_eq {P : State L → State L → Prop} (hP : ∀ s t, P s t → s.world = t.world)
    {r r' : EStateM.Result (Abort L) (State L) α} (h : Agree (Same P) r r') :
    outcome r = outcome r' := by
  match r, r', h with
  | .ok a s, .ok b t, h => simp [outcome, h.1, hP s t h.2]
  | .error e s, .error e' t, h => simp [outcome, h.1, h.2]

namespace Sim

variable {P P' : State L → State L → Prop}

theorem pure {Q : α → β → State L → State L → Prop} {a : α} {b : β}
    (h : ∀ s t, P s t → Q a b s t) : Sim P Q (Pure.pure a) (Pure.pure b) :=
  fun s t hst => h s t hst

/-- On the left nothing happens, and the value there is known. -/
theorem pure_left {Q R : α → β → State L → State L → Prop} {a : α} {m' : Exec L β}
    (h : Sim P Q (Pure.pure a) m') (hQ : ∀ b s t, Q a b s t → R a b s t) :
    Sim P R (Pure.pure a) m' := by
  intro s t hst
  have hagree := h s t hst
  match m' t, hagree with
  | .ok b t', hagree => exact hQ b s t' hagree

theorem bind {Q : α → β → State L → State L → Prop} {R : γ → δ → State L → State L → Prop}
    {m : Exec L α} {m' : Exec L β} {f : α → Exec L γ} {f' : β → Exec L δ}
    (hm : Sim P Q m m') (hf : ∀ a b, Sim (Q a b) R (f a) (f' b)) :
    Sim P R (m >>= f) (m' >>= f') := by
  intro s t hst
  have h := hm s t hst
  change Agree R (EStateM.bind m f s) (EStateM.bind m' f' t)
  unfold EStateM.bind
  match m s, m' t, h with
  | .ok a s₁, .ok b t₁, h => exact hf a b s₁ t₁ h
  | .error _ _, .error _ _, h => exact h

theorem mono {Q R : α → β → State L → State L → Prop} {m : Exec L α} {m' : Exec L β}
    (h : Sim P Q m m') (hP : ∀ s t, P' s t → P s t) (hQ : ∀ a b s t, Q a b s t → R a b s t) :
    Sim P' R m m' :=
  fun s t hst => (h s t (hP s t hst)).mono hQ

/-- Sequencing through a first part that yields the same value on both sides. -/
theorem bind_same {R : γ → δ → State L → State L → Prop} {m m' : Exec L α}
    {f : α → Exec L γ} {f' : α → Exec L δ} (hm : Sim P (Same P') m m')
    (hf : ∀ a, Sim P' R (f a) (f' a)) : Sim P R (m >>= f) (m' >>= f') := by
  refine hm.bind fun a b s t h => ?_
  obtain ⟨rfl, h⟩ := h
  exact hf a s t h

/-- More steps on the left only. -/
theorem bind_left {Q : α → β → State L → State L → Prop} {R : γ → β → State L → State L → Prop}
    {m : Exec L α} {m' : Exec L β} {f : α → Exec L γ} (hm : Sim P Q m m')
    (hf : ∀ a b, Sim (Q a b) R (f a) (Pure.pure b)) : Sim P R (m >>= f) m' := by
  simpa only [bind_pure] using hm.bind hf

/-- More steps on the right only. -/
theorem bind_right {Q : α → β → State L → State L → Prop} {R : α → γ → State L → State L → Prop}
    {m : Exec L α} {m' : Exec L β} {f : β → Exec L γ} (hm : Sim P Q m m')
    (hf : ∀ a b, Sim (Q a b) R (Pure.pure a) (f b)) : Sim P R m (m' >>= f) := by
  simpa only [bind_pure] using hm.bind hf

theorem ite {Q : α → β → State L → State L → Prop} (c : Bool) {m n : Exec L α} {m' n' : Exec L β}
    (hm : Sim P Q m m') (hn : Sim P Q n n') :
    Sim P Q (if c then m else n) (if c then m' else n') := by
  cases c with
  | true => exact hm
  | false => exact hn

theorem throw {Q : α → β → State L → State L → Prop} (hP : ∀ s t, P s t → s.world = t.world)
    (e : Abort L) : Sim P Q (EStateM.throw e) (EStateM.throw e) :=
  fun s t hst => ⟨rfl, hP s t hst⟩

theorem look (hP : ∀ s t, P s t → s.world = t.world) (f : Store L.Value L.Heap → L.Value) :
    Sim P (Same P) (Exec.look f) (Exec.look f) := by
  intro s t hst
  refine ⟨?_, hst⟩
  rw [hP s t hst]

/-- An effect on both sides; afterwards the world is some world. -/
theorem perform (hP : ∀ s t, P s t → s.world = t.world)
    (hP' : ∀ s t, P s t → ∀ w, P' { s with world := w } { t with world := w })
    (effect : Effect L.Value) : Sim P (Same P') (Exec.perform effect) (Exec.perform effect) := by
  intro s t hst
  simp only [Exec.perform, hP s t hst]
  cases (L.perform effect t.world.store).1 with
  | ok v => exact ⟨rfl, hP' s t hst _⟩
  | error v => exact ⟨rfl, rfl⟩

end Sim

section Expressions

variable {P : State L → State L → Prop} {view view' : View L} {names : Renaming}

/-- Two references that can stand for each other in every use. -/
structure RefSim (P : State L → State L → Prop) (view view' : View L) (r r' : Ref L.Value) :
    Prop where
  self? : r.self? = r'.self?
  get : Sim P (Same P) (r.get view) (r'.get view')
  put : ∀ v, Sim P (Same P) (r.put view v) (r'.put view' v)
  delete : Sim P (Same P) (r.delete view) (r'.delete view')

/-- A reference other than a variable stands for itself in any view. -/
theorem RefSim.rfl_of_ne (hP : Steady P) {r : Ref L.Value} (hr : ∀ name, r ≠ .variable name) :
    RefSim P view view' r r := by
  have hperform (effect : Effect L.Value) :
      Sim P (Same P) (Exec.perform effect) (Exec.perform effect) :=
    .perform (fun _ _ => hP.world) (fun _ _ => hP.change) effect
  have hlook (f : Store L.Value L.Heap → L.Value) : Sim P (Same P) (Exec.look f) (Exec.look f) :=
    .look (fun _ _ => hP.world) f
  match r with
  | .value v => exact ⟨rfl, .pure fun _ _ h => ⟨rfl, h⟩, fun _ => hperform _, hperform _⟩
  | .variable name => exact absurd rfl (hr name)
  | .member _ _ | .element _ _ => exact ⟨rfl, hlook _, fun _ => hperform _, hperform _⟩

/-- Two names for the same variable of the store, or for private variables that
are in the same state and change together. -/
theorem RefSim.of_cells (hP : Steady P) {name name' : String}
    (hcell : ∀ {s t}, P s t → s.locals name = t.locals name')
    (hreach : ∀ {s t}, P s t → s.locals name = none → view.reach name = view'.reach name')
    (hset : ∀ {s t} {cell : Cell L.Value}, P s t → s.locals name = some cell → ∀ v,
      P { s with locals := s.locals.set name ⟨some v, false⟩ }
        { t with locals := t.locals.set name' ⟨some v, false⟩ }) :
    RefSim P view view' (.variable name) (.variable name') := by
  have hperform (effect : Effect L.Value) :
      Sim P (Same P) (Exec.perform effect) (Exec.perform effect) :=
    .perform (fun _ _ => hP.world) (fun _ _ => hP.change) effect
  refine ⟨rfl, fun s t hst => ?_, fun v s t hst => ?_, fun s t hst => ?_⟩
  · match h : s.locals name with
    | none =>
      rw [Ref.get_store h, Ref.get_store (hcell hst ▸ h), hreach hst h, hP.world hst]
      exact ⟨rfl, hst⟩
    | some ⟨none, _⟩ =>
      rw [Ref.get_uninitialised h, Ref.get_uninitialised (hcell hst ▸ h)]
      exact ⟨rfl, hP.world hst⟩
    | some ⟨some w, _⟩ =>
      rw [Ref.get_private h, Ref.get_private (hcell hst ▸ h)]
      exact ⟨rfl, hst⟩
  · match h : s.locals name with
    | none =>
      rw [Ref.put_store h, Ref.put_store (hcell hst ▸ h), hreach hst h]
      exact hperform _ s t hst
    | some ⟨none, _⟩ =>
      rw [Ref.put_uninitialised h, Ref.put_uninitialised (hcell hst ▸ h)]
      exact ⟨rfl, hP.world hst⟩
    | some ⟨some w, true⟩ =>
      rw [Ref.put_constant h, Ref.put_constant (hcell hst ▸ h)]
      exact ⟨rfl, hP.world hst⟩
    | some ⟨some w, false⟩ =>
      rw [Ref.put_private h, Ref.put_private (hcell hst ▸ h)]
      exact ⟨rfl, hset hst h v⟩
  · match h : s.locals name with
    | none =>
      rw [Ref.delete_store h, Ref.delete_store (hcell hst ▸ h), hreach hst h]
      exact hperform _ s t hst
    | some cell =>
      rw [Ref.delete_private h, Ref.delete_private (hcell hst ▸ h)]
      exact ⟨rfl, hst⟩

/-- Identifiers that stand for the names of a renaming. -/
def idents (names : Renaming) : Bindings := names.map fun entry => (entry.1, .ident entry.2)

theorem lookup_idents (names : Renaming) (name : String) :
    ((idents names).lookup name).getD (.ident name) = .ident (names.apply name) := by
  induction names with
  | nil => rfl
  | cons entry rest ih =>
    obtain ⟨old, new⟩ := entry
    simp only [idents, Renaming.apply, List.map_cons, List.lookup_cons] at ih ⊢
    cases name == old with
    | true => rfl
    | false => exact ih

mutual

theorem substitute_nil : ∀ e : Expr, e.substitute [] = e
  | .undefined | .null | .bool _ | .number _ | .string _ | .ident _ | .this | .function _ => by
    simp [Expr.substitute]
  | .member e _ | .unary _ e => by rw [Expr.substitute, substitute_nil e]
  | .index left right | .assign left _ right | .binary _ left right | .logical _ left right => by
    rw [Expr.substitute, substitute_nil left, substitute_nil right]
  | .call callee args | .new callee args => by
    rw [Expr.substitute, substitute_nil callee, substituteAll_nil args]
  | .conditional condition thenExpr elseExpr => by
    rw [Expr.substitute, substitute_nil condition, substitute_nil thenExpr,
      substitute_nil elseExpr]
  | .sequence items | .array items => by rw [Expr.substitute, substituteAll_nil items]

theorem substituteAll_nil : ∀ es : List Expr, Expr.substituteAll [] es = es
  | [] => by rw [Expr.substituteAll]
  | e :: rest => by rw [Expr.substituteAll, substitute_nil e, substituteAll_nil rest]

end

/-- What has to hold of a node for two evaluations to agree on it. -/
def Alike (P : State L → State L → Prop) (view view' : View L) (names : Renaming) : Node → Prop
  | .expr (.ident name) =>
    RefSim P view view' (.variable name) (.variable (names.apply name))
  | .expr .this => view.self = view'.self
  | .expr (.function _) => view.reach = view'.reach
  | _ => True

/-- References that stand for each other, and states related as before. -/
def SameRef (P : State L → State L → Prop) (view view' : View L) (r r' : Ref L.Value)
    (s t : State L) : Prop :=
  RefSim P view view' r r' ∧ P s t

theorem Sim.get {P₀ : State L → State L → Prop} {m m' : Exec L (Ref L.Value)}
    (h : Sim P₀ (SameRef P view view') m m') :
    Sim P₀ (Same P) (m >>= Ref.get view) (m' >>= Ref.get view') :=
  h.bind fun _ _ s t hr => hr.1.get s t hr.2

/-- An evaluation that ends with a value. -/
theorem Sim.value (hP : Steady P) {P₀ : State L → State L → Prop} {m m' : Exec L L.Value}
    (h : Sim P₀ (Same P) m m') :
    Sim P₀ (SameRef P view view') (m >>= fun v => Pure.pure (.value v))
      (m' >>= fun v => Pure.pure (.value v)) :=
  h.bind_same fun _ => .pure fun _ _ hst => ⟨.rfl_of_ne hP nofun, hst⟩

mutual

/-- Renaming the variables of an expression keeps its meaning if each variable
and its new name can stand for each other. -/
theorem refer_idents (hP : Steady P) : ∀ e : Expr,
    (∀ node ∈ e.nodes .ownLayer, Alike P view view' names node) →
    Sim P (SameRef P view view') (refer view e) (refer view' (e.substitute (idents names)))
  | .undefined, _ | .null, _ | .bool _, _ | .number _, _ | .string _, _ => by
    simp only [refer, Expr.substitute]
    exact .pure fun _ _ hst => ⟨.rfl_of_ne hP nofun, hst⟩
  | .this, h => by
    have hself : view.self = view'.self := by simpa [Expr.nodes, Alike] using h
    simp only [refer, Expr.substitute, hself]
    exact .pure fun _ _ hst => ⟨.rfl_of_ne hP nofun, hst⟩
  | .ident name, h => by
    have href : RefSim P view view' (.variable name) (.variable (names.apply name)) := by
      simpa [Expr.nodes, Alike] using h
    simp only [refer, Expr.substitute, lookup_idents]
    exact .pure fun _ _ hst => ⟨href, hst⟩
  | .member object property, h => by
    simp only [Expr.nodes, List.forall_mem_cons] at h
    simp only [refer, Expr.substitute]
    exact (refer_idents hP object h.2).get.bind_same fun _ =>
      .pure fun _ _ hst => ⟨.rfl_of_ne hP nofun, hst⟩
  | .index object key, h => by
    simp only [Expr.nodes, List.forall_mem_cons, List.forall_mem_append] at h
    simp only [refer, Expr.substitute]
    exact (refer_idents hP object h.2.1).get.bind_same fun _ =>
      (refer_idents hP key h.2.2).get.bind_same fun _ =>
        .pure fun _ _ hst => ⟨.rfl_of_ne hP nofun, hst⟩
  | .call callee args, h => by
    simp only [Expr.nodes, List.forall_mem_cons, List.forall_mem_append] at h
    simp only [refer, Expr.substitute]
    refine (refer_idents hP callee h.2.1).bind fun r r' s t hr => ?_
    obtain ⟨hr, hst⟩ := hr
    rw [hr.self?]
    exact (hr.get.bind_same fun _ => (evalAll_idents hP args h.2.2).bind_same fun _ =>
      .value hP (.perform (fun _ _ => hP.world) (fun _ _ => hP.change) _)) s t hst
  | .new callee args, h => by
    simp only [Expr.nodes, List.forall_mem_cons, List.forall_mem_append] at h
    simp only [refer, Expr.substitute]
    exact (refer_idents hP callee h.2.1).get.bind_same fun _ =>
      (evalAll_idents hP args h.2.2).bind_same fun _ =>
        .value hP (.perform (fun _ _ => hP.world) (fun _ _ => hP.change) _)
  | .assign target none value, h => by
    simp only [Expr.nodes, List.forall_mem_cons, List.forall_mem_append] at h
    simp only [refer, Expr.substitute]
    refine (refer_idents hP target h.2.1).bind fun r r' s t hr => ?_
    obtain ⟨hr, hst⟩ := hr
    exact ((refer_idents hP value h.2.2).get.bind_same fun v => (hr.put v).bind_same fun _ =>
      .pure fun _ _ hst => ⟨.rfl_of_ne hP nofun, hst⟩) s t hst
  | .assign target (some op) value, h => by
    simp only [Expr.nodes, List.forall_mem_cons, List.forall_mem_append] at h
    simp only [refer, Expr.substitute]
    refine (refer_idents hP target h.2.1).bind fun r r' s t hr => ?_
    obtain ⟨hr, hst⟩ := hr
    exact (hr.get.bind_same fun _ => (refer_idents hP value h.2.2).get.bind_same fun _ =>
      (Sim.look (fun _ _ => hP.world) _).bind_same fun v => (hr.put v).bind_same fun _ =>
        .pure fun _ _ hst => ⟨.rfl_of_ne hP nofun, hst⟩) s t hst
  | .binary op left right, h => by
    simp only [Expr.nodes, List.forall_mem_cons, List.forall_mem_append] at h
    simp only [refer, Expr.substitute]
    exact (refer_idents hP left h.2.1).get.bind_same fun _ =>
      (refer_idents hP right h.2.2).get.bind_same fun _ => .value hP (.look (fun _ _ => hP.world) _)
  | .logical op left right, h => by
    simp only [Expr.nodes, List.forall_mem_cons, List.forall_mem_append] at h
    simp only [refer, Expr.substitute]
    exact (refer_idents hP left h.2.1).get.bind_same fun _ =>
      .ite _ (.value hP (refer_idents hP right h.2.2).get)
        (.pure fun _ _ hst => ⟨.rfl_of_ne hP nofun, hst⟩)
  | .unary op operand, h => by
    simp only [Expr.nodes, List.forall_mem_cons] at h
    have ih := refer_idents hP operand h.2
    cases op with
    | delete =>
      simp only [refer, Expr.substitute]
      exact ih.bind fun r r' s t hr => (Sim.value hP hr.1.delete) s t hr.2
    | _ =>
      simp only [refer, Expr.substitute]
      exact ih.get.bind_same fun _ => .value hP (.look (fun _ _ => hP.world) _)
  | .conditional condition thenExpr elseExpr, h => by
    simp only [Expr.nodes, List.forall_mem_cons, List.forall_mem_append] at h
    simp only [refer, Expr.substitute]
    exact (refer_idents hP condition h.2.1.1).get.bind_same fun _ =>
      .ite _ (.value hP (refer_idents hP thenExpr h.2.1.2).get)
        (.value hP (refer_idents hP elseExpr h.2.2).get)
  | .sequence items, h => by
    simp only [Expr.nodes, List.forall_mem_cons] at h
    simp only [refer, Expr.substitute]
    exact (evalAll_idents hP items h.2).bind_same fun _ =>
      .pure fun _ _ hst => ⟨.rfl_of_ne hP nofun, hst⟩
  | .array items, h => by
    simp only [Expr.nodes, List.forall_mem_cons] at h
    simp only [refer, Expr.substitute]
    exact (evalAll_idents hP items h.2).bind_same fun _ => .value hP (.look (fun _ _ => hP.world) _)
  | .function ⟨id, name, params, body⟩, h => by
    have hreach : view.reach = view'.reach := by simpa [Expr.nodes, Alike] using h
    simp only [refer, Expr.substitute, hreach]
    exact .value hP (.look (fun _ _ => hP.world) _)

theorem evalAll_idents (hP : Steady P) : ∀ es : List Expr,
    (∀ node ∈ Expr.nodesAll .ownLayer es, Alike P view view' names node) →
    Sim P (Same P) (evalAll view es) (evalAll view' (Expr.substituteAll (idents names) es))
  | [], _ => by
    simp only [evalAll, Expr.substituteAll]
    exact .pure fun _ _ hst => ⟨rfl, hst⟩
  | e :: rest, h => by
    simp only [Expr.nodesAll, List.forall_mem_append] at h
    simp only [evalAll, Expr.substituteAll]
    exact (refer_idents hP e h.1).get.bind_same fun _ =>
      (evalAll_idents hP rest h.2).bind_same fun _ =>
      .pure fun _ _ hst => ⟨rfl, hst⟩

end

/-- An expression evaluated twice, if each of its variables can stand for itself. -/
theorem eval_same (hP : Steady P) {e : Expr}
    (h : ∀ name, Node.expr (.ident name) ∈ e.nodes .ownLayer →
      RefSim P view view (.variable name) (.variable name)) :
    Sim P (Same P) (eval view e) (eval view e) := by
  have halike : ∀ node ∈ e.nodes .ownLayer, Alike P view view [] node := by
    intro node hnode
    unfold Alike
    split
    · exact h _ hnode
    · rfl
    · rfl
    · trivial
  have hsim := (refer_idents hP e halike).get
  rwa [show idents [] = [] from rfl, substitute_nil] at hsim

/-- States of one world with the given private variables. -/
structure Fixed (locals locals' : Locals L) (s t : State L) : Prop where
  world : s.world = t.world
  left : s.locals = locals
  right : t.locals = locals'

theorem Fixed.steady (locals locals' : Locals L) : Steady (Fixed locals locals') :=
  ⟨Fixed.world, fun h _ => ⟨rfl, h.left, h.right⟩⟩

/-- An expression that names no private variable has the same value beside any
private variables and leaves them alone. -/
theorem eval_fixed {locals locals' : Locals L} {e : Expr}
    (h : ∀ name, Node.expr (.ident name) ∈ e.nodes .ownLayer →
      locals name = none ∧ locals' name = none) :
    Sim (Fixed locals locals') (Same (Fixed locals locals')) (eval view e) (eval view e) := by
  refine eval_same (Fixed.steady locals locals') fun name hname => ?_
  obtain ⟨hl, hr⟩ := h name hname
  refine .of_cells (Fixed.steady locals locals') (fun hst => ?_) (fun _ _ => rfl)
    fun hst hcell _ => ?_
  · rw [hst.left, hst.right, hl, hr]
  · rw [hst.left, hl] at hcell
    cases hcell

end Expressions

end StaticInliner.Meaning
