import StaticInliner.Proofs.Meaning.Simulation
import StaticInliner.Proofs.Meaning.Statement

/-!
Comparing runs of statements. There is one rule for blocks, one for loops and
one for lists of statements; each takes what is known of the parts to the whole,
whatever relation between the ways to complete is used. Simulations compose.
-/
namespace StaticInliner.Meaning

variable {L : Language}

theorem Sim.trans {P P' : State L → State L → Prop} {Q : α → β → State L → State L → Prop}
    {Q' : β → γ → State L → State L → Prop} {m : Exec L α} {m' : Exec L β} {m'' : Exec L γ}
    (h : Sim P Q m m') (h' : Sim P' Q' m' m'') :
    Sim (fun s u => ∃ t, P s t ∧ P' t u) (fun a c s u => ∃ b t, Q a b s t ∧ Q' b c t u) m m'' := by
  rintro s u ⟨t, hst, htu⟩
  have hleft := h s t hst
  have hright := h' t u htu
  match m s, m' t, m'' u, hleft, hright with
  | .ok _ _, .ok b t', .ok _ _, hleft, hright => exact ⟨b, t', hleft, hright⟩
  | .error _ _, .error _ _, .error _ _, hleft, hright =>
    exact ⟨hleft.1.trans hright.1, hleft.2.trans hright.2⟩

/-- A jump that ends in a loop or at a label around the statement. -/
def Completion.StaysIn (loop : Bool) (inside : List String) : Completion Value → Prop
  | .normal | .returns _ => True
  | .breaks none | .continues none => loop = true
  | .breaks (some label) | .continues (some label) => label ∈ inside

theorem lexicals_cons (s : Stmt) (rest : List Stmt) :
    lexicals (s :: rest) = (lexical? s).toList ++ lexicals rest := by
  rw [lexicals, List.filterMap_cons]
  cases lexical? s <;> rfl

theorem lexicals_append (first second : List Stmt) :
    lexicals (first ++ second) = lexicals first ++ lexicals second :=
  List.filterMap_append

/-- A variable of a block is declared by one of its statements. -/
theorem exists_var_of_lexicalNames {body : List Stmt} {name : String}
    (h : name ∈ lexicalNames body) :
    ∃ init, Node.stmt (.var .letVar name init) ∈ Stmt.nodesAll .ownLayer body ∨
      Node.stmt (.var .constVar name init) ∈ Stmt.nodesAll .ownLayer body := by
  obtain ⟨⟨name, const⟩, hmem, rfl⟩ := List.mem_map.mp h
  obtain ⟨s, hs, hlexical⟩ := List.mem_filterMap.mp hmem
  have hnode := Stmt.nodes_subset_nodesAll hs (Stmt.self_mem_nodes .ownLayer s)
  unfold lexical? at hlexical
  split at hlexical
  · next init =>
    cases hlexical
    exact ⟨init, .inl hnode⟩
  · next init =>
    cases hlexical
    exact ⟨init, .inr hnode⟩
  · cases hlexical

theorem declarationsOf_append (first second : List Stmt) (name : String) :
    declarationsOf (first ++ second) name =
      declarationsOf first name ++ declarationsOf second name := by
  rw [declarationsOf, lexicals_append, List.filterMap_append]
  rfl

section Blocks

variable {body : List Stmt} {name : String} {s : State L}

theorem declarationsOf_eq_nil :
    declarationsOf body name = [] ↔ name ∉ lexicalNames body := by
  simp only [declarationsOf, lexicalNames, List.filterMap_eq_nil_iff, ite_eq_right_iff,
    reduceCtorEq, imp_false, List.mem_map, not_exists, not_and]

theorem entryCell_other (h : declarationsOf body name = []) :
    entryCell (L := L) body name = none := by
  rw [entryCell, h]

theorem entryCell_declared (h : declarationsOf body name ≠ []) :
    entryCell (L := L) body name = some ⟨none, (declarationsOf body name).all id⟩ := by
  match hd : declarationsOf body name, h with
  | flag :: flags, _ => rw [entryCell, hd]

theorem State.enter_other (h : declarationsOf body name = []) :
    (s.enter body).locals name = s.locals name := by
  simp only [State.enter, entryCell_other h, Option.none_or]

theorem State.enter_declared (h : declarationsOf body name ≠ []) :
    (s.enter body).locals name = some ⟨none, (declarationsOf body name).all id⟩ := by
  simp only [State.enter, entryCell_declared h, Option.some_or]

/-- A variable with a `let` among its declarations, on entry to the block. -/
theorem State.enter_let (h : (name, false) ∈ lexicals body) :
    (s.enter body).locals name = some ⟨none, false⟩ := by
  have hmem : false ∈ declarationsOf body name := List.mem_filterMap.mpr ⟨_, h, if_pos rfl⟩
  rw [State.enter_declared (List.ne_nil_of_mem hmem)]
  congr 2
  exact List.all_eq_false.mpr ⟨false, hmem, by simp⟩

theorem State.leave_other {outer : State L} (h : declarationsOf body name = []) :
    (s.leave body outer).locals name = s.locals name := by
  simp [State.leave, h]

theorem State.leave_declared {outer : State L} (h : declarationsOf body name ≠ []) :
    (s.leave body outer).locals name = outer.locals name := by
  simp [State.leave, h]

/-- A block is entered and left in the same way as another with its variables. -/
theorem inBlock_congr {body' : List Stmt} (h : lexicals body = lexicals body') (run : Exec L α) :
    Exec.inBlock body run = Exec.inBlock body' run := by
  have hdeclarations : declarationsOf body = declarationsOf body' := by
    funext name
    rw [declarationsOf, declarationsOf, h]
  have hentry : entryCell (L := L) body = entryCell body' := by
    funext name
    rw [entryCell, entryCell, hdeclarations]
  funext s
  simp only [Exec.inBlock, State.enter, State.leave, hdeclarations, hentry]

/-- Blocks are compared inside, with the states before them at hand. -/
theorem Sim.inBlock {P : State L → State L → Prop} {K : α → β → State L → State L → Prop}
    {body body' : List Stmt} {run : Exec L α} {run' : Exec L β}
    (h : ∀ s t, P s t → Agree
      (fun a b s' t' => K a b (s'.leave body s) (t'.leave body' t))
      (run (s.enter body)) (run' (t.enter body'))) :
    Sim P K (Exec.inBlock body run) (Exec.inBlock body' run') := by
  intro s t hst
  have hagree := h s t hst
  unfold Exec.inBlock
  match run (s.enter body), run' (t.enter body'), hagree with
  | .ok _ _, .ok _ _, hagree => exact hagree
  | .error _ _, .error _ _, hagree => exact hagree

/-- A block on the right only. -/
theorem Sim.inBlock_right {P : State L → State L → Prop} {K : α → β → State L → State L → Prop}
    {body : List Stmt} {run : Exec L α} {run' : Exec L β}
    (h : ∀ s t, P s t → Agree (fun a b s' t' => K a b s' (t'.leave body t))
      (run s) (run' (t.enter body))) :
    Sim P K run (Exec.inBlock body run') := by
  intro s t hst
  have hagree := h s t hst
  unfold Exec.inBlock
  match run s, run' (t.enter body), hagree with
  | .ok _ _, .ok _ _, hagree => exact hagree
  | .error _ _, .error _ _, hagree => exact hagree

end Blocks

section Loops

variable {P : State L → State L → Prop}
  {K : Completion L.Value → Completion L.Value → State L → State L → Prop}

/-- A round ends the loop on both sides or on neither. -/
def EndsAlike (P : State L → State L → Prop) (labels labels' : List String)
    (K : Completion L.Value → Completion L.Value → State L → State L → Prop)
    (k k' : Completion L.Value) (s t : State L) : Prop :=
  match k.endsLoop? labels, k'.endsLoop? labels' with
  | none, none => P s t
  | some c, some c' => K c c' s t
  | _, _ => False

/-- Loops agree if their conditions do and their rounds end alike. -/
theorem Sim.loop {labels labels' : List String} {condition condition' : Exec L L.Value}
    {body body' : Exec L (Completion L.Value)} (hP : ∀ s t, P s t → s.world = t.world)
    (hcondition : Sim P (Same P) condition condition')
    (hbody : Sim P (EndsAlike P labels labels' K) body body')
    (hnormal : ∀ s t, P s t → K .normal .normal s t) (rounds : Nat) :
    Sim P K (Exec.loop labels condition body rounds)
      (Exec.loop labels' condition' body' rounds) := by
  induction rounds with
  | zero => exact .throw hP _
  | succ rounds ih =>
    rw [Exec.loop, Exec.loop]
    refine hcondition.bind_same fun v => .ite _ ?_ (.pure hnormal)
    refine hbody.bind fun k k' s t h => ?_
    unfold EndsAlike at h
    split at h
    · next hk hk' =>
      rw [hk, hk']
      exact ih s t h
    · next c c' hk hk' =>
      rw [hk, hk']
      exact h
    · exact h.elim

/-- A statement and then the others, unless it does not end normally. -/
theorem execAll_append (view : View L) (rounds : Nat) (labels : List String)
    (first second : List Stmt) :
    execAll view rounds labels (first ++ second) =
      (do
        let completion ← execAll view rounds labels first
        match completion with
        | .normal => execAll view rounds labels second
        | completion => pure completion) := by
  induction first with
  | nil => simp [execAll]
  | cons s rest ih =>
    simp only [List.cons_append, execAll, ih, bind_assoc]
    refine congrArg _ (funext fun completion => ?_)
    cases completion <;> simp

/-- A first statement that ends normally, compared with a first step, and the rest. -/
theorem Sim.execAll_cons {Q : α → State L → State L → Prop}
    {R : β → Completion L.Value → State L → State L → Prop} {view : View L} {rounds : Nat}
    {labels : List String} {s : Stmt} {rest : List Stmt} {m : Exec L α} {f : α → Exec L β}
    (hfirst : Sim P (fun a k s t => k = .normal ∧ Q a s t) m (exec view rounds labels s))
    (hrest : ∀ a, Sim (Q a) R (f a) (execAll view rounds labels rest)) :
    Sim P R (m >>= f) (execAll view rounds labels (s :: rest)) := by
  rw [execAll]
  refine hfirst.bind fun a k s t h => ?_
  obtain ⟨rfl, h⟩ := h
  exact hrest a s t h

theorem execAll_singleton (view : View L) (rounds : Nat) (labels : List String) (s : Stmt) :
    execAll view rounds labels [s] = exec view rounds labels s := by
  simp only [execAll]
  conv => rhs; rw [← bind_pure (exec view rounds labels s)]
  refine congrArg _ (funext fun completion => ?_)
  cases completion <;> rfl

/-- An assignment as a statement does what a `var` with that value does. -/
theorem exec_assign (view : View L) (rounds : Nat) (labels : List String) (name : String)
    (value : Expr) : exec view rounds labels (.assign name value) =
      exec view rounds labels (.var .var name (some value)) := by
  simp [Stmt.assign, exec, eval, refer]

end Loops

end StaticInliner.Meaning
