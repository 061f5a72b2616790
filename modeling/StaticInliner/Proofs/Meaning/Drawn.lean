import StaticInliner.Proofs.Expansion
import StaticInliner.Proofs.Marks
import StaticInliner.Proofs.Meaning.Copying
import StaticInliner.Proofs.Meaning.Returns

/-!
The names that a block substitution draws. They give new names to what the body
declares, and nothing in the copied body touches the result variable or the label
of the block, so that the returns of the copy can be lowered.
-/
namespace StaticInliner.Meaning

variable {L : Language}

/-- The names that a block draws: all new, one for each name and label of the body. -/
structure Fresh (fn : FunctionLit) (outer : List String) (drawn : Block.Drawn) : Prop where
  nodup : drawn.all.Nodup
  new : ∀ x ∈ drawn.all, x ∉ outer
  names : drawn.names.map (·.1) = declaredNames fn.params fn.body
  labels : drawn.labels.map (·.1) = declaredLabels fn.body
  label : drawn.label.isSome = Block.needsLabel fn.body

theorem fresh_draw (fn : FunctionLit) (scope : Nat) (ctx : Context) :
    Fresh fn ctx.names.reserved (Block.draw fn scope ctx) where
  nodup := (Block.drew_draw fn scope ctx).nodup
  new := (Block.drew_draw fn scope ctx).fresh
  names := Block.map_fst_names_draw fn scope ctx
  labels := Block.map_fst_labels_draw fn scope ctx
  label := Block.isSome_label_draw fn scope ctx

namespace Fresh

variable {fn : FunctionLit} {outer : List String} {drawn : Block.Drawn}

/-- The new names fall into the result variable, the label of the block, and the
names and labels of the copied body. -/
theorem parts (h : Fresh fn outer drawn) :
    (drawn.names.map (·.2)).Nodup ∧ (drawn.labels.map (·.2)).Nodup ∧
      (∀ x ∈ [drawn.result] ++ drawn.label.toList,
        x ∉ drawn.names.map (·.2) ∧ x ∉ drawn.labels.map (·.2)) := by
  have hnodup := h.nodup
  rw [Block.Drawn.all, List.nodup_append, List.nodup_append] at hnodup
  obtain ⟨⟨-, hnames, hleft⟩, hlabels, hright⟩ := hnodup
  refine ⟨hnames, hlabels, fun x hx => ⟨fun hmem => hleft x hx x hmem rfl, fun hmem => ?_⟩⟩
  exact hright x (List.mem_append_left _ hx) x hmem rfl

theorem result_notMem_outer (h : Fresh fn outer drawn) : drawn.result ∉ outer :=
  h.new _ (List.mem_append_left _ (List.mem_append_left _
    (List.mem_append_left _ (List.mem_singleton_self _))))

theorem apply_injective (h : Fresh fn outer drawn) {x y : String}
    (hx : x ∈ declaredNames fn.params fn.body) (hy : y ∈ declaredNames fn.params fn.body)
    (heq : drawn.names.apply x = drawn.names.apply y) : x = y := by
  rw [← h.names] at hx hy
  exact Renaming.apply_injective h.parts.1 hx hy heq

theorem apply_notMem_outer (h : Fresh fn outer drawn) {x : String}
    (hx : x ∈ declaredNames fn.params fn.body) : drawn.names.apply x ∉ outer := by
  rw [← h.names] at hx
  exact h.new _ (List.mem_append_left _ (List.mem_append_right _ (Renaming.apply_mem hx)))

/-- The copy of the body that is put into the block. -/
def copying (h : Fresh fn outer drawn) (callee caller : View L) : Copying L where
  callee := callee
  caller := caller
  names := drawn.names
  labels := drawn.labels
  declared := declaredNames fn.params fn.body
  marks := declaredLabels fn.body
  outer := outer
  injective x hx y hy := h.apply_injective hx hy
  fresh x hx := h.apply_notMem_outer hx
  kept x hx := by
    rw [← h.names] at hx
    exact Renaming.apply_of_notMem hx
  distinct x hx y hy heq := by
    rw [← h.labels] at hx hy
    exact Renaming.apply_injective h.parts.2.1 hx hy heq

end Fresh

/-- How the returns of the block are lowered. -/
def loweringOf (drawn : Block.Drawn) : Lowering :=
  ⟨drawn.result, drawn.label.getD drawn.result, drawn.label.isSome⟩

theorem label?_loweringOf (drawn : Block.Drawn) : (loweringOf drawn).label? = drawn.label := by
  unfold loweringOf Lowering.label?
  cases drawn.label <;> rfl

theorem label_loweringOf_mem (drawn : Block.Drawn) :
    (loweringOf drawn).label ∈ [drawn.result] ++ drawn.label.toList := by
  unfold loweringOf
  cases drawn.label <;> simp

section Sparing

/-- A mark that does not get into the way of lowered returns. -/
def Lowering.Ignores (c : Lowering) : Mark → Prop
  | .name x => x ≠ c.result
  | .label label | .target label => label ≠ c.label
  | .returns => c.jumps = true

theorem Lowering.spares_of_ignores {c : Lowering} {node : Node}
    (h : ∀ mark ∈ node.marks, c.Ignores mark) : c.Spares node := by
  unfold Lowering.Spares
  split
  · exact h (.name _) (List.mem_singleton_self _)
  · exact h (.name _) (List.mem_singleton_self _)
  · exact h (.label _) (List.mem_singleton_self _)
  · exact h (.target _) (List.mem_singleton_self _)
  · exact h .returns (List.mem_singleton_self _)
  · trivial

variable {fn : FunctionLit} {outer : List String} {drawn : Block.Drawn}

/-- A mark in use before the names were drawn. -/
def InUse (outer : List String) : Mark → Prop
  | .name x | .label x | .target x => x ∈ outer
  | .returns => True

/-- A renamed mark has nothing to do with the result variable and the label of the
block. -/
theorem Fresh.ignores (h : Fresh fn outer drawn) {old mark : Mark}
    (hrenames : Mark.Renames drawn.names drawn.labels old mark) (hold : InUse outer old)
    (hreturns : old = .returns → drawn.label.isSome = true) :
    (loweringOf drawn).Ignores mark := by
  have hall : ∀ x ∈ [drawn.result] ++ drawn.label.toList, x ∉ outer := fun x hx =>
    h.new x (List.mem_append_left _ (List.mem_append_left _ hx))
  have hlabel := label_loweringOf_mem drawn
  have hresult : (loweringOf drawn).result ∈ [drawn.result] ++ drawn.label.toList :=
    List.mem_append_left _ (List.mem_singleton_self _)
  cases hrenames with
  | kept =>
    cases old with
    | name x => exact fun heq => hall _ hresult (heq ▸ hold)
    | label l | target l => exact fun heq => hall _ hlabel (heq ▸ hold)
    | returns => exact hreturns rfl
  | name hmem =>
    exact fun heq => (h.parts.2.2 _ hresult).1 (List.mem_map.mpr ⟨_, hmem, heq⟩)
  | label hmem | target hmem =>
    exact fun heq => (h.parts.2.2 _ hlabel).2 (List.mem_map.mpr ⟨_, hmem, heq⟩)

/-- Statements of the body, copied and rebound in any way, spare the result
variable and the label of the block. -/
theorem Fresh.spares (h : Fresh fn outer drawn) {part : List Stmt} {next : IdCounter}
    {hoisted inPlace : List String}
    (hpart : ∀ mark ∈ marksOf (Stmt.nodesAll .ownLayer part), InUse outer mark)
    (hreturns : .returns ∈ marksOf (Stmt.nodesAll .ownLayer part) → drawn.label.isSome = true) :
    ∀ node ∈ Stmt.nodesAll .ownLayer (Stmt.demoteAll hoisted
      ((Stmt.renameAll drawn.names drawn.labels part next).1.map (·.promote inPlace))),
      (loweringOf drawn).Spares node := by
  intro node hnode
  refine Lowering.spares_of_ignores fun mark hmark => ?_
  have hrebound := marks_rebind .ownLayer hoisted inPlace _
    (List.mem_flatMap.mpr ⟨node, hnode, hmark⟩)
  obtain ⟨old, hold, hrenames⟩ :=
    (Stmt.traced_renameAll .ownLayer drawn.names drawn.labels part next).marks mark hrebound
  exact h.ignores hrenames (hpart old hold) fun heq => hreturns (heq ▸ hold)

theorem Fresh.sparesExpr (h : Fresh fn outer drawn) {e : Expr} {next : IdCounter}
    (he : ∀ mark ∈ marksOf (e.nodes .ownLayer), InUse outer mark) :
    ∀ node ∈ (e.rename drawn.names next).1.nodes .ownLayer, (loweringOf drawn).Spares node := by
  intro node hnode
  obtain ⟨old, hold, htraces⟩ :=
    Expr.traced_rename .ownLayer drawn.names drawn.labels e next node hnode
  refine Lowering.spares_of_ignores fun mark hmark => ?_
  obtain ⟨oldMark, holdMark, hrenames⟩ := htraces mark hmark
  refine h.ignores hrenames (he _ (List.mem_flatMap.mpr ⟨old, hold, holdMark⟩)) ?_
  rintro rfl
  obtain ⟨name, hname⟩ := Expr.exists_name_of_mem_marksOf
    (List.mem_flatMap.mpr ⟨old, hold, holdMark⟩)
  cases hname

end Sparing

section Lowered

variable {fn : FunctionLit} {outer : List String} {drawn : Block.Drawn}

theorem endsWithReturn_eq_true {body : List Stmt} (h : Block.endsWithReturn body = true) :
    ∃ init value, body = init ++ [Stmt.ret value] := by
  unfold Block.endsWithReturn at h
  split at h
  · next value hlast =>
    obtain ⟨init, hbody⟩ := List.getLast?_eq_some_iff.mp hlast
    exact ⟨init, value, hbody⟩
  · cases h

theorem demoteAll_append (hoisted : List String) (first second : List Stmt) :
    Stmt.demoteAll hoisted (first ++ second) =
      Stmt.demoteAll hoisted first ++ Stmt.demoteAll hoisted second := by
  induction first with
  | nil => rfl
  | cons s rest ih => rw [List.cons_append, Stmt.demoteAll, ih, Stmt.demoteAll, List.append_assoc]

/-- A return at the end stays at the end when the body is copied and rebound. -/
theorem rebound_concat {init : List Stmt} {value : Option Expr}
    (h : fn.body = init ++ [Stmt.ret value]) (drawn : Block.Drawn) :
    ∃ hoisted inPlace next, (rebind (drawn.copy fn).1).body =
      Stmt.demoteAll hoisted ((Stmt.renameAll drawn.names drawn.labels init
        drawn.ctx.nextNodeId).1.map (·.promote inPlace)) ++
      [.ret (value.map fun e => (e.rename drawn.names next).1)] := by
  have hconcat (hoisted inPlace : List String) :
      Stmt.demoteAll hoisted ((drawn.copy fn).1.map (·.promote inPlace)) =
        Stmt.demoteAll hoisted ((Stmt.renameAll drawn.names drawn.labels init
          drawn.ctx.nextNodeId).1.map (·.promote inPlace)) ++
        [.ret (value.map fun e => (e.rename drawn.names
          (Stmt.renameAll drawn.names drawn.labels init drawn.ctx.nextNodeId).2).1)] := by
    simp only [Block.Drawn.copy, h, Stmt.renameAll_append, List.map_append, demoteAll_append]
    congr 1
    cases value <;> rfl
  exact ⟨_, _, _, hconcat _ _⟩

theorem returns_label (h : Fresh fn outer drawn)
    (hreturns : (if Block.endsWithReturn fn.body then 1 else 0) < returnCount fn.body) :
    drawn.label.isSome = true := by
  rw [h.label, Block.needsLabel, decide_eq_true hreturns]

/-- The rebound copy of the body, and the same with its returns lowered. -/
theorem execAll_lowered (h : Fresh fn outer drawn)
    (huse : ∀ mark ∈ marksOf (Stmt.nodesAll .ownLayer fn.body), InUse outer mark)
    (view : View L) (rounds : Nat) :
    Sim ((loweringOf drawn).Holding L.undefined) (loweringOf drawn).Delivered
      (execAll view rounds [] (rebind (drawn.copy fn).1).body)
      (execAll view rounds drawn.label.toList (Block.lower drawn.result drawn.label
        (Block.endsWithReturn fn.body) (rebind (drawn.copy fn).1).body)) := by
  have hlabels : ∀ l ∈ drawn.label.toList, l = (loweringOf drawn).label := by
    intro l hl
    unfold loweringOf
    cases hlabel : drawn.label with
    | none => rw [hlabel] at hl; cases hl
    | some label => rw [hlabel] at hl; exact List.mem_singleton.mp hl
  rw [← label?_loweringOf drawn, show drawn.result = (loweringOf drawn).result from rfl]
  cases hends : Block.endsWithReturn fn.body with
  | false =>
    refine Lowering.execAll_lowered view rounds ?_ ?_
    · rwa [label?_loweringOf]
    · refine h.spares huse fun hmem => returns_label h ?_
      rw [hends, if_neg nofun]
      exact Nat.pos_of_ne_zero fun hzero => returns_notMem_marksOf hzero hmem
  | true =>
    obtain ⟨init, value, hbody⟩ := endsWithReturn_eq_true hends
    obtain ⟨hoisted, inPlace, next, hrebound⟩ := rebound_concat hbody drawn
    have hmarks : marksOf (Stmt.nodesAll .ownLayer fn.body) =
        marksOf (Stmt.nodesAll .ownLayer init) ++ marksOf
          (Stmt.nodesAll .ownLayer [.ret value]) := by
      rw [hbody, Stmt.nodesAll_append, marksOf_append]
    rw [hmarks, List.forall_mem_append] at huse
    rw [hrebound]
    refine Lowering.execAll_lowered_trailing view rounds (by rwa [label?_loweringOf]) ?_ ?_
    · refine h.spares huse.1 fun hmem => returns_label h ?_
      rw [hends, if_pos rfl, hbody, returnCount_concat]
      have hpos := Nat.pos_of_ne_zero fun hzero => returns_notMem_marksOf hzero hmem
      omega
    · intro e he
      obtain ⟨e, rfl, rfl⟩ := Option.map_eq_some_iff.mp he
      refine h.sparesExpr fun mark hmark => huse.2 mark ?_
      rw [Stmt.nodesAll, Stmt.nodesAll, Stmt.nodes, List.append_nil]
      exact List.mem_append_right [Mark.returns] hmark

end Lowered

end StaticInliner.Meaning
