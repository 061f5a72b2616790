import StaticInliner.Proofs.Interiors

/-!
Renaming as alpha-conversion. The names that a function declares are replaced by names that
do not occur in it, and its labels by labels that it neither declares nor jumps to. Then the
function has the same free variables as before, the literals in its body bind what they bound
before, and renaming backwards gives the same function, apart from the ids of the literals.
-/
namespace StaticInliner

section Ids

mutual

/-- The expression with all ids of function literals set to zero. -/
@[simp] def Expr.unnumbered : Expr → Expr
  | .undefined => .undefined
  | .null => .null
  | .bool value => .bool value
  | .number value => .number value
  | .string value => .string value
  | .ident name => .ident name
  | .this => .this
  | .member object property => .member object.unnumbered property
  | .index object key => .index object.unnumbered key.unnumbered
  | .call callee args => .call callee.unnumbered (Expr.unnumberedAll args)
  | .new callee args => .new callee.unnumbered (Expr.unnumberedAll args)
  | .assign target op value => .assign target.unnumbered op value.unnumbered
  | .binary op left right => .binary op left.unnumbered right.unnumbered
  | .logical op left right => .logical op left.unnumbered right.unnumbered
  | .unary op operand => .unary op operand.unnumbered
  | .conditional condition thenExpr elseExpr =>
    .conditional condition.unnumbered thenExpr.unnumbered elseExpr.unnumbered
  | .sequence items => .sequence (Expr.unnumberedAll items)
  | .array items => .array (Expr.unnumberedAll items)
  | .function ⟨_, name, params, body⟩ => .function ⟨0, name, params, Stmt.unnumberedAll body⟩

@[simp] def Expr.unnumberedAll : List Expr → List Expr
  | [] => []
  | e :: rest => e.unnumbered :: Expr.unnumberedAll rest

@[simp] def Stmt.unnumbered : Stmt → Stmt
  | .var kind name none => .var kind name none
  | .var kind name (some init) => .var kind name (some init.unnumbered)
  | .function ⟨_, name, params, body⟩ => .function ⟨0, name, params, Stmt.unnumberedAll body⟩
  | .expr value => .expr value.unnumbered
  | .ret none => .ret none
  | .ret (some value) => .ret (some value.unnumbered)
  | .ifElse condition thenBranch none =>
    .ifElse condition.unnumbered (Stmt.unnumberedAll thenBranch) none
  | .ifElse condition thenBranch (some elseBranch) =>
    .ifElse condition.unnumbered (Stmt.unnumberedAll thenBranch)
      (some (Stmt.unnumberedAll elseBranch))
  | .whileDo condition body => .whileDo condition.unnumbered (Stmt.unnumberedAll body)
  | .block body => .block (Stmt.unnumberedAll body)
  | .labeled label body => .labeled label (Stmt.unnumberedAll body)
  | .breakTo label => .breakTo label
  | .continueTo label => .continueTo label
  | .throw value => .throw value.unnumbered

@[simp] def Stmt.unnumberedAll : List Stmt → List Stmt
  | [] => []
  | s :: rest => s.unnumbered :: Stmt.unnumberedAll rest

end

theorem Expr.unnumberedAll_eq_map (es : List Expr) :
    Expr.unnumberedAll es = es.map Expr.unnumbered := by
  induction es with
  | nil => rfl
  | cons e rest ih => rw [Expr.unnumberedAll, ih, List.map_cons]

theorem Expr.unnumbered_operation {e : Expr} (h : e.ownsLayer = false) :
    e.unnumbered = e.withOperands (Expr.unnumberedAll e.children) := by
  cases e with
  | function _ => cases h
  | _ => simp [children, withOperands]

end Ids

section Spelled

def Stmt.spelled (s : Stmt) : List String := StaticInliner.spelled (s.nodes .nested)

theorem Stmt.spelledAll_eq_flatMap (stmts : List Stmt) :
    Stmt.spelledAll stmts = stmts.flatMap Stmt.spelled := by
  rw [Stmt.spelledAll, Stmt.nodesAll_eq_flatMap, spelled_flatMap]
  rfl

theorem Expr.spelled_subset {e operand : Expr} (h : operand ∈ e.children) :
    operand.spelled ⊆ e.spelled := by
  rw [Expr.spelled_children (List.ne_nil_of_mem h)]
  exact fun name hname => List.mem_flatMap.mpr ⟨operand, h, hname⟩

theorem Expr.spelled_function (fn : FunctionLit) :
    (Expr.function fn).spelled = fn.name.toList ++ fn.params ++ Stmt.spelledAll fn.body := by
  rw [Expr.spelled, Expr.nodes_function, spelled_cons]
  rfl

theorem Stmt.spelled_function (fn : FunctionLit) :
    (Stmt.function fn).spelled = fn.name.toList ++ fn.params ++ Stmt.spelledAll fn.body := by
  rw [Stmt.spelled, Stmt.nodes_function, spelled_cons]
  rfl

theorem Stmt.spelled_parts {s : Stmt} (h : s.function? = none) : s.spelled =
    Node.written (.stmt s) ++
      (s.head?.toList.flatMap Expr.spelled ++ s.bodies.flatMap Stmt.spelledAll) := by
  rw [Stmt.spelled, Stmt.nodes_parts .nested h, spelled_cons, spelled_append, ← Expr.spelledAll,
    Expr.spelledAll_eq_flatMap, spelled_flatMap]
  rfl

/-- What a body declares is spelled in it. -/
theorem Stmt.declarationsAll_subset (stmts : List Stmt) :
    Stmt.declarationsAll stmts ⊆ Stmt.spelledAll stmts := by
  have hnode (node : Node) : node.declared ⊆ node.written := by
    cases node with
    | expr _ => exact List.nil_subset _
    | stmt s =>
      cases s with
      | var _ _ _ => exact List.Subset.refl _
      | function _ => exact List.subset_append_left _ _
      | _ => exact List.nil_subset _
  rw [Stmt.declarationsAll_eq]
  intro name hname
  obtain ⟨node, hmem, hname⟩ := List.mem_flatMap.mp hname
  exact List.mem_flatMap.mpr ⟨node, Stmt.nodesAll_subset stmts hmem, hnode node hname⟩

theorem declaredNames_subset (params : List String) (body : List Stmt) :
    declaredNames params body ⊆ params ++ Stmt.spelledAll body := by
  intro name hname
  rw [List.mem_append]
  exact (mem_declaredNames.mp hname).imp_right fun hname => Stmt.declarationsAll_subset body hname

theorem byParts_freeNames_subset : ByParts (fun e => ∀ bound, e.freeNames bound ⊆ e.spelled)
    (fun s => ∀ bound, s.freeNames bound ⊆ s.spelled)
    (fun list => ∀ bound, Stmt.freeNamesAll bound list ⊆ Stmt.spelledAll list) := by
  refine ⟨fun e hlayer ih bound => ?_, fun fn ih bound => ?_, fun fn ih bound => ?_,
    fun s hfn hhead hbodies bound => ?_, fun list ih bound => ?_⟩
  · rcases e.ident_or with ⟨name, rfl⟩ | hident
    · rw [Expr.freeNames]
      split
      · exact List.nil_subset _
      · exact List.Subset.refl _
    · rw [Expr.freeNames_operation hlayer hident]
      intro name hname
      obtain ⟨operand, hoperand, hname⟩ := List.mem_flatMap.mp hname
      exact Expr.spelled_subset hoperand (ih operand hoperand bound hname)
  · rw [Expr.freeNames_function, Expr.spelled_function]
    exact List.subset_append_of_subset_right _ (ih _)
  · rw [Stmt.freeNames_function, Stmt.spelled_function]
    exact List.subset_append_of_subset_right _ (ih _)
  · rw [Stmt.freeNames_parts hfn, Stmt.spelled_parts hfn]
    refine List.subset_append_of_subset_right _ fun name hname => ?_
    rw [List.mem_append, List.mem_flatMap, List.mem_flatMap] at hname ⊢
    refine hname.imp ?_ ?_
    · rintro ⟨e, he, hname⟩
      exact ⟨e, he, hhead e (Option.mem_toList.mp he) bound hname⟩
    · rintro ⟨body, hbody, hname⟩
      exact ⟨body, hbody, hbodies body hbody bound hname⟩
  · rw [Stmt.freeNamesAll_eq_flatMap, Stmt.spelledAll_eq_flatMap]
    intro name hname
    obtain ⟨s, hs, hname⟩ := List.mem_flatMap.mp hname
    exact List.mem_flatMap.mpr ⟨s, hs, ih s hs bound hname⟩

/-- What is free in a body is spelled in it. -/
theorem Stmt.freeNamesAll_subset (bound : List String) (stmts : List Stmt) :
    Stmt.freeNamesAll bound stmts ⊆ Stmt.spelledAll stmts :=
  byParts_freeNames_subset.stmts stmts bound

end Spelled

section Backwards

/-- The renaming backwards. -/
def Renaming.inverse (names : Renaming) : Renaming := names.map Prod.swap

/-- A renaming and another that undoes it on some names. Those that are renamed at all become
names outside the given ones. -/
structure Renaming.Undoes (back names : Renaming) (spelled : List String) : Prop where
  apply : ∀ name ∈ spelled, back.apply (names.apply name) = name
  outside : ∀ name ∈ spelled, names.apply name = name ∨ names.apply name ∉ spelled

namespace Renaming.Undoes

variable {back names : Renaming} {spelled : List String}

theorem map_apply (h : back.Undoes names spelled) {list : List String} (hsub : list ⊆ spelled) :
    (list.map names.apply).map back.apply = list := by
  rw [List.map_map]
  exact (List.map_congr_left fun name hname => h.apply name (hsub hname)).trans (List.map_id _)

/-- Leaving out the same names in both directions. -/
theorem without (h : back.Undoes names spelled) {shadowed : List String}
    (hsub : shadowed ⊆ spelled) :
    (back.without shadowed).Undoes (names.without shadowed) spelled where
  apply name hname := by
    rw [apply_without, apply_without]
    by_cases hshadowed : name ∈ shadowed
    · rw [if_pos hshadowed, if_pos hshadowed]
    · -- what the name becomes is not left out on the way back
      have hnew : names.apply name ∉ shadowed := by
        rcases h.outside name hname with heq | hout
        · rwa [heq]
        · exact fun hmem => hout (hsub hmem)
      rw [if_neg hshadowed, if_neg hnew, h.apply name hname]
  outside name hname := by
    rw [apply_without]
    split
    · exact .inl rfl
    · exact h.outside name hname

end Renaming.Undoes

/-- New names are given to all names of a list. They are different, and are none of the names
that are to be avoided. -/
structure Renaming.Refreshes (names : Renaming) (declared avoided : List String) : Prop where
  keys : (names.map (·.1)).Perm declared
  distinct : (names.map (·.2)).Nodup
  fresh : ∀ name ∈ names.map (·.2), name ∉ avoided

theorem Renaming.apply_inverse {names : Renaming} (hdistinct : (names.map (·.2)).Nodup)
    {name : String} (h : name ∈ names.map (·.1)) :
    names.inverse.apply (names.apply name) = name := by
  have hkeys : names.inverse.map (·.1) = names.map (·.2) := List.map_map
  have hvalue : names.apply name ∈ names.inverse.map (·.1) := hkeys ▸ apply_mem h
  obtain ⟨⟨old, new⟩, hentry, heq⟩ := List.mem_map.mp (mem_of_mem hvalue)
  obtain ⟨hnew, hold⟩ := Prod.mk.inj heq
  have hpair := List.inj_on_of_nodup_map hdistinct hentry (mem_of_mem h) hnew
  exact hold.symm.trans (congrArg Prod.fst hpair)

theorem Renaming.Refreshes.undoes {names : Renaming} {declared avoided : List String}
    (h : names.Refreshes declared avoided) : names.inverse.Undoes names avoided := by
  have hkeys : names.inverse.map (·.1) = names.map (·.2) := List.map_map
  refine ⟨fun name hname => ?_, fun name _ => ?_⟩
  · by_cases hmem : name ∈ names.map (·.1)
    · exact apply_inverse h.distinct hmem
    · rw [apply_of_notMem hmem]
      exact apply_of_notMem fun hvalue => h.fresh name (hkeys ▸ hvalue) hname
  · by_cases hmem : name ∈ names.map (·.1)
    · exact .inr (h.fresh _ (apply_mem hmem))
    · exact .inl (apply_of_notMem hmem)

theorem Expr.unnumberedAll_undone {names back : Renaming} {es : List Expr}
    (h : ∀ e ∈ es, ∀ next next',
      ((e.rename names next).1.rename back next').1.unnumbered = e.unnumbered)
    (next next' : IdCounter) :
    Expr.unnumberedAll (Expr.renameAll back (Expr.renameAll names es next).1 next').1 =
      Expr.unnumberedAll es := by
  induction es generalizing next next' with
  | nil => rfl
  | cons e rest ih =>
    obtain ⟨he, hrest⟩ := List.forall_mem_cons.mp h
    simp only [Expr.renameAll, Expr.unnumberedAll, he, ih hrest]

theorem Stmt.unnumberedAll_undone {names labels back backLabels : Renaming} {stmts : List Stmt}
    (h : ∀ s ∈ stmts, ∀ next next',
      ((s.rename names labels next).1.rename back backLabels next').1.unnumbered = s.unnumbered)
    (next next' : IdCounter) :
    Stmt.unnumberedAll
        (Stmt.renameAll back backLabels (Stmt.renameAll names labels stmts next).1 next').1 =
      Stmt.unnumberedAll stmts := by
  induction stmts generalizing next next' with
  | nil => rfl
  | cons s rest ih =>
    obtain ⟨hs, hrest⟩ := List.forall_mem_cons.mp h
    simp only [Stmt.renameAll, Stmt.unnumberedAll, hs, ih hrest]

/-- What renaming back and forth has to show for a statement. -/
def Stmt.Undone (s : Stmt) : Prop :=
  ∀ (names back labels backLabels : Renaming) (spelled : List String) (next next' : IdCounter),
    s.spelled ⊆ spelled → back.Undoes names spelled →
    (∀ label ∈ (s.nodes .ownLayer).flatMap Node.labels,
      backLabels.apply (labels.apply label) = label) →
    ((s.rename names labels next).1.rename back backLabels next').1.unnumbered = s.unnumbered

def Expr.Undone (e : Expr) : Prop :=
  ∀ (names back : Renaming) (spelled : List String) (next next' : IdCounter), e.spelled ⊆ spelled →
    back.Undoes names spelled →
      ((e.rename names next).1.rename back next').1.unnumbered = e.unnumbered

theorem Stmt.undoneAll {stmts : List Stmt} (h : ∀ s ∈ stmts, s.Undone)
    {names back labels backLabels : Renaming} {spelled : List String}
    (hspelled : Stmt.spelledAll stmts ⊆ spelled) (hnames : back.Undoes names spelled)
    (hlabels : ∀ label ∈ layerLabels stmts, backLabels.apply (labels.apply label) = label)
    (next next' : IdCounter) : Stmt.unnumberedAll
        (Stmt.renameAll back backLabels (Stmt.renameAll names labels stmts next).1 next').1 =
      Stmt.unnumberedAll stmts := by
  refine Stmt.unnumberedAll_undone (fun s hs next next' =>
    h s hs _ _ _ _ spelled next next' ?_ hnames ?_) _ _
  · rw [Stmt.spelledAll_eq_flatMap] at hspelled
    exact fun name hname => hspelled (List.mem_flatMap.mpr ⟨s, hs, hname⟩)
  · intro label hlabel
    rw [layerLabels, Stmt.nodesAll_eq_flatMap, List.flatMap_assoc] at hlabels
    exact hlabels label (List.mem_flatMap.mpr ⟨s, hs, hlabel⟩)

/-- The body of a literal, in which its own names are left alone both ways. -/
theorem Stmt.undone_inner {shadowed spelled : List String} {body : List Stmt}
    {names back : Renaming} (h : ∀ s ∈ body, s.Undone) (hspelled : Stmt.spelledAll body ⊆ spelled)
    (hshadowed : shadowed ⊆ spelled) (hnames : back.Undoes names spelled) (next next' : IdCounter) :
    Stmt.unnumberedAll (Stmt.renameAll (back.without shadowed) []
        (Stmt.renameAll (names.without shadowed) [] body next).1 next').1 =
      Stmt.unnumberedAll body :=
  Stmt.undoneAll h hspelled (hnames.without hshadowed) (fun _ _ => rfl) next next'

/-- A statement that is no function declaration, if the renaming is undone in its parts. -/
theorem Stmt.unnumbered_undone {s : Stmt} (h : s.function? = none)
    {names back labels backLabels : Renaming}
    (hwritten : ∀ name ∈ Node.written (.stmt s), back.apply (names.apply name) = name)
    (hhead : ∀ e, s.head? = some e → ∀ next next',
      ((e.rename names next).1.rename back next').1.unnumbered = e.unnumbered)
    (hbodies : ∀ body ∈ s.bodies, ∀ next next', Stmt.unnumberedAll
        (Stmt.renameAll back backLabels (Stmt.renameAll names labels body next).1 next').1 =
      Stmt.unnumberedAll body)
    (hlabels : ∀ label ∈ Node.labels (.stmt s), backLabels.apply (labels.apply label) = label)
    (next next' : IdCounter) :
    ((s.rename names labels next).1.rename back backLabels next').1.unnumbered = s.unnumbered := by
  cases s with
  | function _ => cases h
  | var _ name init =>
    have hname := hwritten name List.mem_cons_self
    cases init with
    | none => simp only [Stmt.rename, Stmt.unnumbered, hname]
    | some init => simp only [Stmt.rename, Stmt.unnumbered, hname, hhead init rfl]
  | ret value =>
    cases value with
    | none => rfl
    | some value => simp only [Stmt.rename, Stmt.unnumbered, hhead value rfl]
  | expr value | throw value => simp only [Stmt.rename, Stmt.unnumbered, hhead value rfl]
  | ifElse condition thenBranch elseBranch =>
    have hthen := hbodies thenBranch
    cases elseBranch with
    | none =>
      simp only [Stmt.rename, Stmt.unnumbered, hhead condition rfl, hthen List.mem_cons_self]
    | some elseBranch =>
      have helse := hbodies elseBranch (List.mem_cons_of_mem _ List.mem_cons_self)
      simp only [Stmt.rename, Stmt.unnumbered, hhead condition rfl, hthen List.mem_cons_self, helse]
  | whileDo condition body =>
    simp only [Stmt.rename, Stmt.unnumbered, hhead condition rfl, hbodies body List.mem_cons_self]
  | block body => simp only [Stmt.rename, Stmt.unnumbered, hbodies body List.mem_cons_self]
  | labeled label body =>
    simp only [Stmt.rename, Stmt.unnumbered, hbodies body List.mem_cons_self,
      hlabels label List.mem_cons_self]
  | breakTo target | continueTo target =>
    cases target with
    | none => rfl
    | some label =>
      simp only [Stmt.rename, Stmt.unnumbered, Option.map_some, hlabels label List.mem_cons_self]

theorem byParts_undone : ByParts Expr.Undone Stmt.Undone fun list => ∀ s ∈ list, s.Undone := by
  refine ⟨fun e hlayer ih names back spelled next next' hspelled hnames => ?_,
    fun fn ih names back spelled next next' hspelled hnames => ?_,
    fun fn ih names back labels backLabels spelled next next' hspelled hnames hlabels => ?_,
    fun s hfn hhead hbodies names back labels backLabels spelled next next' hspelled hnames
      hlabels => ?_,
    fun _ ih => ih⟩
  · rcases e.ident_or with ⟨name, rfl⟩ | hname
    · exact congrArg Expr.ident (hnames.apply name (hspelled List.mem_cons_self))
    · have hlength := (Expr.forall₂_renameAll names e.children next).length_eq.symm
      have hlayer' :=
        (e.ownsLayer_withOperands (Expr.renameAll names e.children next).1).trans hlayer
      have hlength' := (Expr.forall₂_renameAll back (Expr.renameAll names e.children next).1
        next').length_eq.symm.trans hlength
      rw [Expr.rename_operation names hlayer hname, Expr.rename_operation back hlayer'
        (e.withOperands_ne_ident hname _), Expr.children_withOperands hlength,
        Expr.withOperands_withOperands hlength hlength', Expr.unnumbered_operation hlayer,
        Expr.unnumbered_operation ((e.ownsLayer_withOperands _).trans hlayer),
        Expr.children_withOperands hlength',
        Expr.unnumberedAll_undone fun operand hoperand next next' =>
          ih operand hoperand names back spelled next next'
            (List.Subset.trans (Expr.spelled_subset hoperand) hspelled) hnames]
      exact Expr.withOperands_withOperands hlength'
        (by rw [Expr.unnumberedAll_eq_map, List.length_map])
  · obtain ⟨id, name, params, body⟩ := fn
    rw [Expr.spelled_function, List.append_subset, List.append_subset] at hspelled
    obtain ⟨⟨hname, hparams⟩, hbody⟩ := hspelled
    have hdeclared : declaredNames params body ⊆ spelled :=
      List.Subset.trans (declaredNames_subset params body) (List.append_subset.mpr ⟨hparams, hbody⟩)
    simp only [Expr.rename, Expr.unnumbered]
    rw [declaredNames_rename (List.subset_append_left _ _), Stmt.undone_inner ih hbody
      (List.append_subset.mpr ⟨hdeclared, hname⟩) hnames]
  · obtain ⟨id, name, params, body⟩ := fn
    rw [Stmt.spelled_function, List.append_subset, List.append_subset] at hspelled
    obtain ⟨⟨hname, hparams⟩, hbody⟩ := hspelled
    have hdeclared : declaredNames params body ⊆ spelled :=
      List.Subset.trans (declaredNames_subset params body) (List.append_subset.mpr ⟨hparams, hbody⟩)
    have hname' : (name.map names.apply).map back.apply = name := by
      cases name with
      | none => rfl
      | some name => exact congrArg some (hnames.apply name (hname List.mem_cons_self))
    simp only [Stmt.rename, Stmt.unnumbered]
    rw [declaredNames_rename (List.Subset.refl _), hname',
      Stmt.undone_inner ih hbody hdeclared hnames]
  · rw [Stmt.spelled_parts hfn, List.append_subset, List.append_subset] at hspelled
    obtain ⟨hwritten, hheads, hlists⟩ := hspelled
    rw [Stmt.nodes_parts .ownLayer hfn, List.flatMap_cons, List.flatMap_append] at hlabels
    have hexpr (e : Expr) (he : s.head? = some e) (next next' : IdCounter) :
        ((e.rename names next).1.rename back next').1.unnumbered = e.unnumbered := by
      refine hhead e he names back spelled next next' (fun name hname => hheads ?_) hnames
      exact List.mem_flatMap.mpr ⟨e, Option.mem_toList.mpr he, hname⟩
    have hbody (body : List Stmt) (hmem : body ∈ s.bodies) (next next' : IdCounter) :
        Stmt.unnumberedAll
            (Stmt.renameAll back backLabels (Stmt.renameAll names labels body next).1 next').1 =
          Stmt.unnumberedAll body := by
      refine Stmt.undoneAll (hbodies body hmem) (fun name hname => hlists ?_) hnames
        (fun label hlabel => hlabels label ?_) next next'
      · exact List.mem_flatMap.mpr ⟨body, hmem, hname⟩
      · rw [List.flatMap_assoc]
        exact List.mem_append_right _ (List.mem_append_right _ (List.mem_flatMap.mpr
          ⟨body, hmem, hlabel⟩))
    exact Stmt.unnumbered_undone hfn (fun name hname => hnames.apply name (hwritten hname))
      hexpr hbody
      (fun label hlabel => hlabels label (List.mem_append_left _ hlabel)) next next'

end Backwards

section Functions

/-- The literal with new names and labels, and the literals in its body numbered from `next`. -/
def FunctionLit.rename (fn : FunctionLit) (names labels : Renaming) (next : IdCounter) :
    FunctionLit :=
  ⟨fn.id, fn.name, fn.params.map names.apply, (Stmt.renameAll names labels fn.body next).1⟩

def FunctionLit.unnumbered (fn : FunctionLit) : FunctionLit :=
  ⟨0, fn.name, fn.params, Stmt.unnumberedAll fn.body⟩

namespace FunctionLit

variable {fn : FunctionLit} {names labels : Renaming}

theorem mem_declaredNames_rename {next : IdCounter} {name : String} :
    name ∈ declaredNames (fn.rename names labels next).params (fn.rename names labels next).body ↔
      ∃ old ∈ declaredNames fn.params fn.body, names.apply old = name := by
  simp only [rename, mem_declaredNames, Stmt.declarationsAll_renameAll, List.mem_map, or_and_right,
    exists_or]

/-- What is free in a function is free after its names have been replaced, and nothing else. -/
theorem freeVariables_rename
    (h : names.Refreshes (declaredNames fn.params fn.body) (Expr.function fn).spelled)
    (next : IdCounter) :
    (fn.rename names labels next).freeVariables = fn.freeVariables := by
  have hfree := Stmt.renamesFree_renameAll names labels fn.body next
  have hopen (name : String) : name ∈ (fn.rename names labels next).openNames ↔
      name ∈ fn.openNames := by
    rw [mem_openNames, mem_openNames, mem_declaredNames_rename]
    constructor
    · rintro ⟨hname, hdeclared⟩
      obtain ⟨old, hold, rfl⟩ := hfree.traced name hname
      have hkey : old ∉ declaredNames fn.params fn.body := fun hmem => hdeclared ⟨old, hmem, rfl⟩
      rw [Renaming.apply_of_notMem fun hmem => hkey (h.keys.subset hmem)]
      exact ⟨hold, hkey⟩
    · rintro ⟨hname, hdeclared⟩
      refine ⟨hfree.kept name hname fun hmem => hdeclared (h.keys.subset hmem), ?_⟩
      -- a new name is not spelled in the function
      rintro ⟨old, hold, rfl⟩
      refine h.fresh _ (Renaming.apply_mem (h.keys.symm.subset hold)) ?_
      rw [Expr.spelled_function]
      exact List.mem_append_right _ (Stmt.freeNamesAll_subset [] fn.body hname)
  refine sortedNames_congr fun name => ?_
  have hiff (fn : FunctionLit) : name ∈ (Expr.function fn).freeNames [] ↔
      name ∈ fn.openNames ∧ fn.name ≠ some name :=
    mem_sortedNames.symm.trans fn.mem_freeVariables_iff
  rw [hiff, hiff, hopen]
  rfl

/-- Renaming backwards gives the function again. -/
theorem rename_inverse
    (hnames : names.Refreshes (declaredNames fn.params fn.body) (Expr.function fn).spelled)
    (hlabels : labels.Refreshes (declaredLabels fn.body) (layerLabels fn.body))
    (next next' : IdCounter) :
    ((fn.rename names labels next).rename names.inverse labels.inverse next').unnumbered =
      fn.unnumbered := by
  have hundoes := hnames.undoes
  have hspelled : fn.params ⊆ (Expr.function fn).spelled ∧
      Stmt.spelledAll fn.body ⊆ (Expr.function fn).spelled := by
    rw [Expr.spelled_function]
    exact ⟨List.subset_append_of_subset_left _ (List.subset_append_right _ _),
      List.subset_append_right _ _⟩
  have hparams : (fn.params.map names.apply).map names.inverse.apply = fn.params :=
    hundoes.map_apply hspelled.1
  have hbody : Stmt.unnumberedAll (Stmt.renameAll names.inverse labels.inverse
      (Stmt.renameAll names labels fn.body next).1 next').1 = Stmt.unnumberedAll fn.body :=
    Stmt.undoneAll (fun s _ => byParts_undone.stmt s) hspelled.2 hundoes hlabels.undoes.apply
      next next'
  simp only [rename, unnumbered, hparams, hbody]

/-- Renaming a function is an alpha-conversion: it replaces what the function declares, keeps
the free variables and what belongs to the literals in the body, and can be undone. -/
theorem rename_alphaConversion
    (hnames : names.Refreshes (declaredNames fn.params fn.body) (Expr.function fn).spelled)
    (hlabels : labels.Refreshes (declaredLabels fn.body) (layerLabels fn.body))
    (next next' : IdCounter) :
    let renamed := fn.rename names labels next
    Stmt.declarationsAll renamed.body = (Stmt.declarationsAll fn.body).map names.apply ∧
      layerLabels renamed.body = (layerLabels fn.body).map labels.apply ∧
      renamed.freeVariables = fn.freeVariables ∧ interiorsOf renamed.body = interiorsOf fn.body ∧
      (renamed.rename names.inverse labels.inverse next').unnumbered = fn.unnumbered :=
  ⟨Stmt.declarationsAll_renameAll names labels fn.body next,
    layerLabels_renameAll names labels fn.body next, freeVariables_rename hnames next,
    interiorsOf_renameAll names labels fn.body next, rename_inverse hnames hlabels next next'⟩

/-- `function f(a) { l: while (a) { break l; } var b = function g(a) { return a + b; };
function c() { l: while (a) { break l; } return f; } return b(c); }`, where `a` and `l` mean
something else inside. -/
def nesting : FunctionLit :=
  ⟨0, some "f", ["a"],
    [.labeled "l" [.whileDo (.ident "a") [.breakTo (some "l")]],
      .var .var "b" (some (.function ⟨1, some "g", ["a"],
        [.ret (some (.binary .add (.ident "a") (.ident "b")))]⟩)),
      .function ⟨2, some "c", [],
        [.labeled "l" [.whileDo (.ident "a") [.breakTo (some "l")]], .ret (some (.ident "f"))]⟩,
      .ret (some (.call (.ident "b") [.ident "c"]))]⟩

theorem rename_alphaConversion_nesting :
    let names : Renaming := [("a", "x"), ("b", "y"), ("c", "z")]
    let labels : Renaming := [("l", "m")]
    names.Refreshes (declaredNames nesting.params nesting.body) (Expr.function nesting).spelled ∧
      labels.Refreshes (declaredLabels nesting.body) (layerLabels nesting.body) ∧
      let renamed := nesting.rename names labels ⟨3⟩
      Stmt.declarationsAll renamed.body = (Stmt.declarationsAll nesting.body).map names.apply ∧
        layerLabels renamed.body = (layerLabels nesting.body).map labels.apply ∧
        renamed.freeVariables = nesting.freeVariables ∧
        interiorsOf renamed.body = interiorsOf nesting.body ∧
        (renamed.rename names.inverse labels.inverse ⟨5⟩).unnumbered = nesting.unnumbered := by
  intro names labels
  have hnames : names.Refreshes (declaredNames nesting.params nesting.body)
      (Expr.function nesting).spelled := ⟨by decide, by decide, by decide⟩
  have hlabels : labels.Refreshes (declaredLabels nesting.body) (layerLabels nesting.body) :=
    ⟨by decide, by decide, by decide⟩
  exact ⟨hnames, hlabels, rename_alphaConversion hnames hlabels ⟨3⟩ ⟨5⟩⟩

end FunctionLit

end Functions

end StaticInliner
