import Mathlib.Data.List.Forall2
import StaticInliner.Inline.Block
import StaticInliner.Proofs.Parts

/-!
Rewriting bodies part by part. Renaming treats all operands of an expression alike, and all
bodies of a statement. Rebinding and lowering replace simple statements, wherever they stand
in the layer. So a relation between trees and what becomes of them needs to be shown for the
parts that change, and follows for whole bodies by one induction for each of the two.
-/
namespace StaticInliner

theorem flatMap_eq_of_forall₂ {α β γ : Type} {f : α → List γ} {g : β → List γ} {list : List α}
    {list' : List β} (h : List.Forall₂ (fun a b => g b = f a) list list') :
    list'.flatMap g = list.flatMap f := by
  induction h with
  | nil => rfl
  | cons hfirst _ ih => rw [List.flatMap_cons, List.flatMap_cons, hfirst, ih]

section Renaming

theorem Expr.forall₂_renameAll (names : Renaming) (es : List Expr) (next : IdCounter) :
    List.Forall₂ (fun e e' => ∃ next, e' = (e.rename names next).1) es
      (Expr.renameAll names es next).1 := by
  induction es generalizing next with
  | nil => exact .nil
  | cons e rest ih => exact .cons ⟨next, rfl⟩ (ih _)

theorem Stmt.forall₂_renameAll (names labels : Renaming) (stmts : List Stmt) (next : IdCounter) :
    List.Forall₂ (fun s s' => ∃ next, s' = (s.rename names labels next).1) stmts
      (Stmt.renameAll names labels stmts next).1 := by
  induction stmts generalizing next with
  | nil => exact .nil
  | cons s rest ih => exact .cons ⟨next, rfl⟩ (ih _)

/-- A renamed operation has renamed operands. -/
theorem Expr.rename_operation (names : Renaming) {e : Expr} (hlayer : e.ownsLayer = false)
    (hname : ∀ name, e ≠ .ident name) (next : IdCounter) :
    (e.rename names next).1 = e.withOperands (Expr.renameAll names e.children next).1 := by
  cases e with
  | ident name => exact absurd rfl (hname name)
  | function _ => cases hlayer
  | _ => rfl

/-- A renamed statement has renamed parts. -/
theorem Stmt.rename_parts (names labels : Renaming) {s : Stmt} (h : s.function? = none)
    (next : IdCounter) :
    let s' := (s.rename names labels next).1
    s'.function? = none ∧ s'.head? = s.head?.map (fun e => (e.rename names next).1) ∧
      List.Forall₂ (fun body body' => ∃ next, body' = (Stmt.renameAll names labels body next).1)
        s.bodies s'.bodies := by
  cases s with
  | function _ => cases h
  | var _ _ init => cases init <;> exact ⟨rfl, rfl, .nil⟩
  | ret value => cases value <;> exact ⟨rfl, rfl, .nil⟩
  | expr _ | throw _ | breakTo _ | continueTo _ => exact ⟨rfl, rfl, .nil⟩
  | ifElse _ _ elseBranch =>
    cases elseBranch with
    | none => exact ⟨rfl, rfl, .cons ⟨_, rfl⟩ .nil⟩
    | some _ => exact ⟨rfl, rfl, .cons ⟨_, rfl⟩ (.cons ⟨_, rfl⟩ .nil)⟩
  | whileDo _ _ | block _ | labeled _ _ => exact ⟨rfl, rfl, .cons ⟨_, rfl⟩ .nil⟩

/-- What relates trees and their copies, if it relates their parts. -/
structure Renames (E : Renaming → Expr → Expr → Prop)
    (S : Renaming → Renaming → Stmt → Stmt → Prop) :
    Prop where
  ident : ∀ names name, E names (.ident name) (.ident (names.apply name))
  operation : ∀ names {e : Expr} next, e.ownsLayer = false → (∀ name, e ≠ .ident name) →
    let operands := (Expr.renameAll names e.children next).1
    List.Forall₂ (E names) e.children operands → E names e (e.withOperands operands)
  literal : ∀ names id name params body (next : IdCounter),
    let inner := Renaming.without names (declaredNames params body ++ name.toList)
    List.Forall₂ (S inner []) body (Stmt.renameAll inner [] body next.draw.2).1 →
    E names (.function ⟨id, name, params, body⟩)
      (.function ⟨next.draw.1, name, params, (Stmt.renameAll inner [] body next.draw.2).1⟩)
  declaration : ∀ names labels id name params body (next : IdCounter),
    let inner := Renaming.without names (declaredNames params body)
    List.Forall₂ (S inner []) body (Stmt.renameAll inner [] body next.draw.2).1 →
    S names labels (.function ⟨id, name, params, body⟩)
      (.function ⟨next.draw.1, name.map names.apply, params,
        (Stmt.renameAll inner [] body next.draw.2).1⟩)
  statement : ∀ names labels {s : Stmt} next, s.function? = none →
    let s' := (s.rename names labels next).1
    s'.function? = none → List.Forall₂ (E names) s.head?.toList s'.head?.toList →
    List.Forall₂ (List.Forall₂ (S names labels)) s.bodies s'.bodies → S names labels s s'

namespace Renames

variable {E : Renaming → Expr → Expr → Prop} {S : Renaming → Renaming → Stmt → Stmt → Prop}

/-- What relates the parts relates every tree and its copy. -/
theorem byParts (h : Renames E S) : ByParts
    (fun e => ∀ names next, E names e (e.rename names next).1)
    (fun s => ∀ names labels next, S names labels s (s.rename names labels next).1)
    (fun list => ∀ names labels next,
      List.Forall₂ (S names labels) list (Stmt.renameAll names labels list next).1) := by
  refine ⟨fun e hlayer ih names next => ?_, fun fn ih names next => ?_,
    fun fn ih names labels next => ?_, fun s hfn hhead hbodies names labels next => ?_,
    fun list ih names labels next => ?_⟩
  · rcases e.ident_or with ⟨name, rfl⟩ | hname
    · exact h.ident names name
    · rw [Expr.rename_operation names hlayer hname]
      refine h.operation names next hlayer hname (((List.forall₂_and_left _ _).mpr
        ⟨ih, Expr.forall₂_renameAll names e.children next⟩).imp ?_)
      rintro operand operand' ⟨hoperand, next, rfl⟩
      exact hoperand names next
  · obtain ⟨id, name, params, body⟩ := fn
    exact h.literal names id name params body next (ih _ [] next.draw.2)
  · obtain ⟨id, name, params, body⟩ := fn
    exact h.declaration names labels id name params body next (ih _ [] next.draw.2)
  · obtain ⟨hfn', hhead', hbodies'⟩ := Stmt.rename_parts names labels hfn next
    refine h.statement names labels next hfn hfn' ?_ ?_
    · rw [hhead']
      cases hs : s.head? with
      | none => exact .nil
      | some e => exact .cons (hhead e hs names next) .nil
    · refine ((List.forall₂_and_left _ _).mpr ⟨hbodies, hbodies'⟩).imp ?_
      rintro body body' ⟨hbody, next, rfl⟩
      exact hbody names labels next
  · refine ((List.forall₂_and_left _ _).mpr
      ⟨ih, Stmt.forall₂_renameAll names labels list next⟩).imp ?_
    rintro s s' ⟨hs, next, rfl⟩
    exact hs names labels next

/-- A relation between statements and their copies relates bodies. -/
theorem stmts (h : Renames E S) (names labels : Renaming) (stmts : List Stmt) (next : IdCounter) :
    List.Forall₂ (S names labels) stmts (Stmt.renameAll names labels stmts next).1 :=
  h.byParts.stmts stmts names labels next

end Renames

section Nodes

variable {reach : Reach} {R : Renaming → Renaming → Node → Node → Prop}
    (hexpr : ∀ names labels e next, R names labels (.expr e) (.expr (e.rename names next).1))
    (hstmt : ∀ names labels s next, R names labels (.stmt s) (.stmt (s.rename names labels next).1))
    (hinner : reach = .nested → ∀ names labels shadowed node node',
      R (Renaming.without names shadowed) [] node node' → R names labels node node')
include hexpr hstmt hinner

/-- A relation of single nodes relates the nodes of trees and their copies. -/
theorem renames_nodes :
    Renames (fun names e e' => ∀ labels,
      List.Forall₂ (R names labels) (e.nodes reach) (e'.nodes reach))
      (fun names labels s s' => List.Forall₂ (R names labels) (s.nodes reach)
        (s'.nodes reach)) where
  ident names name labels := .cons (hexpr names labels (.ident name) ⟨0⟩) .nil
  operation names e next hlayer hname hoperands labels := by
    have hlength := hoperands.length_eq.symm
    rw [Expr.nodes_operation reach hlayer, Expr.nodes_operation reach
      ((e.ownsLayer_withOperands _).trans hlayer), Expr.children_withOperands hlength,
      Expr.nodesAll_eq_flatMap, Expr.nodesAll_eq_flatMap,
      ← Expr.rename_operation names hlayer hname]
    exact .cons (hexpr names labels e next) (List.rel_flatMap hoperands fun _ _ h => h labels)
  literal names id name params body next hbody labels := by
    refine .cons (hexpr names labels (.function ⟨id, name, params, body⟩) next) ?_
    cases reach with
    | ownLayer => exact .nil
    | nested =>
      rw [Stmt.nodesAll_eq_flatMap, Stmt.nodesAll_eq_flatMap]
      exact List.rel_flatMap hbody fun _ _ h => h.imp (hinner rfl names labels _)
  declaration names labels id name params body next hbody := by
    refine .cons (hstmt names labels (.function ⟨id, name, params, body⟩) next) ?_
    cases reach with
    | ownLayer => exact .nil
    | nested =>
      rw [Stmt.nodesAll_eq_flatMap, Stmt.nodesAll_eq_flatMap]
      exact List.rel_flatMap hbody fun _ _ h => h.imp (hinner rfl names labels _)
  statement names labels s next hfn hfn' hhead hbodies := by
    rw [Stmt.nodes_parts reach hfn, Stmt.nodes_parts reach hfn', Expr.nodesAll_eq_flatMap,
      Expr.nodesAll_eq_flatMap, funext (Stmt.nodesAll_eq_flatMap reach)]
    exact .cons (hstmt names labels s next) (List.rel_append
      (List.rel_flatMap hhead fun _ _ h => h labels)
      (List.rel_flatMap hbodies fun _ _ h => List.rel_flatMap h fun _ _ h => h))

/-- The nodes of a copy are related to those that they are copies of, if each is to its own and
the relation goes from the inside of a function to its outside. -/
theorem Stmt.forall₂_nodesAll_rename (names labels : Renaming) (stmts : List Stmt)
    (next : IdCounter) :
    List.Forall₂ (R names labels) (Stmt.nodesAll reach stmts)
      (Stmt.nodesAll reach (Stmt.renameAll names labels stmts next).1) := by
  rw [Stmt.nodesAll_eq_flatMap, Stmt.nodesAll_eq_flatMap]
  exact List.rel_flatMap ((renames_nodes hexpr hstmt hinner).stmts names labels stmts next)
    fun _ _ h => h

theorem Expr.forall₂_nodes_rename (names labels : Renaming) (e : Expr) (next : IdCounter) :
    List.Forall₂ (R names labels) (e.nodes reach) ((e.rename names next).1.nodes reach) :=
  (renames_nodes hexpr hstmt hinner).byParts.expr e names next labels

end Nodes

end Renaming

section Replacing

theorem Stmt.demoteAll_eq_flatMap (hoisted : List String) (stmts : List Stmt) :
    Stmt.demoteAll hoisted stmts = stmts.flatMap (·.demote hoisted) := by
  induction stmts with
  | nil => rfl
  | cons s rest ih => rw [Stmt.demoteAll, ih, List.flatMap_cons]

theorem Stmt.returnsToJumpsAll_eq_flatMap (result label : String) (stmts : List Stmt) :
    Stmt.returnsToJumpsAll result label stmts = stmts.flatMap (·.returnsToJumps result label) := by
  induction stmts with
  | nil => rfl
  | cons s rest ih => rw [Stmt.returnsToJumpsAll, ih, List.flatMap_cons]

/-- A statement without statements of its layer below it. -/
def Stmt.isSimple : Stmt → Bool
  | .ifElse _ _ _ | .whileDo _ _ | .block _ | .labeled _ _ => false
  | _ => true

theorem Stmt.function?_compound {s : Stmt} (h : s.isSimple = false) : s.function? = none := by
  cases s with
  | function _ => cases h
  | _ => rfl

/-- A replacement of simple statements that is carried out inside the others. -/
structure Descends (replace : Stmt → List Stmt) : Prop where
  ifThen : ∀ condition thenBranch, replace (.ifElse condition thenBranch none) =
    [.ifElse condition (thenBranch.flatMap replace) none]
  ifElse : ∀ condition thenBranch elseBranch,
    replace (.ifElse condition thenBranch (some elseBranch)) =
      [.ifElse condition (thenBranch.flatMap replace) (some (elseBranch.flatMap replace))]
  whileDo : ∀ condition body, replace (.whileDo condition body) =
    [.whileDo condition (body.flatMap replace)]
  block : ∀ body, replace (.block body) = [.block (body.flatMap replace)]
  labeled : ∀ label body, replace (.labeled label body) = [.labeled label (body.flatMap replace)]

theorem descends_demote (hoisted : List String) : Descends (Stmt.demote hoisted) := by
  constructor <;> intros <;> simp only [Stmt.demote, Stmt.demoteAll_eq_flatMap]

theorem descends_returnsToJumps (result label : String) :
    Descends (Stmt.returnsToJumps result label) := by
  constructor <;> intros <;> simp only [Stmt.returnsToJumps, Stmt.returnsToJumpsAll_eq_flatMap]

namespace Stmt

theorem isSimple_withParts (s : Stmt) (bodies : List (List Stmt)) :
    (s.withParts s.head? bodies).isSimple = s.isSimple := by
  unfold withParts
  split <;> rfl

theorem head?_withParts (s : Stmt) (bodies : List (List Stmt)) :
    (s.withParts s.head? bodies).head? = s.head? := by
  unfold withParts
  split <;> simp_all [head?]

theorem bodies_withParts {s : Stmt} {bodies : List (List Stmt)} (hs : s.isSimple = false)
    (h : bodies.length = s.bodies.length) : (s.withParts s.head? bodies).bodies = bodies := by
  cases s with
  | ifElse _ _ elseBranch =>
    cases elseBranch with
    | none =>
      obtain ⟨body, rfl⟩ := List.length_eq_one_iff.mp h
      rfl
    | some _ =>
      obtain ⟨body, body', rfl⟩ := List.length_eq_two.mp h
      rfl
  | whileDo _ _ | block _ | labeled _ _ =>
    obtain ⟨body, rfl⟩ := List.length_eq_one_iff.mp h
    rfl
  | _ => cases hs

end Stmt

/-- The replacement of a statement that is not simple goes on in its bodies. -/
theorem Descends.eq_withParts {replace : Stmt → List Stmt} (h : Descends replace) {s : Stmt}
    (hs : s.isSimple = false) :
    replace s = [s.withParts s.head? (s.bodies.map (·.flatMap replace))] := by
  cases s with
  | ifElse condition thenBranch elseBranch =>
    cases elseBranch with
    | none => exact h.ifThen condition thenBranch
    | some elseBranch => exact h.ifElse condition thenBranch elseBranch
  | whileDo condition body => exact h.whileDo condition body
  | block body => exact h.block body
  | labeled label body => exact h.labeled label body
  | _ => cases hs

/-- What relates bodies and what becomes of them, if it relates their parts. -/
structure Bodywise (R : List Stmt → List Stmt → Prop) : Prop where
  refl : ∀ stmts, R stmts stmts
  append : ∀ {first first' second second'}, R first first' → R second second' →
    R (first ++ second) (first' ++ second')
  below : ∀ {s : Stmt} {bodies : List (List Stmt)}, s.isSimple = false →
    List.Forall₂ R s.bodies bodies → R [s] [s.withParts s.head? bodies]

namespace Bodywise

variable {R : List Stmt → List Stmt → Prop} (h : Bodywise R) {replace : Stmt → List Stmt}
include h

/-- The run over a list of statements. -/
theorem flatMap {stmts : List Stmt} (hstmts : ∀ s ∈ stmts, R [s] (replace s)) :
    R stmts (stmts.flatMap replace) := by
  induction stmts with
  | nil => exact h.refl []
  | cons s rest ih =>
    obtain ⟨hs, hrest⟩ := List.forall_mem_cons.mp hstmts
    exact h.append hs (ih hrest)

/-- The simple statements decide about the whole body. -/
theorem descend (hreplace : Descends replace) (hsimple : ∀ s, s.isSimple = true → R [s] (replace s))
    (stmts : List Stmt) : R stmts (stmts.flatMap replace) := by
  have hstmt (s : Stmt) : R [s] (replace s) := by
    induction s using Stmt.byBodies with
    | statement s ih =>
      cases hs : s.isSimple with
      | true => exact hsimple s hs
      | false =>
        rw [hreplace.eq_withParts hs]
        refine h.below hs
          (List.forall₂_map_right_iff.mpr (List.forall₂_same.mpr fun body hbody => ?_))
        exact h.flatMap (ih body hbody)
  exact h.flatMap fun s _ => hstmt s

/-- Variables that become block-scoped in place. -/
theorem promoteAll (hvar : ∀ name init, R [.var .var name init] [.var .letVar name init])
    (names : List String) (stmts : List Stmt) : R stmts (stmts.map (·.promote names)) := by
  rw [← List.flatMap_singleton' (stmts.map _), List.flatMap_map]
  refine h.flatMap fun s _ => ?_
  unfold Stmt.promote
  split
  · split
    · exact hvar _ _
    · exact h.refl _
  · exact h.refl _

/-- Variables that are declared elsewhere, and assigned in place. -/
theorem demoteAll (hoisted : List String) (hdropped : ∀ name ∈ hoisted, R [.var .var name none] [])
    (hassigned : ∀ name ∈ hoisted, ∀ init, R [.var .var name (some init)] [.assign name init])
    (stmts : List Stmt) : R stmts (Stmt.demoteAll hoisted stmts) := by
  rw [Stmt.demoteAll_eq_flatMap]
  refine h.descend (descends_demote hoisted) (fun s hs => ?_) stmts
  unfold Stmt.demote
  split
  · split
    · next hmem => exact hdropped _ (List.contains_iff_mem.mp hmem)
    · exact h.refl _
  · split
    · next hmem => exact hassigned _ (List.contains_iff_mem.mp hmem) _
    · exact h.refl _
  all_goals first | cases hs | exact h.refl _

/-- Returns that become assignments and jumps. -/
theorem lowerAll {result : String} {label : Option String}
    (hjump : ∀ target ∈ label, R [.ret none] [.breakTo (some target)])
    (hreturn : ∀ target ∈ label, ∀ value,
      R [.ret (some value)] ([Stmt.assign result value] ++ [Stmt.breakTo (some target)]))
    (stmts : List Stmt) : R stmts (Block.lowerAll result label stmts) := by
  cases label with
  | none => exact h.refl stmts
  | some target =>
    rw [Block.lowerAll, Stmt.returnsToJumpsAll_eq_flatMap]
    refine h.descend (descends_returnsToJumps result target) (fun s hs => ?_) stmts
    unfold Stmt.returnsToJumps
    split
    · exact hjump target rfl
    · exact hreturn target rfl _
    all_goals first | cases hs | exact h.refl _

/-- The same with a return at the end, which needs no jump. -/
theorem lower {result : String} {label : Option String} {trailing : Bool} {body : List Stmt}
    (hjump : ∀ target ∈ label, R [.ret none] [.breakTo (some target)])
    (hreturn : ∀ target ∈ label, ∀ value,
      R [.ret (some value)] ([Stmt.assign result value] ++ [Stmt.breakTo (some target)]))
    (hresult : ∀ value, R [.ret (some value)] [.assign result value])
    (hlast : trailing = true → ∀ last ∈ body.getLast?, (∀ value, last ≠ .ret (some value)) →
      R [last] []) :
    R body (Block.lower result label trailing body) := by
  unfold Block.lower
  cases trailing with
  | false => exact h.lowerAll hjump hreturn body
  | true =>
    rw [if_pos rfl]
    rcases body.eq_nil_or_concat with rfl | ⟨init, last, rfl⟩
    · exact h.append (h.lowerAll hjump hreturn []) (h.refl [])
    · rw [List.concat_eq_append] at hlast ⊢
      rw [List.getLast?_concat] at hlast
      rw [List.dropLast_concat, List.getLast?_concat]
      refine h.append (h.lowerAll hjump hreturn init) ?_
      split
      · next value heq =>
        cases heq
        exact hresult value
      · next hne => exact hlast rfl last rfl fun value heq => hne value (congrArg some heq)

end Bodywise

/-- A relation of lists of nodes that holds of the roots is kept by rewriting bodies. -/
theorem bodywise_nodes {reach : Reach} {Q : List Node → List Node → Prop}
    (refl : ∀ nodes, Q nodes nodes)
    (append : ∀ {first first' second second'}, Q first first' → Q second second' →
      Q (first ++ second) (first' ++ second'))
    (root : ∀ {s : Stmt} bodies, s.isSimple = false →
      Q [.stmt s] [.stmt (s.withParts s.head? bodies)]) :
    Bodywise fun body body' => Q (Stmt.nodesAll reach body) (Stmt.nodesAll reach body') where
  refl _ := refl _
  append h h' := by
    rw [Stmt.nodesAll_append, Stmt.nodesAll_append]
    exact append h h'
  below {s bodies} hs hbodies := by
    have hfn := Stmt.function?_compound ((s.isSimple_withParts bodies).trans hs)
    rw [Stmt.nodesAll_singleton, Stmt.nodesAll_singleton,
      Stmt.nodes_parts reach (Stmt.function?_compound hs), Stmt.nodes_parts reach hfn,
      Stmt.head?_withParts, Stmt.bodies_withParts hs hbodies.length_eq.symm]
    refine append (root bodies hs) (append (refl _) ?_)
    clear hfn
    generalize s.bodies = old at hbodies
    induction hbodies with
    | nil => exact refl []
    | cons hbody _ ih => exact append hbody ih

end Replacing

end StaticInliner
