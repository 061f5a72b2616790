import StaticInliner.Proofs.Expanded
import StaticInliner.Proofs.Validity

/-!
Places in a program. A place is a program with a list of statements left out, a spot
one with an expression left out, in front of whose statement others can be put. What
is filled in belongs to one layer, the layer of the place; the other layers, and the
names spelled outside, do not depend on it.
-/
namespace StaticInliner

/-- An operation with one operand left out. -/
structure Frame where
  node : Expr
  before : List Expr
  after : List Expr
  fits : before.length + 1 + after.length = node.children.length

/-- A statement with one of the lists below it left out. -/
inductive Nest where
  | thenOf (condition : Expr) (elseBranch : Option (List Stmt))
  | elseOf (condition : Expr) (thenBranch : List Stmt)
  | whileOf (condition : Expr)
  | block
  | labeled (label : String)
  | function (id : Nat) (name : Option String) (params : List String)

/-- A program with a list of statements left out. -/
inductive Place where
  | unit (before : List SourceUnit) (id : Nat) (name : String) (after : List SourceUnit)
  | body (outer : Place) (done : List Stmt) (nest : Nest) (rest : List Stmt)
  /-- The body of a function literal at the end of a path in an expression. -/
  | literal (outer : Place) (done : List Stmt) (stmt : Stmt) (hasHead : stmt.head?.isSome = true)
    (path : List Frame) (id : Nat) (name : Option String) (params : List String) (rest : List Stmt)

/-- A program with an expression left out, at the end of a path in a statement;
the innermost operation comes first. -/
structure Spot where
  place : Place
  done : List Stmt
  stmt : Stmt
  hasHead : stmt.head?.isSome = true
  path : List Frame
  rest : List Stmt

section Filling

def Frame.fill (frame : Frame) (e : Expr) : Expr :=
  frame.node.withOperands (frame.before ++ e :: frame.after)

def fillPath : List Frame → Expr → Expr
  | [], e => e
  | frame :: outer, e => fillPath outer (frame.fill e)

def Nest.fill : Nest → List Stmt → Stmt
  | .thenOf condition elseBranch, body => .ifElse condition body elseBranch
  | .elseOf condition thenBranch, body => .ifElse condition thenBranch (some body)
  | .whileOf condition, body => .whileDo condition body
  | .block, body => .block body
  | .labeled label, body => .labeled label body
  | .function id name params, body => .function ⟨id, name, params, body⟩

def Place.plug : Place → List Stmt → Program
  | .unit before id name after, piece => ⟨before ++ ⟨id, name, piece⟩ :: after⟩
  | .body outer done nest rest, piece => outer.plug (done ++ nest.fill piece :: rest)
  | .literal outer done stmt _ path id name params rest, piece =>
    outer.plug (done ++ stmt.withHead (fillPath path (.function ⟨id, name, params, piece⟩)) :: rest)

/-- The program with an expression in the spot and statements in front of its own. -/
def Spot.plug (spot : Spot) (prelude : List Stmt) (e : Expr) : Program :=
  spot.place.plug (spot.done ++ prelude ++ spot.stmt.withHead (fillPath spot.path e) :: spot.rest)

/-- The spot of an operand. -/
def Spot.inside (spot : Spot) (frame : Frame) : Spot := { spot with path := frame :: spot.path }

/-- The place of the body of a function literal in the spot. -/
def Spot.literal (spot : Spot) (prelude : List Stmt) (id : Nat) (name : Option String)
    (params : List String) : Place :=
  .literal spot.place (spot.done ++ prelude) spot.stmt spot.hasHead spot.path id name
    params spot.rest

/-- The left out statements are the body of a function. -/
def Nest.ownsLayer : Nest → Bool
  | .function _ _ _ => true
  | _ => false

/-- The owner of the layer that the left out statements belong to. -/
def Nest.inner (owner : ChangedBody) : Nest → ChangedBody
  | .function id _ _ => .function id
  | _ => owner

def Place.owner : Place → ChangedBody
  | .unit _ id _ _ => .script id
  | .body outer _ nest _ => nest.inner outer.owner
  | .literal _ _ _ _ _ id _ _ _ => .function id

/-- The layer that the left out statements belong to. -/
def Place.layer : Place → List Stmt → Layer
  | .unit _ id name _, piece => SourceUnit.layer ⟨id, name, piece⟩
  | .body outer _ (.function id name params) _, piece =>
    FunctionLit.layer ⟨id, name, params, piece⟩ outer.owner false
  | .body outer done nest rest, piece => outer.layer (done ++ nest.fill piece :: rest)
  | .literal outer _ _ _ _ id name params _, piece =>
    FunctionLit.layer ⟨id, name, params, piece⟩ outer.owner true

def Spot.layer (spot : Spot) (prelude : List Stmt) (e : Expr) : Layer :=
  spot.place.layer (spot.done ++ prelude ++ spot.stmt.withHead (fillPath spot.path e) :: spot.rest)

end Filling

section Frames

variable (frame : Frame) (path : List Frame)

theorem Frame.length_operands (e : Expr) :
    (frame.before ++ e :: frame.after).length = frame.node.children.length := by
  have := frame.fits
  simp only [List.length_append, List.length_cons]
  omega

theorem Frame.children_fill (e : Expr) :
    (frame.fill e).children = frame.before ++ e :: frame.after :=
  Expr.children_withOperands (frame.length_operands e)

theorem Frame.mem_children_fill (e : Expr) : e ∈ (frame.fill e).children := by
  rw [frame.children_fill]
  exact List.mem_append_right _ List.mem_cons_self

/-- What is found in an operation is found in its operands. -/
theorem fillPath_found {α : Type} (found : Expr → List α)
    (hfound : ∀ e : Expr, e.children ≠ [] → found e = e.children.flatMap found) :
    ∃ pre post, ∀ e, found (fillPath path e) = pre ++ found e ++ post := by
  induction path with
  | nil => exact ⟨[], [], fun e => by simp [fillPath]⟩
  | cons frame outer ih =>
    obtain ⟨pre, post, h⟩ := ih
    refine ⟨pre ++ frame.before.flatMap found, frame.after.flatMap found ++ post, fun e => ?_⟩
    have hne : (frame.fill e).children ≠ [] := List.ne_nil_of_mem (frame.mem_children_fill e)
    rw [fillPath, h, hfound _ hne, frame.children_fill, List.flatMap_append, List.flatMap_cons]
    simp only [List.append_assoc]

theorem Frame.outline_fill {e e' : Expr} (h : e.outline = e'.outline) :
    (frame.fill e).outline = (frame.fill e').outline := by
  rw [Expr.outline_operation (Expr.ownsLayer_of_mem_children (frame.mem_children_fill e)),
    Expr.outline_operation (Expr.ownsLayer_of_mem_children (frame.mem_children_fill e')),
    frame.children_fill, frame.children_fill, List.map_append, List.map_append, List.map_cons,
    List.map_cons, h, Frame.fill, Frame.fill]
  have hlength : (frame.before.map Expr.outline ++ e'.outline ::
      frame.after.map Expr.outline).length = frame.node.children.length := by
    rw [← frame.length_operands e']
    simp
  rw [Expr.withOperands_withOperands (frame.length_operands e) hlength,
    Expr.withOperands_withOperands (frame.length_operands e') hlength]

theorem fillPath_outline {e e' : Expr} (h : e.outline = e'.outline) :
    (fillPath path e).outline = (fillPath path e').outline := by
  induction path generalizing e e' with
  | nil => exact h
  | cons frame outer ih => exact ih (frame.outline_fill h)

end Frames

section Nests

variable {nest : Nest} (h : nest.ownsLayer = false)

include h

theorem Nest.inner_of_shared (owner : ChangedBody) : nest.inner owner = owner := by
  cases nest with
  | function _ _ _ => cases h
  | _ => rfl

/-- A body stands between the layers of the statement around it. -/
theorem Nest.layers_fill (owner : ChangedBody) : ∃ pre post, ∀ piece,
    (nest.fill piece).layers owner = pre ++ Stmt.layersAll owner piece ++ post := by
  cases nest with
  | thenOf condition elseBranch =>
    cases elseBranch with
    | none => exact ⟨condition.layers owner, [], fun piece => by simp [Nest.fill, Stmt.layers]⟩
    | some body =>
      exact ⟨condition.layers owner, Stmt.layersAll owner body,
        fun piece => by simp [Nest.fill, Stmt.layers]⟩
  | elseOf condition body =>
    exact ⟨condition.layers owner ++ Stmt.layersAll owner body, [],
      fun piece => by simp [Nest.fill, Stmt.layers]⟩
  | whileOf condition =>
    exact ⟨condition.layers owner, [], fun piece => by simp [Nest.fill, Stmt.layers]⟩
  | block | labeled _ => exact ⟨[], [], fun piece => by simp [Nest.fill, Stmt.layers]⟩
  | function _ _ _ => cases h

theorem Nest.bindings_fill : ∃ pre post, ∀ piece,
    (nest.fill piece).bindings = pre ++ Stmt.bindingsAll piece ++ post := by
  cases nest with
  | thenOf condition elseBranch =>
    cases elseBranch with
    | none => exact ⟨[], [], fun piece => by simp [Nest.fill, Stmt.bindings]⟩
    | some body =>
      exact ⟨[], Stmt.bindingsAll body, fun piece => by simp [Nest.fill, Stmt.bindings]⟩
  | elseOf condition body =>
    exact ⟨Stmt.bindingsAll body, [], fun piece => by simp [Nest.fill, Stmt.bindings]⟩
  | whileOf _ | block | labeled _ =>
    exact ⟨[], [], fun piece => by simp [Nest.fill, Stmt.bindings]⟩
  | function _ _ _ => cases h

theorem Place.layer_body (outer : Place) (done rest : List Stmt) (piece : List Stmt) :
    (Place.body outer done nest rest).layer piece =
      outer.layer (done ++ nest.fill piece :: rest) := by
  cases nest with
  | function _ _ _ => cases h
  | _ => rfl

end Nests

theorem Nest.outline_fill (nest : Nest) {piece piece' : List Stmt}
    (h : Stmt.outlineAll piece = Stmt.outlineAll piece') :
    (nest.fill piece).outline = (nest.fill piece').outline := by
  cases nest with
  | thenOf condition elseBranch => cases elseBranch <;> simp [Nest.fill, Stmt.outline, h]
  | function _ _ _ => rfl
  | _ => simp [Nest.fill, Stmt.outline, h]

theorem Nest.spelled_fill (nest : Nest) : ∃ own : List String, ∀ piece name,
    name ∈ spelled ((nest.fill piece).nodes .nested) ↔
      name ∈ own ∨ name ∈ Stmt.spelledAll piece := by
  cases nest with
  | thenOf condition elseBranch =>
    cases elseBranch with
    | none =>
      exact ⟨condition.spelled, fun piece name => by
        simp [Nest.fill, Stmt.nodes, spelled_cons, Node.written, Expr.spelled, Stmt.spelledAll]⟩
    | some body =>
      refine ⟨condition.spelled ++ Stmt.spelledAll body, fun piece name => ?_⟩
      simp only [Nest.fill, Stmt.nodes, spelled_cons, Node.written, List.nil_append, spelled_append,
        List.mem_append, Expr.spelled, Stmt.spelledAll]
      exact or_right_comm
  | elseOf condition body =>
    exact ⟨condition.spelled ++ Stmt.spelledAll body, fun piece name => by
      simp [Nest.fill, Stmt.nodes, spelled_cons, Node.written, Expr.spelled, Stmt.spelledAll,
        or_assoc]⟩
  | whileOf condition =>
    exact ⟨condition.spelled, fun piece name => by
      simp [Nest.fill, Stmt.nodes, spelled_cons, Node.written, Expr.spelled, Stmt.spelledAll]⟩
  | block =>
    exact ⟨[], fun piece name => by
      simp [Nest.fill, Stmt.nodes, spelled_cons, Node.written, Stmt.spelledAll]⟩
  | labeled label =>
    exact ⟨[label], fun piece name => by
      simp [Nest.fill, Stmt.nodes, spelled_cons, Node.written, Stmt.spelledAll]⟩
  | function id own params =>
    exact ⟨own.toList ++ params, fun piece name => by
      simp [Nest.fill, Stmt.nodes, spelled_cons, Node.written, Stmt.spelledAll, or_assoc]⟩

section Heads

variable {s : Stmt} (h : s.head?.isSome = true)

include h

theorem Stmt.layers_withHead (owner : ChangedBody) (e : Expr) : (s.withHead e).layers owner =
    e.layers owner ++ s.bodies.flatMap (Stmt.layersAll owner) := by
  have hfn := (Stmt.function?_withHead s e).trans (Stmt.function?_of_head? h)
  rw [Stmt.layers_parts owner hfn, Stmt.head?_withHead h, Stmt.bodies_withHead]
  simp

theorem Stmt.spelled_withHead : ∃ own : List String, ∀ (e : Expr) name,
    name ∈ spelled ((s.withHead e).nodes .nested) ↔ name ∈ own ∨ name ∈ e.spelled := by
  refine ⟨(Node.stmt s).written ++ s.bodies.flatMap Stmt.spelledAll, fun e name => ?_⟩
  have hfn := (Stmt.function?_withHead s e).trans (Stmt.function?_of_head? h)
  have hwritten : (Node.stmt (s.withHead e)).written = (Node.stmt s).written := by
    cases s <;> rfl
  rw [Stmt.nodes_parts .nested hfn, Stmt.head?_withHead h, Stmt.bodies_withHead, spelled_cons,
    hwritten, spelled_append, spelled_flatMap]
  simp only [Option.toList_some, Expr.nodesAll, List.append_nil, List.mem_append, Expr.spelled]
  rw [or_assoc, or_comm (a := name ∈ spelled (e.nodes .nested))]
  rfl

end Heads

namespace Place

theorem owner_layer (place : Place) (piece : List Stmt) :
    (place.layer piece).owner = place.owner := by
  induction place generalizing piece with
  | unit _ _ _ _ | literal _ _ _ _ _ _ _ _ _ _ => rfl
  | body outer done nest rest ih =>
    cases hnest : nest.ownsLayer with
    | false => rw [layer_body hnest, ih, owner, Nest.inner_of_shared hnest]
    | true =>
      cases nest with
      | function _ _ _ => rfl
      | _ => cases hnest

theorem encloser_layer (place : Place) (piece piece' : List Stmt) :
    (place.layer piece).encloser = (place.layer piece').encloser := by
  induction place generalizing piece piece' with
  | unit _ _ _ _ | literal _ _ _ _ _ _ _ _ _ _ => rfl
  | body outer done nest rest ih =>
    cases hnest : nest.ownsLayer with
    | false => rw [layer_body hnest, layer_body hnest, ih]
    | true =>
      cases nest with
      | function _ _ _ => rfl
      | _ => cases hnest

/-- A layer does not depend on the bodies of functions in it. -/
theorem layer_congr (place : Place) {piece piece' : List Stmt}
    (h : Stmt.outlineAll piece = Stmt.outlineAll piece') :
    place.layer piece = place.layer piece' := by
  induction place generalizing piece piece' with
  | unit _ _ _ _ | literal _ _ _ _ _ _ _ _ _ _ =>
    simp only [layer, SourceUnit.layer, FunctionLit.layer, h]
  | body outer done nest rest ih =>
    cases hnest : nest.ownsLayer with
    | false =>
      rw [layer_body hnest, layer_body hnest]
      refine ih ?_
      simp only [Stmt.outlineAll_eq_map, List.map_append, List.map_cons, nest.outline_fill h]
    | true =>
      cases nest with
      | function _ _ _ => simp only [layer, FunctionLit.layer, h]
      | _ => cases hnest

/-- The statements filled in add their bindings to the layer. -/
theorem bindings_layer (place : Place) : ∃ pre post, ∀ piece,
    (place.layer piece).bindings = pre ++ Stmt.bindingsAll piece ++ post := by
  induction place with
  | unit _ id name _ =>
    exact ⟨[], [], fun piece => by
      simp [layer, SourceUnit.layer, Layer.bindings, Stmt.bindingsAll_outlineAll]⟩
  | literal _ _ _ _ _ id name params _ _ =>
    exact ⟨FunctionLit.headBindings ⟨id, name, params, []⟩ true, [], fun piece => by
      rw [layer, FunctionLit.bindings_layer, List.append_nil]; rfl⟩
  | body outer done nest rest ih =>
    cases hnest : nest.ownsLayer with
    | false =>
      obtain ⟨pre, post, h⟩ := ih
      obtain ⟨pre', post', h'⟩ := Nest.bindings_fill hnest
      refine ⟨pre ++ (Stmt.bindingsAll done ++ pre'), post' ++ Stmt.bindingsAll rest ++ post,
        fun piece => ?_⟩
      rw [layer_body hnest, h, Stmt.bindingsAll_append, Stmt.bindingsAll, h']
      simp only [List.append_assoc]
    | true =>
      cases nest with
      | function id name params =>
        exact ⟨FunctionLit.headBindings ⟨id, name, params, []⟩ false, [], fun piece => by
          rw [layer, FunctionLit.bindings_layer, List.append_nil]; rfl⟩
      | _ => cases hnest

/-- Filling in a function literal whose body is left out. -/
theorem layers_plug_function {outer : Place} {others : List Layer}
    (houter : ∀ piece, (outer.plug piece).layers.Perm
      (outer.layer piece :: (others ++ Stmt.layersAll outer.owner piece)))
    {done rest : List Stmt} {fill : List Stmt → Stmt}
    (houtline : ∀ piece, (fill piece).outline = (fill []).outline)
    {own : List Stmt → Layer} {inner : ChangedBody} (pre post : List Layer)
    (hfill : ∀ piece, (fill piece).layers outer.owner =
      pre ++ (own piece :: Stmt.layersAll inner piece) ++ post) :
    ∃ others, ∀ piece, (outer.plug (done ++ fill piece :: rest)).layers.Perm
      (own piece :: (others ++ Stmt.layersAll inner piece)) := by
  refine ⟨outer.layer (done ++ fill [] :: rest) :: (others ++ Stmt.layersAll outer.owner done ++
    pre ++ post ++ Stmt.layersAll outer.owner rest), fun piece => (houter _).trans ?_⟩
  have hsame : outer.layer (done ++ fill piece :: rest) =
      outer.layer (done ++ fill [] :: rest) := by
    refine outer.layer_congr ?_
    simp only [Stmt.outlineAll_eq_map, List.map_append, List.map_cons, houtline piece]
  rw [hsame, Stmt.layersAll_append, Stmt.layersAll, hfill]
  classical
  refine List.perm_iff_count.mpr fun layer => ?_
  simp only [List.count_append, List.count_cons]
  omega

/-- The layers of a program are the layer of the place, those in what is filled in,
and others that do not depend on it. -/
theorem layers_plug (place : Place) : ∃ others, ∀ piece, (place.plug piece).layers.Perm
    (place.layer piece :: (others ++ Stmt.layersAll place.owner piece)) := by
  induction place with
  | unit before id name after =>
    refine ⟨Program.layers ⟨before⟩ ++ Program.layers ⟨after⟩, fun piece => ?_⟩
    have hlayers : ((Place.unit before id name after).plug piece).layers =
        Program.layers ⟨before⟩ ++ Program.layers ⟨⟨id, name, piece⟩ :: after⟩ :=
      List.flatMap_append
    rw [hlayers, Program.layers_cons]
    classical
    refine List.perm_iff_count.mpr fun layer => ?_
    simp only [List.count_append, List.count_cons, Place.layer, Place.owner]
    omega
  | body outer done nest rest ih =>
    obtain ⟨others, ih⟩ := ih
    cases hnest : nest.ownsLayer with
    | false =>
      obtain ⟨pre, post, h⟩ := Nest.layers_fill hnest outer.owner
      refine ⟨others ++ Stmt.layersAll outer.owner done ++ pre ++ post ++
        Stmt.layersAll outer.owner rest, fun piece => (ih _).trans ?_⟩
      rw [layer_body hnest, owner, Nest.inner_of_shared hnest, Stmt.layersAll_append,
        Stmt.layersAll, h]
      classical
      refine List.perm_iff_count.mpr fun layer => ?_
      simp only [List.count_append, List.count_cons]
      omega
    | true =>
      cases nest with
      | function id name params =>
        exact layers_plug_function ih (fun _ => rfl) [] []
          fun piece => (List.append_nil _).symm
      | _ => cases hnest
  | literal outer done stmt hasHead path id name params rest ih =>
    obtain ⟨others, ih⟩ := ih
    obtain ⟨pre, post, h⟩ := fillPath_found path
      (·.layers outer.owner) (fun e => Expr.layers_children outer.owner)
    refine layers_plug_function ih (fun piece => ?_) pre
      (post ++ stmt.bodies.flatMap (Stmt.layersAll outer.owner)) fun piece => ?_
    · rw [Stmt.outline_withHead, Stmt.outline_withHead]
      exact congrArg _ (fillPath_outline path rfl)
    · rw [Stmt.layers_withHead hasHead, h, List.append_assoc]
      rfl

/-- A program spells what is outside a place and what is put there. -/
theorem spelled_plug (place : Place) : ∃ outside : List String, ∀ piece name,
    name ∈ spelled (place.plug piece).nodes ↔ name ∈ outside ∨ name ∈ Stmt.spelledAll piece := by
  induction place with
  | unit before id own after =>
    refine ⟨spelled (Program.nodes ⟨before⟩) ++ spelled (Program.nodes ⟨after⟩),
      fun piece name => ?_⟩
    have hnodes : ((Place.unit before id own after).plug piece).nodes =
        Program.nodes ⟨before⟩ ++ Program.nodes ⟨⟨id, own, piece⟩ :: after⟩ := List.flatMap_append
    rw [hnodes, Program.nodes_cons, spelled_append, spelled_append]
    simp only [List.mem_append, Stmt.spelledAll]
    exact iff_of_eq (by ac_rfl)
  | body outer done nest rest ih =>
    obtain ⟨outside, ih⟩ := ih
    obtain ⟨own, h⟩ := nest.spelled_fill
    refine ⟨outside ++ Stmt.spelledAll done ++ own ++ Stmt.spelledAll rest, fun piece name => ?_⟩
    rw [plug, ih, Stmt.spelledAll_append, Stmt.spelledAll_cons]
    simp only [List.mem_append, h]
    exact iff_of_eq (by ac_rfl)
  | literal outer done stmt hasHead path id own params rest ih =>
    obtain ⟨outside, ih⟩ := ih
    obtain ⟨head, h⟩ := Stmt.spelled_withHead hasHead
    obtain ⟨pre, post, hpath⟩ := fillPath_found path Expr.spelled (fun e => Expr.spelled_children)
    refine ⟨outside ++ Stmt.spelledAll done ++ head ++ pre ++ post ++ (own.toList ++ params) ++
      Stmt.spelledAll rest, fun piece name => ?_⟩
    have hfn : (Expr.function ⟨id, own, params, piece⟩).spelled =
        own.toList ++ params ++ Stmt.spelledAll piece := rfl
    rw [plug, ih, Stmt.spelledAll_append, Stmt.spelledAll_cons]
    simp only [List.mem_append, h, hpath, hfn]
    exact iff_of_eq (by ac_rfl)

end Place

namespace Spot

/-- The layers of a program with a spot filled in. -/
theorem layers_plug (spot : Spot) : ∃ others, ∀ prelude e, (spot.plug prelude e).layers.Perm
    (spot.layer prelude e :: (others ++ (Stmt.layersAll spot.place.owner prelude ++
      e.layers spot.place.owner))) := by
  obtain ⟨others, hplace⟩ := spot.place.layers_plug
  obtain ⟨pre, post, hpath⟩ := fillPath_found spot.path
    (·.layers spot.place.owner) (fun e => Expr.layers_children spot.place.owner)
  refine ⟨others ++ Stmt.layersAll spot.place.owner spot.done ++ pre ++ post ++
    spot.stmt.bodies.flatMap (Stmt.layersAll spot.place.owner) ++
      Stmt.layersAll spot.place.owner spot.rest, fun prelude e => (hplace _).trans ?_⟩
  rw [Stmt.layersAll_append, Stmt.layersAll_append, Stmt.layersAll,
    Stmt.layers_withHead spot.hasHead, hpath]
  classical
  refine List.perm_iff_count.mpr fun layer => ?_
  simp only [List.count_append, List.count_cons, Spot.layer]
  omega

theorem spelled_plug (spot : Spot) : ∃ outside : List String, ∀ prelude e name,
    name ∈ spelled (spot.plug prelude e).nodes ↔
      name ∈ outside ∨ name ∈ Stmt.spelledAll prelude ∨ name ∈ e.spelled := by
  obtain ⟨outside, hplace⟩ := spot.place.spelled_plug
  obtain ⟨head, hhead⟩ := Stmt.spelled_withHead spot.hasHead
  obtain ⟨pre, post, hpath⟩ :=
    fillPath_found spot.path Expr.spelled (fun e => Expr.spelled_children)
  refine ⟨outside ++ Stmt.spelledAll spot.done ++ head ++ pre ++ post ++
    Stmt.spelledAll spot.rest, fun prelude e name => ?_⟩
  rw [plug, hplace, Stmt.spelledAll_append, Stmt.spelledAll_append, Stmt.spelledAll_cons]
  simp only [List.mem_append, hhead, hpath]
  exact iff_of_eq (by ac_rfl)

/-- An expression adds nothing to the bindings of its layer, statements in front add theirs. -/
theorem bindings_layer (spot : Spot) : ∃ pre post, ∀ prelude e,
    (spot.layer prelude e).bindings = pre ++ Stmt.bindingsAll prelude ++ post := by
  obtain ⟨pre, post, h⟩ := spot.place.bindings_layer
  refine ⟨pre ++ Stmt.bindingsAll spot.done,
    spot.stmt.bindings ++ Stmt.bindingsAll spot.rest ++ post, fun prelude e => ?_⟩
  rw [Spot.layer, h, Stmt.bindingsAll_append, Stmt.bindingsAll_append, Stmt.bindingsAll,
    Stmt.bindings_withHead]
  simp only [List.append_assoc]

end Spot

end StaticInliner
