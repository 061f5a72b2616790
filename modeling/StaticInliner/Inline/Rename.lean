import StaticInliner.Analysis.Declared

/-!
Renaming a copied body. Variables and labels are renamed along two maps; inside
a nested function the names it declares itself keep their meaning, and no label
is renamed. Every copied function literal gets the next id of a counter, which
the renaming hands on.
-/
namespace StaticInliner

/-- New names by old name. -/
abbrev Renaming := List (String × String)

namespace Renaming

def apply (names : Renaming) (name : String) : String := (names.lookup name).getD name

/-- The renaming without the names in a list. -/
def without (names : Renaming) (shadowed : List String) : Renaming :=
  names.filter fun (name, _) => !shadowed.contains name

end Renaming

mutual

def Expr.rename (names : Renaming) (e : Expr) (next : IdCounter) : Expr × IdCounter :=
  match e with
  | .undefined => (.undefined, next)
  | .null => (.null, next)
  | .bool value => (.bool value, next)
  | .number value => (.number value, next)
  | .string value => (.string value, next)
  | .this => (.this, next)
  | .ident name => (.ident (names.apply name), next)
  | .member object property =>
    let o := object.rename names next
    (.member o.1 property, o.2)
  | .index object key =>
    let o := object.rename names next
    let k := key.rename names o.2
    (.index o.1 k.1, k.2)
  | .call callee args =>
    let c := callee.rename names next
    let a := Expr.renameAll names args c.2
    (.call c.1 a.1, a.2)
  | .new callee args =>
    let c := callee.rename names next
    let a := Expr.renameAll names args c.2
    (.new c.1 a.1, a.2)
  | .assign target op value =>
    let t := target.rename names next
    let v := value.rename names t.2
    (.assign t.1 op v.1, v.2)
  | .binary op left right =>
    let l := left.rename names next
    let r := right.rename names l.2
    (.binary op l.1 r.1, r.2)
  | .logical op left right =>
    let l := left.rename names next
    let r := right.rename names l.2
    (.logical op l.1 r.1, r.2)
  | .unary op operand =>
    let o := operand.rename names next
    (.unary op o.1, o.2)
  | .conditional condition thenExpr elseExpr =>
    let c := condition.rename names next
    let t := thenExpr.rename names c.2
    let f := elseExpr.rename names t.2
    (.conditional c.1 t.1 f.1, f.2)
  | .sequence items =>
    let i := Expr.renameAll names items next
    (.sequence i.1, i.2)
  | .array items =>
    let i := Expr.renameAll names items next
    (.array i.1, i.2)
  | .function ⟨_, name, params, body⟩ =>
    let inner := names.without (declaredNames params body ++ name.toList)
    let b := Stmt.renameAll inner [] body next.draw.2
    (.function ⟨next.draw.1, name, params, b.1⟩, b.2)

def Expr.renameAll (names : Renaming) (es : List Expr) (next : IdCounter) :
    List Expr × IdCounter :=
  match es with
  | [] => ([], next)
  | e :: rest =>
    let first := e.rename names next
    let others := Expr.renameAll names rest first.2
    (first.1 :: others.1, others.2)

def Stmt.rename (names labels : Renaming) (s : Stmt) (next : IdCounter) :
    Stmt × IdCounter :=
  match s with
  | .var kind name none => (.var kind (names.apply name) none, next)
  | .var kind name (some init) =>
    let i := init.rename names next
    (.var kind (names.apply name) (some i.1), i.2)
  | .function ⟨_, name, params, body⟩ =>
    let inner := names.without (declaredNames params body)
    let b := Stmt.renameAll inner [] body next.draw.2
    (.function ⟨next.draw.1, name.map names.apply, params, b.1⟩, b.2)
  | .expr value =>
    let v := value.rename names next
    (.expr v.1, v.2)
  | .ret none => (.ret none, next)
  | .ret (some value) =>
    let v := value.rename names next
    (.ret (some v.1), v.2)
  | .ifElse condition thenBranch none =>
    let c := condition.rename names next
    let t := Stmt.renameAll names labels thenBranch c.2
    (.ifElse c.1 t.1 none, t.2)
  | .ifElse condition thenBranch (some elseBranch) =>
    let c := condition.rename names next
    let t := Stmt.renameAll names labels thenBranch c.2
    let f := Stmt.renameAll names labels elseBranch t.2
    (.ifElse c.1 t.1 (some f.1), f.2)
  | .whileDo condition body =>
    let c := condition.rename names next
    let b := Stmt.renameAll names labels body c.2
    (.whileDo c.1 b.1, b.2)
  | .block body =>
    let b := Stmt.renameAll names labels body next
    (.block b.1, b.2)
  | .labeled label body =>
    let b := Stmt.renameAll names labels body next
    (.labeled (labels.apply label) b.1, b.2)
  | .breakTo label => (.breakTo (label.map labels.apply), next)
  | .continueTo label => (.continueTo (label.map labels.apply), next)
  | .throw value =>
    let v := value.rename names next
    (.throw v.1, v.2)

def Stmt.renameAll (names labels : Renaming) (stmts : List Stmt) (next : IdCounter) :
    List Stmt × IdCounter :=
  match stmts with
  | [] => ([], next)
  | s :: rest =>
    let first := s.rename names labels next
    let others := Stmt.renameAll names labels rest first.2
    (first.1 :: others.1, others.2)

end

end StaticInliner
