import StaticInliner.Syntax.Tree
import StaticInliner.Json.Reader

/-!
Trees as JSON. A variant without payload is a string and any other an object
with one member, whose key is the variant. Writing gives every field by name;
reading lets optional ones be missing, and in the positional form takes the
fields of a payload from an array too. A number that is not finite is written `null`,
which does not read back.
-/
namespace StaticInliner

mutual

def Expr.toJson : Expr → Json
  | .undefined => .str "Undefined"
  | .null => .str "Null"
  | .bool value => .variant "Bool" (.bool value)
  | .number x => .variant "Number" (if x.isFinite then .float x else .null)
  | .string value => .variant "String" (.str value)
  | .ident name => .variant "Ident" (.str name)
  | .this => .str "This"
  | .member object property =>
    .variant "Member" (.obj [("object", object.toJson), ("property", .str property)])
  | .index object key =>
    .variant "Index" (.obj [("object", object.toJson), ("index", key.toJson)])
  | .call callee args =>
    .variant "Call" (.obj [("callee", callee.toJson), ("args", .arr (Expr.toJsonAll args))])
  | .new callee args =>
    .variant "New" (.obj [("callee", callee.toJson), ("args", .arr (Expr.toJsonAll args))])
  | .assign target op value =>
    .variant "Assign" (.obj [("target", target.toJson),
      ("op", .ofOption (.str ·.tag) op), ("value", value.toJson)])
  | .binary op left right =>
    .variant "Binary" (.obj [("op", .str op.tag), ("left", left.toJson), ("right", right.toJson)])
  | .logical op left right =>
    .variant "Logical" (.obj [("op", .str op.tag), ("left", left.toJson), ("right", right.toJson)])
  | .unary op operand =>
    .variant "Unary" (.obj [("op", .str op.tag), ("operand", operand.toJson)])
  | .conditional condition thenExpr elseExpr =>
    .variant "Conditional" (.obj [("condition", condition.toJson),
      ("then_expr", thenExpr.toJson), ("else_expr", elseExpr.toJson)])
  | .sequence items => .variant "Sequence" (.arr (Expr.toJsonAll items))
  | .array items => .variant "Array" (.arr (Expr.toJsonAll items))
  | .function fn => .variant "Function" fn.toJson

def Expr.toJsonAll : List Expr → List Json
  | [] => []
  | e :: rest => e.toJson :: Expr.toJsonAll rest

def Stmt.toJson : Stmt → Json
  | .var kind name none =>
    .variant "Var" (.obj [("kind", .str kind.tag), ("name", .str name), ("init", .null)])
  | .var kind name (some init) =>
    .variant "Var" (.obj [("kind", .str kind.tag), ("name", .str name), ("init", init.toJson)])
  | .function fn => .variant "Function" fn.toJson
  | .expr value => .variant "Expr" value.toJson
  | .ret none => .variant "Return" .null
  | .ret (some value) => .variant "Return" value.toJson
  | .ifElse condition thenBranch none =>
    .variant "If" (.obj [("condition", condition.toJson),
      ("then_branch", .arr (Stmt.toJsonAll thenBranch)), ("else_branch", .null)])
  | .ifElse condition thenBranch (some elseBranch) =>
    .variant "If" (.obj [("condition", condition.toJson),
      ("then_branch", .arr (Stmt.toJsonAll thenBranch)),
      ("else_branch", .arr (Stmt.toJsonAll elseBranch))])
  | .whileDo condition body =>
    .variant "While" (.obj [("condition", condition.toJson), ("body", .arr (Stmt.toJsonAll body))])
  | .block body => .variant "Block" (.arr (Stmt.toJsonAll body))
  | .labeled label body =>
    .variant "Labeled" (.obj [("label", .str label), ("body", .arr (Stmt.toJsonAll body))])
  | .breakTo label => .variant "Break" (.ofOption .str label)
  | .continueTo label => .variant "Continue" (.ofOption .str label)
  | .throw value => .variant "Throw" value.toJson

def Stmt.toJsonAll : List Stmt → List Json
  | [] => []
  | s :: rest => s.toJson :: Stmt.toJsonAll rest

def FunctionLit.toJson : FunctionLit → Json
  | ⟨id, name, params, body⟩ =>
    .obj [("id", .ofNat id), ("name", .ofOption .str name), ("params", .strings params),
      ("body", .arr (Stmt.toJsonAll body))]

end

namespace VarKind

def ofJson? : Json → Option VarKind := Json.choice? all tag

end VarKind

namespace BinaryOp

def ofJson? : Json → Option BinaryOp := Json.choice? all tag

end BinaryOp

namespace LogicalOp

def ofJson? : Json → Option LogicalOp := Json.choice? all tag

end LogicalOp

namespace UnaryOp

def ofJson? : Json → Option UnaryOp := Json.choice? all tag

end UnaryOp

mutual

/-- Read an expression from a value nested less than `depth` deep. -/
def Expr.read? (form : Json.PayloadForm) (depth : Nat) (json : Json) : Option Expr :=
  match depth with
  | 0 => none
  | depth + 1 => do
    let (tag, payload) ← json.variant?
    match tag with
    | "Undefined" => (Json.noPayload payload).map fun _ => .undefined
    | "Null" => (Json.noPayload payload).map fun _ => .null
    | "This" => (Json.noPayload payload).map fun _ => .this
    | "Bool" => (Json.required Json.bool? payload).map .bool
    | "Number" => (Json.required Json.float? payload).map .number
    | "String" => (Json.required Json.str? payload).map .string
    | "Ident" => (Json.required Json.str? payload).map .ident
    | "Member" =>
      match ← (← payload).payloadFields? form ["object", "property"] with
      | [object, property] =>
        return .member (← Json.required (Expr.read? form depth) object)
          (← Json.required Json.str? property)
      | _ => none
    | "Index" =>
      match ← (← payload).payloadFields? form ["object", "index"] with
      | [object, key] =>
        return .index (← Json.required (Expr.read? form depth) object)
          (← Json.required (Expr.read? form depth) key)
      | _ => none
    | "Call" =>
      match ← (← payload).payloadFields? form ["callee", "args"] with
      | [callee, args] =>
        return .call (← Json.required (Expr.read? form depth) callee)
          (← Json.required (Json.list? (Expr.read? form depth)) args)
      | _ => none
    | "New" =>
      match ← (← payload).payloadFields? form ["callee", "args"] with
      | [callee, args] =>
        return .new (← Json.required (Expr.read? form depth) callee)
          (← Json.required (Json.list? (Expr.read? form depth)) args)
      | _ => none
    | "Assign" =>
      match ← (← payload).payloadFields? form ["target", "op", "value"] with
      | [target, op, value] =>
        return .assign (← Json.required (Expr.read? form depth) target)
          (← Json.optional BinaryOp.ofJson? op) (← Json.required (Expr.read? form depth) value)
      | _ => none
    | "Binary" =>
      match ← (← payload).payloadFields? form ["op", "left", "right"] with
      | [op, left, right] =>
        return .binary (← Json.required BinaryOp.ofJson? op)
          (← Json.required (Expr.read? form depth) left)
          (← Json.required (Expr.read? form depth) right)
      | _ => none
    | "Logical" =>
      match ← (← payload).payloadFields? form ["op", "left", "right"] with
      | [op, left, right] =>
        return .logical (← Json.required LogicalOp.ofJson? op)
          (← Json.required (Expr.read? form depth) left)
          (← Json.required (Expr.read? form depth) right)
      | _ => none
    | "Unary" =>
      match ← (← payload).payloadFields? form ["op", "operand"] with
      | [op, operand] =>
        return .unary (← Json.required UnaryOp.ofJson? op)
          (← Json.required (Expr.read? form depth) operand)
      | _ => none
    | "Conditional" =>
      match ← (← payload).payloadFields? form ["condition", "then_expr", "else_expr"] with
      | [condition, thenExpr, elseExpr] =>
        return .conditional (← Json.required (Expr.read? form depth) condition)
          (← Json.required (Expr.read? form depth) thenExpr)
          (← Json.required (Expr.read? form depth) elseExpr)
      | _ => none
    | "Sequence" => (Json.required (Json.list? (Expr.read? form depth)) payload).map .sequence
    | "Array" => (Json.required (Json.list? (Expr.read? form depth)) payload).map .array
    | "Function" => (Json.required (FunctionLit.read? form depth) payload).map .function
    | _ => none

def Stmt.read? (form : Json.PayloadForm) (depth : Nat) (json : Json) : Option Stmt :=
  match depth with
  | 0 => none
  | depth + 1 => do
    let (tag, payload) ← json.variant?
    let payload ← payload
    match tag with
    | "Var" =>
      match ← payload.payloadFields? form ["kind", "name", "init"] with
      | [kind, name, init] =>
        return .var (← Json.required VarKind.ofJson? kind) (← Json.required Json.str? name)
          (← Json.optional (Expr.read? form depth) init)
      | _ => none
    | "Function" => (FunctionLit.read? form depth payload).map .function
    | "Expr" => (Expr.read? form depth payload).map .expr
    | "Return" => (Json.option? (Expr.read? form depth) payload).map .ret
    | "If" =>
      match ← payload.payloadFields? form ["condition", "then_branch", "else_branch"] with
      | [condition, thenBranch, elseBranch] =>
        return .ifElse (← Json.required (Expr.read? form depth) condition)
          (← Json.required (Json.list? (Stmt.read? form depth)) thenBranch)
          (← Json.optional (Json.list? (Stmt.read? form depth)) elseBranch)
      | _ => none
    | "While" =>
      match ← payload.payloadFields? form ["condition", "body"] with
      | [condition, body] =>
        return .whileDo (← Json.required (Expr.read? form depth) condition)
          (← Json.required (Json.list? (Stmt.read? form depth)) body)
      | _ => none
    | "Block" => (Json.list? (Stmt.read? form depth) payload).map .block
    | "Labeled" =>
      match ← payload.payloadFields? form ["label", "body"] with
      | [label, body] =>
        return .labeled (← Json.required Json.str? label)
          (← Json.required (Json.list? (Stmt.read? form depth)) body)
      | _ => none
    | "Break" => (Json.option? Json.str? payload).map .breakTo
    | "Continue" => (Json.option? Json.str? payload).map .continueTo
    | "Throw" => (Expr.read? form depth payload).map .throw
    | _ => none

def FunctionLit.read? (form : Json.PayloadForm) (depth : Nat) (json : Json) : Option FunctionLit :=
  match depth with
  | 0 => none
  | depth + 1 => do
    match ← json.fields? ["id", "name", "params", "body"] with
    | [id, name, params, body] =>
      return ⟨← Json.required Json.id? id, ← Json.optional Json.str? name,
        ← Json.required (Json.list? Json.str?) params,
        ← Json.required (Json.list? (Stmt.read? form depth)) body⟩
    | _ => none

end

/-- Each level of a tree takes at least one level of its value, so the value's
own depth is enough. -/
def Expr.ofJson? (form : Json.PayloadForm) (json : Json) : Option Expr :=
  Expr.read? form (json.depth + 1) json

def Stmt.ofJson? (form : Json.PayloadForm) (json : Json) : Option Stmt :=
  Stmt.read? form (json.depth + 1) json

def FunctionLit.ofJson? (form : Json.PayloadForm) (json : Json) : Option FunctionLit :=
  FunctionLit.read? form (json.depth + 1) json

namespace SourceUnit

def toJson (unit : SourceUnit) : Json :=
  .obj [("id", .ofNat unit.id), ("name", .str unit.name), ("body", .arr (Stmt.toJsonAll unit.body))]

def ofJson? (form : Json.PayloadForm) (json : Json) : Option SourceUnit := do
  match ← json.fields? ["id", "name", "body"] with
  | [id, name, body] =>
    return ⟨← Json.required Json.id? id, ← Json.required Json.str? name,
      ← Json.required (Json.list? (Stmt.ofJson? form)) body⟩
  | _ => none

end SourceUnit

namespace Program

def toJson (program : Program) : Json := .obj [("units", .arr (program.units.map (·.toJson)))]

def ofJson? (form : Json.PayloadForm) (json : Json) : Option Program := do
  match ← json.fields? ["units"] with
  | [units] => return ⟨← Json.required (Json.list? (SourceUnit.ofJson? form)) units⟩
  | _ => none

end Program

end StaticInliner
