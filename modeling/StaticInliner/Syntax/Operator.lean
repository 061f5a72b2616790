/-!
Operators and declaration keywords of the script language, each with the text
it is written as and the name it has in serialized trees.
-/
namespace StaticInliner

/-- Keyword that introduces a variable. -/
inductive VarKind where
  | var | letVar | constVar
  deriving DecidableEq, Repr

inductive BinaryOp where
  | add | sub | mul | div | mod
  | eq | notEq | strictEq | strictNotEq
  | lt | le | gt | ge | instanceOf | isIn
  | bitAnd | bitOr | bitXor
  | shl | shr | ushr
  deriving DecidableEq, Repr

inductive LogicalOp where
  | and | or | nullish
  deriving DecidableEq, Repr

inductive UnaryOp where
  | not | neg | plus | bitNot | typeOf | void | delete
  deriving DecidableEq, Repr

namespace VarKind

def all : List VarKind := [.var, .letVar, .constVar]

def text : VarKind → String
  | .var => "var"
  | .letVar => "let"
  | .constVar => "const"

def tag : VarKind → String
  | .var => "Var"
  | .letVar => "Let"
  | .constVar => "Const"

end VarKind

namespace BinaryOp

def all : List BinaryOp :=
  [.add, .sub, .mul, .div, .mod, .eq, .notEq, .strictEq, .strictNotEq, .lt, .le, .gt, .ge,
    .instanceOf, .isIn, .bitAnd, .bitOr, .bitXor, .shl, .shr, .ushr]

def text : BinaryOp → String
  | .add => "+"
  | .sub => "-"
  | .mul => "*"
  | .div => "/"
  | .mod => "%"
  | .eq => "=="
  | .notEq => "!="
  | .strictEq => "==="
  | .strictNotEq => "!=="
  | .lt => "<"
  | .le => "<="
  | .gt => ">"
  | .ge => ">="
  | .instanceOf => "instanceof"
  | .isIn => "in"
  | .bitAnd => "&"
  | .bitOr => "|"
  | .bitXor => "^"
  | .shl => "<<"
  | .shr => ">>"
  | .ushr => ">>>"

def tag : BinaryOp → String
  | .add => "Add"
  | .sub => "Sub"
  | .mul => "Mul"
  | .div => "Div"
  | .mod => "Mod"
  | .eq => "Eq"
  | .notEq => "NotEq"
  | .strictEq => "StrictEq"
  | .strictNotEq => "StrictNotEq"
  | .lt => "Lt"
  | .le => "Le"
  | .gt => "Gt"
  | .ge => "Ge"
  | .instanceOf => "InstanceOf"
  | .isIn => "In"
  | .bitAnd => "BitAnd"
  | .bitOr => "BitOr"
  | .bitXor => "BitXor"
  | .shl => "Shl"
  | .shr => "Shr"
  | .ushr => "UShr"

end BinaryOp

namespace LogicalOp

def all : List LogicalOp := [.and, .or, .nullish]

def text : LogicalOp → String
  | .and => "&&"
  | .or => "||"
  | .nullish => "??"

def tag : LogicalOp → String
  | .and => "And"
  | .or => "Or"
  | .nullish => "Nullish"

end LogicalOp

namespace UnaryOp

def all : List UnaryOp := [.not, .neg, .plus, .bitNot, .typeOf, .void, .delete]

def text : UnaryOp → String
  | .not => "!"
  | .neg => "-"
  | .plus => "+"
  | .bitNot => "~"
  | .typeOf => "typeof"
  | .void => "void"
  | .delete => "delete"

def tag : UnaryOp → String
  | .not => "Not"
  | .neg => "Neg"
  | .plus => "Plus"
  | .bitNot => "BitNot"
  | .typeOf => "TypeOf"
  | .void => "Void"
  | .delete => "Delete"

/-- Spelled with letters, so a space separates the operator from its operand. -/
def isWord : UnaryOp → Bool
  | .typeOf | .void | .delete => true
  | .not | .neg | .plus | .bitNot => false

end UnaryOp

end StaticInliner
