import StaticInliner.Syntax.Tree
import StaticInliner.Number.Text

/-!
Source text of trees: one statement a line, two spaces a level, parentheses
only where precedence asks for them. A tree is first laid out as pieces, which
are tokens and the blanks between them, and the text is the pieces one after
another; the tokens alone are what a reader of the text is meant to see.
-/
namespace StaticInliner

inductive Token where
  /-- A keyword, identifier, property, label or word operator. -/
  | word (text : String)
  | punct (text : String)
  | numeral (text : String)
  | quoted (value : String)
  deriving DecidableEq, Repr

inductive Piece where
  | token (token : Token)
  | space
  | newline
  | indent (level : Nat)
  deriving DecidableEq, Repr

/-- The escape of one character inside a quoted string. -/
def sourceEscape (c : Char) : List Char :=
  if c = '"' then ['\\', '"']
  else if c = '\\' then ['\\', '\\']
  else if c = '\n' then ['\\', 'n']
  else if c = '\r' then ['\\', 'r']
  else if c = '\t' then ['\\', 't']
  else [c]

def Token.text : Token → String
  | .word text | .punct text | .numeral text => text
  | .quoted value => .ofList ('"' :: (value.toList.flatMap sourceEscape ++ ['"']))

namespace Piece

def text : Piece → String
  | .token t => t.text
  | .space => " "
  | .newline => "\n"
  | .indent level => "".pushn ' ' (2 * level)

def render (pieces : List Piece) : String :=
  pieces.foldl (fun out piece => out ++ piece.text) ""

def word (text : String) : Piece := .token (.word text)

def punct (text : String) : Piece := .token (.punct text)

def parens (pieces : List Piece) : List Piece := punct "(" :: (pieces ++ [punct ")"])

/-- A word after a space, if there is one. -/
def optional : Option String → List Piece
  | none => []
  | some text => [space, word text]

/-- A number below zero is a minus sign and a numeral. -/
def number (x : Float) : List Piece :=
  let value := Binary64.ofFloat x
  let numeral : Piece := .token (.numeral value.magnitude)
  if value.isNegative then [punct "-", numeral] else [numeral]

/-- Words with commas between them. -/
def commaWords : List String → List Piece
  | [] => []
  | [text] => [word text]
  | text :: rest => word text :: punct "," :: space :: commaWords rest

end Piece

namespace Precedence

def sequence : Nat := 1
def assignment : Nat := 2
def conditional : Nat := 3
def unary : Nat := 14
def call : Nat := 17
def primary : Nat := 18

def logical : LogicalOp → Nat
  | .or | .nullish => 4
  | .and => 5

def binary : BinaryOp → Nat
  | .bitOr => 6
  | .bitXor => 7
  | .bitAnd => 8
  | .eq | .notEq | .strictEq | .strictNotEq => 9
  | .lt | .le | .gt | .ge | .instanceOf | .isIn => 10
  | .shl | .shr | .ushr => 11
  | .add | .sub => 12
  | .mul | .div | .mod => 13

end Precedence

namespace BinaryOp

def isWord : BinaryOp → Bool
  | .instanceOf | .isIn => true
  | _ => false

def piece (op : BinaryOp) : Piece := if op.isWord then .word op.text else .punct op.text

end BinaryOp

namespace Expr

def isFunction : Expr → Bool
  | .function _ => true
  | _ => false

/-- How tightly the outermost construct of an expression binds. -/
def precedence : Expr → Nat
  | .sequence _ => Precedence.sequence
  | .assign _ _ _ => Precedence.assignment
  | .conditional _ _ _ => Precedence.conditional
  | .logical op _ _ => Precedence.logical op
  | .binary op _ _ => Precedence.binary op
  | .unary _ _ => Precedence.unary
  | .call _ _ | .new _ _ | .member _ _ | .index _ _ => Precedence.call
  | .number x => if (Binary64.ofFloat x).isNegative then Precedence.unary else Precedence.primary
  | _ => Precedence.primary

/-- The text between target and value of an assignment. -/
def assignmentText : Option BinaryOp → String
  | none => "="
  | some op => op.text ++ "="

end Expr

mutual

/-- An expression where the context asks for at least precedence `least`. -/
def Expr.pieces (level least : Nat) (e : Expr) : List Piece :=
  let inner : List Piece :=
    match e with
    | .undefined => [.word "undefined"]
    | .null => [.word "null"]
    | .bool value => [.word (if value then "true" else "false")]
    | .number x => Piece.number x
    | .string value => [.token (.quoted value)]
    | .ident name => [.word name]
    | .this => [.word "this"]
    | .member object property =>
      object.pieces level Precedence.call ++ [.punct ".", .word property]
    | .index object key =>
      object.pieces level Precedence.call ++
        .punct "[" :: (key.pieces level Precedence.sequence ++ [.punct "]"])
    | .call callee args =>
      (if callee.isFunction then Piece.parens (callee.pieces level Precedence.sequence)
        else callee.pieces level Precedence.call) ++ Piece.parens (Expr.commaPieces level args)
    | .new callee args =>
      .word "new" :: .space ::
        (callee.pieces level Precedence.primary ++ Piece.parens (Expr.commaPieces level args))
    | .assign target op value =>
      target.pieces level Precedence.call ++
        .space :: .punct (Expr.assignmentText op) :: .space ::
          value.pieces level Precedence.assignment
    | .binary op left right =>
      left.pieces level (Precedence.binary op) ++
        .space :: op.piece :: .space :: right.pieces level (Precedence.binary op + 1)
    | .logical op left right =>
      left.pieces level (Precedence.logical op) ++
        .space :: .punct op.text :: .space :: right.pieces level (Precedence.logical op + 1)
    | .unary op operand =>
      (if op.isWord then [.word op.text, .space] else [.punct op.text]) ++
        operand.pieces level Precedence.unary
    | .conditional condition thenExpr elseExpr =>
      condition.pieces level (Precedence.conditional + 1) ++
        .space :: .punct "?" :: .space ::
          (thenExpr.pieces level Precedence.assignment ++
            .space :: .punct ":" :: .space :: elseExpr.pieces level Precedence.assignment)
    | .sequence items => Expr.commaPieces level items
    | .array items => .punct "[" :: (Expr.commaPieces level items ++ [.punct "]"])
    | .function ⟨_, name, params, body⟩ =>
      .word "function" :: (Piece.optional name ++ Piece.parens (Piece.commaWords params) ++
        .space :: Stmt.blockPieces level body)
  if e.precedence < least then Piece.parens inner else inner

/-- Expressions with commas between them. -/
def Expr.commaPieces (level : Nat) : List Expr → List Piece
  | [] => []
  | [e] => e.pieces level Precedence.assignment
  | e :: rest =>
    e.pieces level Precedence.assignment ++ .punct "," :: .space :: Expr.commaPieces level rest

/-- A statement without its indentation and line end. -/
def Stmt.pieces (level : Nat) : Stmt → List Piece
  | .var kind name none => [.word kind.text, .space, .word name, .punct ";"]
  | .var kind name (some init) =>
    .word kind.text :: .space :: .word name :: .space :: .punct "=" :: .space ::
      (init.pieces level Precedence.assignment ++ [.punct ";"])
  | .function ⟨_, name, params, body⟩ =>
    .word "function" :: (Piece.optional name ++ Piece.parens (Piece.commaWords params) ++
      .space :: Stmt.blockPieces level body)
  | .expr value =>
    (if value.isFunction then Piece.parens (value.pieces level Precedence.sequence)
      else value.pieces level Precedence.sequence) ++ [.punct ";"]
  | .ret none => [.word "return", .punct ";"]
  | .ret (some value) =>
    .word "return" :: .space :: (value.pieces level Precedence.sequence ++ [.punct ";"])
  | .ifElse condition thenBranch none =>
    .word "if" :: .space :: (Piece.parens (condition.pieces level Precedence.sequence) ++
      .space :: Stmt.blockPieces level thenBranch)
  | .ifElse condition thenBranch (some elseBranch) =>
    .word "if" :: .space :: (Piece.parens (condition.pieces level Precedence.sequence) ++
      .space :: (Stmt.blockPieces level thenBranch ++
        .space :: .word "else" :: .space :: Stmt.blockPieces level elseBranch))
  | .whileDo condition body =>
    .word "while" :: .space :: (Piece.parens (condition.pieces level Precedence.sequence) ++
      .space :: Stmt.blockPieces level body)
  | .block body => Stmt.blockPieces level body
  | .labeled label body =>
    .word label :: .punct ":" :: .space :: Stmt.blockPieces level body
  | .breakTo label => .word "break" :: (Piece.optional label ++ [.punct ";"])
  | .continueTo label => .word "continue" :: (Piece.optional label ++ [.punct ";"])
  | .throw value =>
    .word "throw" :: .space :: (value.pieces level Precedence.sequence ++ [.punct ";"])

/-- Statements in braces, the first brace on the current line. -/
def Stmt.blockPieces (level : Nat) : List Stmt → List Piece
  | [] => [.punct "\x7b", .punct "\x7d"]
  | s :: rest =>
    .punct "\x7b" :: .newline :: .indent (level + 1) ::
      (s.pieces (level + 1) ++ .newline ::
        (Stmt.linePieces (level + 1) rest ++ [.indent level, .punct "\x7d"]))

/-- Each statement on lines of its own. -/
def Stmt.linePieces (level : Nat) : List Stmt → List Piece
  | [] => []
  | s :: rest => .indent level :: (s.pieces level ++ .newline :: Stmt.linePieces level rest)

end

namespace Expr

def source (e : Expr) : String := Piece.render (e.pieces 0 Precedence.sequence)

end Expr

namespace Stmt

def sourceAll (stmts : List Stmt) : String := Piece.render (Stmt.linePieces 0 stmts)

def source (s : Stmt) : String := sourceAll [s]

end Stmt

def SourceUnit.source (unit : SourceUnit) : String := Stmt.sourceAll unit.body

/-- Every unit under a comment with its name. -/
def Program.source (program : Program) : String :=
  String.join (program.units.map fun unit => "// " ++ unit.name ++ "\n" ++ unit.source)

end StaticInliner
