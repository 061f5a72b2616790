import StaticInliner.Proofs.Reading.Legible

/-!
Reading tokens as an expression. The reader goes through the tokens once, with a stack of what
waits for the operand being read. A token between operands first completes everything on the
stack that binds the operand at least as tightly, so precedence decides between two readings,
and there is only one. Every legible expression is read back from its tokens, and so from its
text.
-/
namespace StaticInliner

namespace Parse

/-- What a list in brackets is for. -/
inductive Bracket where
  | call (callee : Expr)
  | new (callee : Expr)
  | array

namespace Bracket

def build : Bracket → List Expr → Expr
  | .call callee, items => .call callee items
  | .new callee, items => .new callee items
  | .array, items => .array items

def closer : Bracket → String
  | .call _ | .new _ => ")"
  | .array => "]"

end Bracket

/-- What waits for an operand. -/
inductive Frame where
  | unary (op : UnaryOp)
  | binary (op : BinaryOp) (left : Expr)
  | logical (op : LogicalOp) (left : Expr)
  | assign (target : Expr) (op : Option BinaryOp)
  | elseBranch (condition thenExpr : Expr)
  | sequence (items : List Expr)
  | thenBranch (condition : Expr)
  /-- After `new`. -/
  | construct
  | group
  | index (object : Expr)
  | list (bracket : Bracket) (items : List Expr)

namespace Frame

/-- How tightly the frame binds its operand. Zero if a token of its own comes after it. -/
def level : Frame → Nat
  | .unary _ => Precedence.unary
  | .binary op _ => Precedence.binary op
  | .logical op _ => Precedence.logical op
  | .assign _ _ => Precedence.assignment
  | .elseBranch _ _ => Precedence.conditional
  | .sequence _ => Precedence.sequence
  | .thenBranch _ | .construct | .group | .index _ | .list _ _ => 0

/-- The frame with its last operand. -/
def fill : Frame → Expr → Expr
  | .unary op, e => .unary op e
  | .binary op left, e => .binary op left e
  | .logical op left, e => .logical op left e
  | .assign target op, e => .assign target op e
  | .elseBranch condition thenExpr, e => .conditional condition thenExpr e
  | .sequence items, e => .sequence (items ++ [e])
  | .thenBranch _, e | .construct, e | .group, e | .index _, e | .list _ _, e => e

end Frame

/-- Fill the frames that bind an operand with at least the given precedence. -/
def reduce (least : Nat) (e : Expr) : List Frame → Expr × List Frame
  | [] => (e, [])
  | frame :: rest =>
    if least ≤ frame.level then reduce least (frame.fill e) rest else (e, frame :: rest)

inductive State where
  /-- An operand is to begin. -/
  | operand (stack : List Frame)
  /-- An operand may be complete. -/
  | value (e : Expr) (stack : List Frame)
  /-- A dot has been read. -/
  | property (object : Expr) (stack : List Frame)

/-- A token after an operand. -/
inductive Connective where
  | binary (op : BinaryOp)
  | logical (op : LogicalOp)
  | assign (op : Option BinaryOp)
  | question
  | colon
  | comma
  | dot
  | parenthesis
  | subscript
  | closer (text : String)

/-- The word or sign of an operator. -/
def operatorToken (op : BinaryOp) : Token := if op.isWord then .word op.text else .punct op.text

/-- What may be assigned with. -/
def assignments : List (Option BinaryOp) := none :: (BinaryOp.all.filter (·.isCompound)).map some

def connectives : List (Token × Connective) :=
  BinaryOp.all.map (fun op => (operatorToken op, Connective.binary op)) ++
    LogicalOp.all.map (fun op => (Token.punct op.text, Connective.logical op)) ++
    assignments.map (fun op => (Token.punct (Expr.assignmentText op), Connective.assign op)) ++
    [(Token.punct "?", Connective.question), (.punct ":", .colon), (.punct ",", .comma),
      (.punct ".", .dot), (.punct "(", .parenthesis), (.punct "[", .subscript),
      (.punct ")", .closer ")"), (.punct "]", .closer "]")]

def connective? (token : Token) : Option Connective := connectives.lookup token

namespace Connective

/-- What binds its operand at least so tightly is completed before the token. -/
def level : Connective → Nat
  | .binary op => Precedence.binary op
  | .logical op => Precedence.logical op
  | .assign _ | .dot | .parenthesis | .subscript => Precedence.call
  | .question => Precedence.conditional + 1
  | .colon | .comma => Precedence.assignment
  | .closer _ => Precedence.sequence

def act : Connective → Expr → List Frame → Option State
  | .binary op, e, stack => some (.operand (.binary op e :: stack))
  | .logical op, e, stack => some (.operand (.logical op e :: stack))
  | .assign op, e, stack => some (.operand (.assign e op :: stack))
  | .question, e, stack => some (.operand (.thenBranch e :: stack))
  | .colon, e, .thenBranch condition :: stack => some (.operand (.elseBranch condition e :: stack))
  | .comma, e, .sequence items :: stack => some (.operand (.sequence (items ++ [e]) :: stack))
  | .comma, e, .list bracket items :: stack =>
    some (.operand (.list bracket (items ++ [e]) :: stack))
  | .comma, e, stack => some (.operand (.sequence [e] :: stack))
  | .dot, e, stack => some (.property e stack)
  | .parenthesis, e, .construct :: stack => some (.operand (.list (.new e) [] :: stack))
  | .parenthesis, e, stack => some (.operand (.list (.call e) [] :: stack))
  | .subscript, e, stack => some (.operand (.index e :: stack))
  | .closer text, e, .group :: stack => if text = ")" then some (.value e stack) else none
  | .closer text, e, .index object :: stack =>
    if text = "]" then some (.value (.index object e) stack) else none
  | .closer text, e, .list bracket items :: stack =>
    if text = bracket.closer then some (.value (bracket.build (items ++ [e])) stack) else none
  | _, _, _ => none

end Connective

def constants : List (String × Expr) :=
  [("undefined", .undefined), ("null", .null), ("true", .bool true), ("false", .bool false),
    ("this", .this)]

/-- A word at the beginning of an operand. -/
def beginWord (text : String) (stack : List Frame) : State :=
  if text = "new" then .operand (.construct :: stack)
  else
    match UnaryOp.all.find? (fun op => op.isWord && op.text == text) with
    | some op => .operand (.unary op :: stack)
    | none => .value ((constants.lookup text).getD (.ident text)) stack

/-- A sign at the beginning of an operand, or in the place of the first item of a list. -/
def beginSign (text : String) (stack : List Frame) : Option State :=
  match UnaryOp.all.find? (fun op => !op.isWord && op.text == text) with
  | some op => some (.operand (.unary op :: stack))
  | none =>
    if text = "(" then some (.operand (.group :: stack))
    else if text = "[" then some (.operand (.list .array [] :: stack))
    else
      match stack with
      | .list bracket [] :: rest =>
        if text = bracket.closer then some (.value (bracket.build []) rest) else none
      | _ => none

def step : State → Token → Option State
  | .operand stack, .word text => some (beginWord text stack)
  | .operand stack, .punct text => beginSign text stack
  | .operand stack, .quoted value => some (.value (.string value) stack)
  | .operand _, .numeral _ => none
  | .property object stack, .word text => some (.value (.member object text) stack)
  | .property _ _, _ => none
  | .value e stack, token => (connective? token).bind fun connective =>
    let reduced := reduce connective.level e stack
    connective.act reduced.1 reduced.2

def finish : State → Option Expr
  | .value e stack =>
    match reduce Precedence.sequence e stack with
    | (whole, []) => some whole
    | (_, _ :: _) => none
  | .operand _ | .property _ _ => none

def run (state : State) : List Token → Option Expr
  | [] => finish state
  | token :: rest => (step state token).bind (run · rest)

end Parse

/-- The expression with the given tokens. -/
def parse? (tokens : List Token) : Option Expr := Parse.run (.operand []) tokens

namespace Parse

section Steps

variable {e : Expr} {stack : List Frame} {rest : List Token}

theorem connective?_binary (op : BinaryOp) :
    connective? (operatorToken op) = some (.binary op) := by
  cases op <;> rfl

theorem connective?_logical (op : LogicalOp) :
    connective? (.punct op.text) = some (.logical op) := by
  cases op <;> rfl

theorem connective?_assign {op : Option BinaryOp}
    (h : ∀ compound ∈ op, compound.isCompound = true) :
    connective? (.punct (Expr.assignmentText op)) = some (.assign op) := by
  cases op with
  | none => rfl
  | some op =>
    have hop := h op rfl
    cases op <;> first | rfl | cases hop

/-- No frame on the top binds an operand so tightly. -/
def Loose (level : Nat) (stack : List Frame) : Prop := ∀ frame ∈ stack.head?, frame.level < level

/-- No token that follows binds more tightly. -/
def Follows (level : Nat) (rest : List Token) : Prop :=
  ∀ token ∈ rest.head?, ∀ connective ∈ connective? token, connective.level ≤ level

theorem reduce_of_loose {least : Nat} (h : Loose least stack) :
    reduce least e stack = (e, stack) := by
  cases stack with
  | nil => rfl
  | cons frame stack => rw [reduce, if_neg (Nat.not_le.mpr (h frame rfl))]

/-- The step of the parser at a connective that completes nothing on the stack. -/
theorem run_connective {token : Token} {connective : Connective}
    (h : connective? token = some connective) (hstack : Loose connective.level stack) :
    run (.value e stack) (token :: rest) = (connective.act e stack).bind (run · rest) := by
  rw [run, step, h, Option.bind_some, reduce_of_loose hstack]

/-- A frame is filled before what does not bind more tightly. -/
theorem run_fill {frame : Frame} (hlevel : frame.level ≠ 0) (h : Follows frame.level rest) :
    run (.value e (frame :: stack)) rest = run (.value (frame.fill e) stack) rest := by
  cases rest with
  | nil =>
    have hreduce : reduce Precedence.sequence e (frame :: stack) =
        reduce Precedence.sequence (frame.fill e) stack := by
      rw [reduce,
        if_pos (show Precedence.sequence ≤ frame.level from Nat.one_le_iff_ne_zero.mpr hlevel)]
    rw [run, run, finish, finish, hreduce]
  | cons token rest =>
    rw [run, run, step, step]
    cases hconnective : connective? token with
    | none => rfl
    | some connective =>
      have hreduce : reduce connective.level e (frame :: stack) =
          reduce connective.level (frame.fill e) stack := by
        rw [reduce, if_pos (h token rfl connective hconnective)]
      rw [Option.bind_some, Option.bind_some, hreduce]

end Steps

section Levels

theorem binary_between (op : BinaryOp) : 6 ≤ Precedence.binary op ∧ Precedence.binary op ≤ 13 := by
  cases op <;> decide

theorem logical_between (op : LogicalOp) :
    4 ≤ Precedence.logical op ∧ Precedence.logical op ≤ 5 := by
  cases op <;> decide

theorem Frame.level_le (frame : Frame) : frame.level ≤ Precedence.unary := by
  cases frame with
  | binary op _ => exact Nat.le_succ_of_le (binary_between op).2
  | logical op _ => exact Nat.le_trans (logical_between op).2 (by decide)
  | _ => exact Nat.le_of_ble_eq_true rfl

theorem loose_call (stack : List Frame) : Loose Precedence.call stack :=
  fun frame _ => Nat.lt_of_le_of_lt frame.level_le (by decide)

theorem Follows.mono {level level' : Nat} {rest : List Token} (h : Follows level rest)
    (hle : level ≤ level') : Follows level' rest :=
  fun token htoken connective hconnective =>
    Nat.le_trans (h token htoken connective hconnective) hle

theorem follows_cons {level : Nat} {token : Token} {connective : Connective}
    (h : connective? token = some connective) (hle : connective.level ≤ level) (rest : List Token) :
    Follows level (token :: rest) := by
  intro other hother found hfound
  cases hother
  cases h.symm.trans hfound
  exact hle

theorem Connective.level_ne_conditional (connective : Connective) :
    connective.level ≠ Precedence.conditional := by
  cases connective with
  | binary op => cases op <;> decide
  | logical op => cases op <;> decide
  | _ => exact Nat.ne_of_beq_eq_false rfl

/-- No token has the precedence of a conditional, so the two sides of one are alike. -/
theorem Follows.assignment {rest : List Token} (h : Follows Precedence.conditional rest) :
    Follows Precedence.assignment rest := by
  intro token htoken connective hconnective
  have hle := h token htoken connective hconnective
  have hne := connective.level_ne_conditional
  simp only [Precedence.conditional, Precedence.assignment] at *
  omega

end Levels

section Expressions

/-- The level of the token after the first operand. -/
def goesOn : Expr → Nat
  | .sequence _ => Precedence.assignment
  | .conditional _ _ _ => Precedence.conditional + 1
  | .logical op _ _ => Precedence.logical op
  | .binary op _ _ => Precedence.binary op
  | _ => Precedence.call

/-- The expression may stand bare on the stack: the token after its first operand completes
nothing, only a primary expression comes right after `new`, and no bare sequence among items. -/
def Admits (e : Expr) : List Frame → Prop
  | [] => True
  | .construct :: _ => e.precedence = Precedence.primary
  | .sequence _ :: _ | .list _ _ :: _ => Precedence.assignment ≤ e.precedence
  | frame :: _ => frame.level < goesOn e

theorem one_le_precedence (e : Expr) : 1 ≤ e.precedence := by
  cases e with
  | binary op _ _ => exact Nat.le_trans (by decide) (binary_between op).1
  | logical op _ _ => exact Nat.le_trans (by decide) (logical_between op).1
  | number x =>
    rw [Expr.precedence]
    split <;> decide
  | _ => exact Nat.le_of_ble_eq_true rfl

theorem precedence_le_primary (e : Expr) : e.precedence ≤ Precedence.primary := by
  cases e with
  | binary op _ _ => exact Nat.le_trans (binary_between op).2 (by decide)
  | logical op _ _ => exact Nat.le_trans (logical_between op).2 (by decide)
  | number x =>
    rw [Expr.precedence]
    split <;> decide
  | _ => exact Nat.le_of_ble_eq_true rfl

theorem lt_goesOn {e : Expr} {level : Nat} (hlevel : level ≤ Precedence.unary)
    (h : level < e.precedence ∨ Precedence.unary ≤ e.precedence ∨
      level ≤ Precedence.conditional ∧ Precedence.assignment ≤ e.precedence) :
        level < goesOn e := by
  simp only [Precedence.unary, Precedence.conditional, Precedence.assignment] at hlevel h
  cases e with
  | binary op _ _ =>
    have := binary_between op
    simp only [Expr.precedence, goesOn] at *
    omega
  | logical op _ _ =>
    have := logical_between op
    simp only [Expr.precedence, goesOn] at *
    omega
  | sequence _ =>
    simp only [Expr.precedence, goesOn, Precedence.sequence, Precedence.assignment] at *
    omega
  | conditional _ _ _ =>
    simp only [Expr.precedence, goesOn, Precedence.conditional] at *
    omega
  | _ =>
    simp only [goesOn, Precedence.call]
    omega

theorem goesOn_pos (e : Expr) : 0 < goesOn e :=
  lt_goesOn (Nat.zero_le _) (.inl (one_le_precedence e))

theorem precedence_le_goesOn {e : Expr} (h : e.precedence ≠ Precedence.primary) :
    e.precedence ≤ goesOn e := by
  cases e with
  | number x =>
    rw [Expr.precedence] at h ⊢
    split
    · exact (by decide : Precedence.unary ≤ Precedence.call)
    · exact absurd (if_neg (by assumption)) h
  | logical _ _ _ | binary _ _ _ => exact Nat.le_refl _
  | sequence _ | assign _ _ _ | conditional _ _ _ | unary _ _ | call _ _ | new _ _ | member _ _
  | index _ _ => exact Nat.le_of_ble_eq_true rfl
  | _ => exact absurd rfl h

theorem Admits.loose {e : Expr} {stack : List Frame} (h : Admits e stack) :
    Loose (goesOn e) stack := by
  intro frame hframe
  cases stack with
  | nil => cases hframe
  | cons top stack =>
    obtain rfl : top = frame := Option.some.inj hframe
    cases top with
    | construct => exact goesOn_pos e
    | sequence _ => exact lt_goesOn (Frame.level_le _) (.inl h)
    | list _ _ => exact goesOn_pos e
    | _ => exact h

/-- The first operand may stand where the expression may. -/
theorem Admits.first {e operand : Expr} {stack : List Frame} (h : Admits e stack)
    (hprimary : e.precedence ≠ Precedence.primary) (hle : goesOn e ≤ operand.precedence) :
    Admits operand stack := by
  cases stack with
  | nil => trivial
  | cons frame stack =>
    cases frame with
    | construct => exact absurd h hprimary
    | sequence _ | list _ _ =>
      exact Nat.le_trans h (Nat.le_trans (precedence_le_goesOn hprimary) hle)
    | _ => exact lt_goesOn (Frame.level_le _) (.inl (Nat.lt_of_lt_of_le h hle))

/-- The tokens of a bare expression are read as its value. -/
def Parses (level : Nat) (e : Expr) : Prop := ∀ (stack : List Frame) (rest : List Token),
  Admits e stack → Follows e.precedence rest →
    run (.operand stack) (Piece.tokens (e.pieces level 0) ++ rest) = run (.value e stack) rest

variable {level : Nat} {e : Expr} {stack : List Frame} {rest : List Token}

/-- In parentheses it may stand anywhere. -/
theorem Parses.at (h : Parses level e) {least : Nat}
    (hstack : least ≤ e.precedence → Admits e stack) (hrest : Follows least rest) :
    run (.operand stack) (Piece.tokens (e.pieces level least) ++ rest) =
      run (.value e stack) rest := by
  rw [Expr.pieces_eq]
  by_cases hlt : e.precedence < least
  · have hclose : connective? (.punct ")") = some (.closer ")") := rfl
    have hinner := h (.group :: stack) (.punct ")" :: rest) (goesOn_pos e)
      (follows_cons hclose (one_le_precedence e) rest)
    have hloose : Loose Precedence.sequence (.group :: stack) := by
      intro frame hframe
      cases hframe
      exact Nat.zero_lt_one
    rw [if_pos hlt, Piece.parens, Piece.tokens_punct, Piece.tokens_append, List.cons_append,
      List.append_assoc]
    calc run (.operand stack)
          (.punct "(" :: (Piece.tokens (e.pieces level 0) ++ ([Token.punct ")"] ++ rest)))
      _ = run (.operand (.group :: stack))
          (Piece.tokens (e.pieces level 0) ++ ([Token.punct ")"] ++ rest)) := rfl
      _ = run (.value e (.group :: stack)) (.punct ")" :: rest) := hinner
      _ = run (.value e stack) rest := run_connective hclose hloose
  · rw [if_neg hlt]
    exact h stack rest (hstack (Nat.le_of_not_lt hlt)) (hrest.mono (Nat.le_of_not_lt hlt))

@[simp] theorem tokens_piece (op : BinaryOp) (pieces : List Piece) :
    Piece.tokens (op.piece :: pieces) = operatorToken op :: Piece.tokens pieces := by
  rw [BinaryOp.piece, operatorToken]
  split <;> rfl

/-- A token between two operands. -/
theorem run_between {left right : Expr} {token : Token} {connective : Connective} {frame : Frame}
    {first second : Nat} (hleft : Parses level left) (hright : Parses level right)
    (htoken : connective? token = some connective) (hfirst : connective.level ≤ first)
    (hact : connective.act left stack = some (.operand (frame :: stack)))
    (hstack : Loose connective.level stack)
    (hstackLeft : first ≤ left.precedence → Admits left stack) (hframe : frame.level ≠ 0)
    (hsecond : frame.level ≤ second)
    (hstackRight : second ≤ right.precedence → Admits right (frame :: stack))
    (hrest : Follows frame.level rest) :
    run (.operand stack) (Piece.tokens (left.pieces level first) ++
        token :: (Piece.tokens (right.pieces level second) ++ rest)) =
      run (.value (frame.fill right) stack) rest := by
  rw [hleft.at hstackLeft (follows_cons htoken hfirst _), run_connective htoken hstack, hact,
    Option.bind_some, hright.at hstackRight (hrest.mono hsecond), run_fill hframe hrest]

/-- The step at a binary operator. -/
theorem parses_binary (op : BinaryOp) {left right : Expr} (hleft : Parses level left)
    (hright : Parses level right) : Parses level (.binary op left right) := by
  intro stack rest hstack hrest
  have hbetween := binary_between op
  have hprimary : Precedence.binary op ≠ Precedence.primary :=
    Nat.ne_of_lt (Nat.lt_of_le_of_lt hbetween.2 (by decide))
  have hstackRight : Precedence.binary op + 1 ≤ right.precedence →
      Admits right (.binary op left :: stack) := fun hle => lt_goesOn (Frame.level_le _) (.inl hle)
  simp only [Expr.bare_binary, Piece.tokens_append, Piece.tokens_space, tokens_piece,
    List.append_assoc, List.cons_append]
  exact run_between hleft hright (connective?_binary op) (Nat.le_refl _) rfl hstack.loose
    (hstack.first hprimary) (Nat.ne_of_gt (Nat.le_trans (by decide) hbetween.1)) (Nat.le_succ _)
    hstackRight hrest

theorem parses_logical (op : LogicalOp) {left right : Expr} (hleft : Parses level left)
    (hright : Parses level right) : Parses level (.logical op left right) := by
  intro stack rest hstack hrest
  have hbetween := logical_between op
  have hprimary : Precedence.logical op ≠ Precedence.primary :=
    Nat.ne_of_lt (Nat.lt_of_le_of_lt hbetween.2 (by decide))
  have hstackRight : Precedence.logical op + 1 ≤ right.precedence →
      Admits right (.logical op left :: stack) := fun hle => lt_goesOn (Frame.level_le _) (.inl hle)
  simp only [Expr.bare_logical, Piece.tokens_append, Piece.tokens_space, Piece.tokens_punct,
    List.append_assoc, List.cons_append]
  exact run_between hleft hright (connective?_logical op) (Nat.le_refl _) rfl hstack.loose
    (hstack.first hprimary) (Nat.ne_of_gt (Nat.le_trans (by decide) hbetween.1)) (Nat.le_succ _)
    hstackRight hrest

theorem parses_assign {target value : Expr} {op : Option BinaryOp}
    (hop : ∀ compound ∈ op, compound.isCompound = true) (htarget : Parses level target)
    (hvalue : Parses level value) : Parses level (.assign target op value) := by
  intro stack rest hstack hrest
  have hlevel : Precedence.assignment ≤ Precedence.conditional := by decide
  have hstackValue : Precedence.assignment ≤ value.precedence →
      Admits value (.assign target op :: stack) := fun hle =>
    lt_goesOn (Frame.level_le _) (.inr (.inr ⟨hlevel, hle⟩))
  simp only [Expr.bare_assign, Piece.tokens_append, Piece.tokens_space, Piece.tokens_punct,
    List.append_assoc, List.cons_append]
  exact run_between htarget hvalue (connective?_assign hop) (Nat.le_refl _) rfl (loose_call stack)
    (hstack.first (Nat.ne_of_beq_eq_false rfl)) (Nat.succ_ne_zero _)
      (Nat.le_refl _) hstackValue hrest

theorem parses_unary (op : UnaryOp) {operand : Expr} (hoperand : Parses level operand) :
    Parses level (.unary op operand) := by
  intro stack rest _ hrest
  have hbegin : ∀ tokens : List Token, run (.operand stack)
      (Piece.tokens (if op.isWord then [.word op.text, .space] else [.punct op.text]) ++ tokens) =
        run (.operand (.unary op :: stack)) tokens := by
    intro tokens
    cases op <;> rfl
  have hstackOperand : Precedence.unary ≤ operand.precedence →
      Admits operand (.unary op :: stack) :=
    fun hle => lt_goesOn (Frame.level_le _) (.inr (.inl hle))
  rw [Expr.bare_unary, Piece.tokens_append, List.append_assoc, hbegin,
    hoperand.at hstackOperand hrest]
  exact run_fill (Nat.succ_ne_zero _) hrest

/-- The step at a conditional. -/
theorem parses_conditional {condition thenExpr elseExpr : Expr}
    (hcondition : Parses level condition) (hthen : Parses level thenExpr)
    (helse : Parses level elseExpr) :
    Parses level (.conditional condition thenExpr elseExpr) := by
  intro stack rest hstack hrest
  have hquestion : connective? (.punct "?") = some .question := rfl
  have hcolon : connective? (.punct ":") = some .colon := rfl
  have hstackCondition : Precedence.conditional + 1 ≤ condition.precedence →
      Admits condition stack :=
    hstack.first (Nat.ne_of_beq_eq_false rfl)
  have hstackThen : Precedence.assignment ≤ thenExpr.precedence →
      Admits thenExpr (.thenBranch condition :: stack) := fun _ => goesOn_pos thenExpr
  have hstackElse : Precedence.assignment ≤ elseExpr.precedence →
      Admits elseExpr (.elseBranch condition thenExpr :: stack) := fun hle =>
    lt_goesOn (Frame.level_le _) (.inr (.inr ⟨Nat.le_refl _, hle⟩))
  have hloose : Loose Precedence.assignment (.thenBranch condition :: stack) := by
    intro frame hframe
    cases hframe
    exact Nat.zero_lt_two
  simp only [Expr.bare_conditional, Piece.tokens_append, Piece.tokens_space, Piece.tokens_punct,
    List.append_assoc, List.cons_append]
  rw [hcondition.at hstackCondition (follows_cons hquestion (Nat.le_refl _) _),
    run_connective hquestion hstack.loose, Connective.act, Option.bind_some,
    hthen.at hstackThen (follows_cons hcolon (Nat.le_refl _) _),
    run_connective hcolon hloose, Connective.act, Option.bind_some,
    helse.at hstackElse hrest.assignment]
  exact run_fill (Nat.succ_ne_zero _) hrest

theorem parses_member {object : Expr} (property : String) (hobject : Parses level object) :
    Parses level (.member object property) := by
  intro stack rest hstack _
  have hdot : connective? (.punct ".") = some .dot := rfl
  have hstackObject : Precedence.call ≤ object.precedence → Admits object stack :=
    hstack.first (Nat.ne_of_beq_eq_false rfl)
  simp only [Expr.bare_member, Piece.tokens_append, Piece.tokens_punct, Piece.tokens_word,
    Piece.tokens_nil, List.append_assoc, List.cons_append, List.nil_append]
  rw [hobject.at hstackObject (follows_cons hdot (Nat.le_refl _) _),
    run_connective hdot (loose_call stack)]
  rfl

theorem parses_index {object key : Expr} (hobject : Parses level object) (hkey : Parses level key) :
    Parses level (.index object key) := by
  intro stack rest hstack _
  have hopen : connective? (.punct "[") = some .subscript := rfl
  have hclose : connective? (.punct "]") = some (.closer "]") := rfl
  have hloose : Loose Precedence.sequence (.index object :: stack) := by
    intro frame hframe
    cases hframe
    exact Nat.zero_lt_one
  have hstackObject : Precedence.call ≤ object.precedence → Admits object stack :=
    hstack.first (Nat.ne_of_beq_eq_false rfl)
  have hstackKey : Precedence.sequence ≤ key.precedence → Admits key (.index object :: stack) :=
    fun _ => goesOn_pos key
  simp only [Expr.bare_index, Piece.tokens_append, Piece.tokens_punct, Piece.tokens_nil,
    List.append_assoc, List.cons_append, List.nil_append]
  rw [hobject.at hstackObject (follows_cons hopen (Nat.le_refl _) _),
    run_connective hopen (loose_call stack), Connective.act, Option.bind_some,
    hkey.at hstackKey (follows_cons hclose (Nat.le_refl _) _), run_connective hclose hloose]
  rfl

/-- The rest of a list, up to its closing bracket. -/
theorem run_list (bracket : Bracket) {done items : List Expr}
    (hitems : ∀ item ∈ items, Parses level item) (hdone : items = [] → done = []) :
    run (.operand (.list bracket done :: stack))
        (Piece.tokens (Expr.commaPieces level items) ++ Token.punct bracket.closer :: rest) =
      run (.value (bracket.build (done ++ items)) stack) rest := by
  have hcomma : connective? (.punct ",") = some .comma := rfl
  have hclose : connective? (.punct bracket.closer) = some (.closer bracket.closer) := by
    cases bracket <;> rfl
  have hstackItem (item : Expr) (done : List Expr) :
      Precedence.assignment ≤ item.precedence → Admits item (.list bracket done :: stack) := id
  have hloose (level : Nat) (done : List Expr) :
      Loose (level + 1) (.list bracket done :: stack) := by
    intro frame hframe
    cases hframe
    exact Nat.succ_pos level
  induction items generalizing done with
  | nil =>
    obtain rfl := hdone rfl
    cases bracket <;> rfl
  | cons item others ih =>
    obtain ⟨hitem, hothers⟩ := List.forall_mem_cons.mp hitems
    cases others with
    | nil =>
      rw [Expr.commaPieces, hitem.at (hstackItem item done) (follows_cons hclose (Nat.le_succ _) _),
        run_connective hclose (hloose _ done), Connective.act, if_pos rfl, Option.bind_some]
    | cons second others =>
      rw [Expr.commaPieces.eq_3 _ _ _ (List.cons_ne_nil _ _)]
      simp only [Piece.tokens_append, Piece.tokens_punct, Piece.tokens_space, List.append_assoc,
        List.cons_append]
      rw [hitem.at (hstackItem item done) (follows_cons hcomma (Nat.le_refl _) _),
        run_connective hcomma (hloose _ done), Connective.act, Option.bind_some,
        ih hothers (fun h => absurd h (List.cons_ne_nil _ _)), ← List.append_cons]

/-- The step at a call. -/
theorem parses_call {callee : Expr} {args : List Expr} (hfunction : callee.isFunction = false)
    (hcallee : Parses level callee) (hargs : ∀ arg ∈ args, Parses level arg) :
    Parses level (.call callee args) := by
  intro stack rest hstack _
  have hopen : connective? (.punct "(") = some .parenthesis := rfl
  have hprimary : (Expr.call callee args).precedence ≠ Precedence.primary :=
    Nat.ne_of_beq_eq_false rfl
  have hstackCallee : Precedence.call ≤ callee.precedence → Admits callee stack :=
    hstack.first hprimary
  have hact : Connective.parenthesis.act callee stack =
      some (.operand (.list (.call callee) [] :: stack)) := by
    cases stack with
    | nil => rfl
    | cons frame stack =>
      cases frame with
      | construct => exact absurd hstack hprimary
      | _ => rfl
  rw [Expr.bare_call level hfunction]
  simp only [Piece.parens, Piece.tokens_append, Piece.tokens_punct, Piece.tokens_nil,
    List.append_assoc, List.cons_append, List.nil_append]
  rw [hcallee.at hstackCallee (follows_cons hopen (Nat.le_refl _) _),
    run_connective hopen (loose_call stack), hact, Option.bind_some]
  exact run_list (.call callee) hargs fun _ => rfl

theorem parses_new {callee : Expr} {args : List Expr} (hcallee : Parses level callee)
    (hargs : ∀ arg ∈ args, Parses level arg) : Parses level (.new callee args) := by
  intro stack rest _ _
  have hopen : connective? (.punct "(") = some .parenthesis := rfl
  have hstackCallee : Precedence.primary ≤ callee.precedence →
      Admits callee (.construct :: stack) :=
    Nat.le_antisymm (precedence_le_primary callee)
  have hnew (tokens : List Token) : run (.operand stack) (.word "new" :: tokens) =
      run (.operand (.construct :: stack)) tokens := rfl
  rw [Expr.bare_new]
  simp only [Piece.parens, Piece.tokens_append, Piece.tokens_word, Piece.tokens_space,
    Piece.tokens_punct, Piece.tokens_nil, List.append_assoc, List.cons_append, List.nil_append]
  rw [hnew, hcallee.at hstackCallee (follows_cons hopen (Nat.le_succ _) _),
    run_connective hopen (loose_call _), Connective.act, Option.bind_some]
  exact run_list (.new callee) hargs fun _ => rfl

theorem parses_array {items : List Expr} (hitems : ∀ item ∈ items, Parses level item) :
    Parses level (.array items) := by
  intro stack rest _ _
  have hopen (tokens : List Token) : run (.operand stack) (.punct "[" :: tokens) =
      run (.operand (.list .array [] :: stack)) tokens := rfl
  simp only [Expr.bare_array, Piece.tokens_append, Piece.tokens_punct, Piece.tokens_nil,
    List.append_assoc, List.cons_append, List.nil_append]
  rw [hopen]
  exact run_list .array hitems fun _ => rfl

/-- The rest of a sequence, after its first items. -/
theorem run_sequence {done items : List Expr} (hitems : ∀ item ∈ items, Parses level item)
    (hne : items ≠ []) (hrest : Follows Precedence.sequence rest) :
    run (.operand (.sequence done :: stack)) (Piece.tokens (Expr.commaPieces level items) ++ rest) =
      run (.value (.sequence (done ++ items)) stack) rest := by
  have hcomma : connective? (.punct ",") = some .comma := rfl
  have hstackItem (item : Expr) (done : List Expr) :
      Precedence.assignment ≤ item.precedence → Admits item (.sequence done :: stack) := id
  have hloose (done : List Expr) : Loose Precedence.assignment (.sequence done :: stack) := by
    intro frame hframe
    cases hframe
    exact Nat.one_lt_two
  induction items generalizing done with
  | nil => exact absurd rfl hne
  | cons item others ih =>
    obtain ⟨hitem, hothers⟩ := List.forall_mem_cons.mp hitems
    cases others with
    | nil =>
      rw [Expr.commaPieces, hitem.at (hstackItem item done) (hrest.mono (Nat.le_succ _))]
      exact run_fill Nat.one_ne_zero hrest
    | cons second others =>
      rw [Expr.commaPieces.eq_3 _ _ _ (List.cons_ne_nil _ _)]
      simp only [Piece.tokens_append, Piece.tokens_punct, Piece.tokens_space, List.append_assoc,
        List.cons_append]
      rw [hitem.at (hstackItem item done) (follows_cons hcomma (Nat.le_refl _) _),
        run_connective hcomma (hloose done), Connective.act, Option.bind_some,
        ih hothers (List.cons_ne_nil _ _), ← List.append_cons]

/-- The step at a sequence. -/
theorem parses_sequence {items : List Expr} (hlength : 2 ≤ items.length)
    (hitems : ∀ item ∈ items, Parses level item) : Parses level (.sequence items) := by
  intro stack rest hstack hrest
  have hcomma : connective? (.punct ",") = some .comma := rfl
  obtain ⟨first, second, others, rfl⟩ : ∃ first second others,
      items = first :: second :: others := by
    cases items with
    | nil => cases hlength
    | cons first others =>
      cases others with
      | nil => exact absurd hlength (Nat.not_succ_le_self 1)
      | cons second others => exact ⟨first, second, others, rfl⟩
  obtain ⟨hfirst, hothers⟩ := List.forall_mem_cons.mp hitems
  have hstackFirst : Precedence.assignment ≤ first.precedence → Admits first stack :=
    hstack.first (Nat.ne_of_beq_eq_false rfl)
  -- A bare sequence is not among the items of another, so the comma begins one.
  have hact : Connective.comma.act first stack = some (.operand (.sequence [first] :: stack)) := by
    have hbare : ¬ Precedence.assignment ≤ Precedence.sequence := by decide
    cases stack with
    | nil => rfl
    | cons frame stack =>
      cases frame with
      | sequence _ | list _ _ => exact absurd hstack hbare
      | _ => rfl
  rw [Expr.bare_sequence, Expr.commaPieces.eq_3 _ _ _ (List.cons_ne_nil _ _)]
  simp only [Piece.tokens_append, Piece.tokens_punct, Piece.tokens_space, List.append_assoc,
    List.cons_append]
  rw [hfirst.at hstackFirst (follows_cons hcomma (Nat.le_refl _) _),
    run_connective hcomma hstack.loose, hact, Option.bind_some]
  exact run_sequence hothers (List.cons_ne_nil _ _) hrest

/-- A word that is not reserved is a variable. -/
theorem beginWord_ident {name : String} (h : name ∉ reservedWords) (stack : List Frame) :
    beginWord name stack = .value (.ident name) stack := by
  have hnew : name ≠ "new" := by
    rintro rfl
    exact h (by decide)
  have hunary : UnaryOp.all.find? (fun op => op.isWord && op.text == name) = none := by
    have hall : ∀ op ∈ UnaryOp.all, op.isWord = true → op.text ∈ reservedWords := by decide
    rw [List.find?_eq_none]
    intro op hop hfound
    obtain ⟨hword, htext⟩ := (Bool.and_eq_true _ _).mp hfound
    exact h (eq_of_beq htext ▸ hall op hop hword)
  have hconstant : constants.lookup name = none := by
    have hall : ∀ text ∈ constants.map Prod.fst, text ∈ reservedWords := by decide
    rw [List.lookup_eq_none_iff]
    intro entry hentry
    rw [bne_iff_ne]
    rintro rfl
    exact h (hall _ (List.mem_map_of_mem hentry))
  rw [beginWord, if_neg hnew, hunary, hconstant]
  rfl

end Expressions

end Parse

namespace Expr

open Parse

/-- Every legible expression is read from its tokens. -/
theorem Legible.parses {e : Expr} (h : e.Legible) (level : Nat) : Parses level e := by
  induction h with
  | undefined | null | this => exact fun _ _ _ _ => rfl
  | bool value => cases value <;> exact fun _ _ _ _ => rfl
  | string value => exact fun _ _ _ _ => rfl
  | ident _ hname =>
    intro stack rest _ _
    rw [bare_ident, Piece.tokens_word, Piece.tokens_nil, List.cons_append, run, step,
      beginWord_ident hname]
    rfl
  | member _ _ ih => exact parses_member _ ih
  | index _ _ ihobject ihkey => exact parses_index ihobject ihkey
  | call hcallee _ ih ihargs => exact parses_call hcallee.isFunction ih ihargs
  | new _ _ ih ihargs => exact parses_new ih ihargs
  | assign _ hop _ ihtarget ihvalue => exact parses_assign hop ihtarget ihvalue
  | binary op _ _ ihleft ihright => exact parses_binary op ihleft ihright
  | logical op _ _ ihleft ihright => exact parses_logical op ihleft ihright
  | unary op _ ih => exact parses_unary op ih
  | conditional _ _ _ ihcondition ihthen ihelse =>
    exact parses_conditional ihcondition ihthen ihelse
  | sequence hlength _ ih => exact parses_sequence hlength ih
  | array _ ih => exact parses_array ih

/-- A legible expression is read back from its source. -/
theorem Legible.parse?_scan_source {e : Expr} (h : e.Legible) :
    parse? (scan e.source) = some e := by
  have hend : Follows Precedence.sequence [] := by
    intro token htoken
    cases htoken
  have hrun : run (.operand []) (Piece.tokens (e.pieces 0 Precedence.sequence) ++ []) =
      run (.value e []) [] := (h.parses 0).at (fun _ => trivial) hend
  rw [h.scan_source, parse?, ← List.append_nil (Piece.tokens _), hrun]
  rfl

/-- Precedence and parentheses determine the tree: two legible expressions have the same text
only if they are the same. -/
theorem source_eq_source_iff {e e' : Expr} (h : e.Legible) (h' : e'.Legible) :
    e.source = e'.source ↔ e = e' := by
  constructor
  · intro hsource
    have hparse : some e = some e' := by
      rw [← h.parse?_scan_source, hsource, h'.parse?_scan_source]
    exact Option.some.inj hparse
  · exact congrArg source

/-- Parentheses tell `a - (b - c)` from `a - b - c`. -/
theorem source_nested_sub_ne :
    (binary .sub (ident "a") (binary .sub (ident "b") (ident "c"))).source ≠
      (binary .sub (binary .sub (ident "a") (ident "b")) (ident "c")).source := by
  have hword (name : String) (h : IsWord name ∧ name ∉ reservedWords) : (ident name).Legible :=
    .ident h.1 h.2
  have ha := hword "a" (by decide)
  have hb := hword "b" (by decide)
  have hc := hword "c" (by decide)
  rw [Ne, source_eq_source_iff (.binary .sub ha (.binary .sub hb hc))
    (.binary .sub (.binary .sub ha hb) hc)]
  intro heq
  cases heq

end Expr

end StaticInliner
