import StaticInliner.Proofs.Reading.Scan

/-!
Legible expressions: those without numbers and function literals, whose names are words of
their own, whose assignments are not spelled like comparisons, and whose sequences have two
items or more. Their texts are read as the tokens they were written with.
-/
namespace StaticInliner

/-- Words that stand for something else than a variable. -/
def reservedWords : List String :=
  ["undefined", "null", "true", "false", "this", "new", "typeof", "void", "delete", "in",
    "instanceof"]

/-- Arithmetic, bitwise and shift operators, which may stand before `=`. -/
def BinaryOp.isCompound : BinaryOp → Bool
  | .add | .sub | .mul | .div | .mod | .bitAnd | .bitOr | .bitXor | .shl | .shr | .ushr => true
  | .eq | .notEq | .strictEq | .strictNotEq | .lt | .le | .gt | .ge | .instanceOf | .isIn => false

inductive Expr.Legible : Expr → Prop
  | undefined : Legible .undefined
  | null : Legible .null
  | bool (value : Bool) : Legible (.bool value)
  | string (value : String) : Legible (.string value)
  | ident {name : String} : IsWord name → name ∉ reservedWords → Legible (.ident name)
  | this : Legible .this
  | member {object : Expr} {property : String} : Legible object → IsWord property →
    Legible (.member object property)
  | index {object key : Expr} : Legible object → Legible key → Legible (.index object key)
  | call {callee : Expr} {args : List Expr} : Legible callee → (∀ arg ∈ args, Legible arg) →
    Legible (.call callee args)
  | new {callee : Expr} {args : List Expr} : Legible callee → (∀ arg ∈ args, Legible arg) →
    Legible (.new callee args)
  | assign {target value : Expr} {op : Option BinaryOp} : Legible target →
    (∀ compound ∈ op, compound.isCompound = true) → Legible value →
      Legible (.assign target op value)
  | binary {left right : Expr} (op : BinaryOp) : Legible left → Legible right →
    Legible (.binary op left right)
  | logical {left right : Expr} (op : LogicalOp) : Legible left → Legible right →
    Legible (.logical op left right)
  | unary {operand : Expr} (op : UnaryOp) : Legible operand → Legible (.unary op operand)
  | conditional {condition thenExpr elseExpr : Expr} : Legible condition → Legible thenExpr →
    Legible elseExpr → Legible (.conditional condition thenExpr elseExpr)
  | sequence {items : List Expr} : 2 ≤ items.length → (∀ item ∈ items, Legible item) →
    Legible (.sequence items)
  | array {items : List Expr} : (∀ item ∈ items, Legible item) → Legible (.array items)

namespace Expr

/-- Parentheses are put around the whole expression or not at all. -/
theorem pieces_eq (level least : Nat) (e : Expr) : e.pieces level least =
    if e.precedence < least then Piece.parens (e.pieces level 0) else e.pieces level 0 := by
  rw [Expr.pieces.eq_def, Expr.pieces.eq_def level 0 e]
  simp

section Bare

variable (level : Nat)

@[simp] theorem bare_undefined : undefined.pieces level 0 = [.word "undefined"] := rfl
@[simp] theorem bare_null : null.pieces level 0 = [.word "null"] := rfl
@[simp] theorem bare_bool (value : Bool) :
    (bool value).pieces level 0 = [.word (if value then "true" else "false")] := rfl
@[simp] theorem bare_string (value : String) :
    (string value).pieces level 0 = [.token (.quoted value)] := rfl
@[simp] theorem bare_ident (name : String) : (ident name).pieces level 0 = [.word name] := rfl
@[simp] theorem bare_this : this.pieces level 0 = [.word "this"] := rfl
@[simp] theorem bare_member (object : Expr) (property : String) :
    (member object property).pieces level 0 =
      object.pieces level Precedence.call ++ [Piece.punct ".", .word property] := rfl
@[simp] theorem bare_index (object key : Expr) : (index object key).pieces level 0 =
    object.pieces level Precedence.call ++
      Piece.punct "[" :: (key.pieces level Precedence.sequence ++ [Piece.punct "]"]) := rfl
@[simp] theorem bare_new (callee : Expr) (args : List Expr) : (new callee args).pieces level 0 =
    .word "new" :: .space ::
      (callee.pieces level Precedence.primary ++ Piece.parens (Expr.commaPieces level args)) := rfl
@[simp] theorem bare_assign (target value : Expr) (op : Option BinaryOp) :
    (assign target op value).pieces level 0 = target.pieces level Precedence.call ++
      .space :: .punct (Expr.assignmentText op) :: .space ::
        value.pieces level Precedence.assignment := rfl
@[simp] theorem bare_binary (op : BinaryOp) (left right : Expr) :
    (binary op left right).pieces level 0 = left.pieces level (Precedence.binary op) ++
      .space :: op.piece :: .space :: right.pieces level (Precedence.binary op + 1) := by
  rw [Expr.pieces, if_neg (Nat.not_lt_zero _)]
@[simp] theorem bare_logical (op : LogicalOp) (left right : Expr) :
    (logical op left right).pieces level 0 = left.pieces level (Precedence.logical op) ++
      .space :: .punct op.text :: .space :: right.pieces level (Precedence.logical op + 1) := by
  rw [Expr.pieces, if_neg (Nat.not_lt_zero _)]
@[simp] theorem bare_unary (op : UnaryOp) (operand : Expr) : (unary op operand).pieces level 0 =
    (if op.isWord then [Piece.word op.text, .space] else [.punct op.text]) ++
      operand.pieces level Precedence.unary := rfl
@[simp] theorem bare_conditional (condition thenExpr elseExpr : Expr) :
    (conditional condition thenExpr elseExpr).pieces level 0 =
      condition.pieces level (Precedence.conditional + 1) ++
        .space :: .punct "?" :: .space ::
          (thenExpr.pieces level Precedence.assignment ++
            .space :: .punct ":" :: .space :: elseExpr.pieces level Precedence.assignment) := rfl
@[simp] theorem bare_sequence (items : List Expr) :
    (sequence items).pieces level 0 = Expr.commaPieces level items := rfl
@[simp] theorem bare_array (items : List Expr) : (array items).pieces level 0 =
    Piece.punct "[" :: (Expr.commaPieces level items ++ [Piece.punct "]"]) := rfl

/-- Only a function literal as callee has parentheses of its own. -/
theorem bare_call {callee : Expr} (h : callee.isFunction = false) (args : List Expr) :
    (call callee args).pieces level 0 =
      callee.pieces level Precedence.call ++ Piece.parens (Expr.commaPieces level args) := by
  rw [Expr.pieces, if_neg (Nat.not_lt_zero _)]
  simp [h]

end Bare

/-- A list has a comma and a blank before every item but the first. -/
theorem commaPieces_cons (level : Nat) (first : Expr) (rest : List Expr) :
    Expr.commaPieces level (first :: rest) = first.pieces level Precedence.assignment ++
      rest.flatMap fun item => .punct "," :: .space :: item.pieces level Precedence.assignment := by
  induction rest generalizing first with
  | nil => rw [Expr.commaPieces, List.flatMap_nil, List.append_nil]
  | cons second rest ih =>
    rw [Expr.commaPieces, ih second, List.flatMap_cons]
    · rfl
    · exact List.cons_ne_nil _ _

theorem Legible.isFunction {e : Expr} (h : e.Legible) : e.isFunction = false := by
  cases h <;> rfl

end Expr

section Operators

theorem UnaryOp.isWord_text {op : UnaryOp} (h : op.isWord = true) : IsWord op.text := by
  cases op with
  | not | neg | plus | bitNot => cases h
  | typeOf | void | delete => decide

theorem UnaryOp.sign_text {op : UnaryOp} (h : op.isWord = false) :
    ∃ c, op.text = .ofList [c] ∧ isSignChar c = true := by
  cases op with
  | not | neg | plus | bitNot => exact ⟨_, rfl, rfl⟩
  | typeOf | void | delete => cases h

theorem BinaryOp.isWord_text {op : BinaryOp} (h : op.isWord = true) : IsWord op.text := by
  cases op with
  | instanceOf | isIn => decide
  | _ => cases h

theorem BinaryOp.signs_text {op : BinaryOp} (h : op.isWord = false) : IsSigns op.text := by
  cases op with
  | instanceOf | isIn => cases h
  | _ => decide

theorem LogicalOp.signs_text (op : LogicalOp) : IsSigns op.text := by
  cases op <;> decide

theorem Expr.signs_assignmentText {op : Option BinaryOp}
    (h : ∀ compound ∈ op, compound.isCompound = true) :
    IsSigns (Expr.assignmentText op) := by
  cases op with
  | none => decide
  | some op =>
    have hop := h op rfl
    revert hop
    cases op <;> decide

end Operators

section Tight

theorem tight_of_isWord {text : String} (h : IsWord text) (rest : List Char) :
    Tight (text.toList ++ rest) := by
  obtain ⟨hne, hchars⟩ := h
  cases hlist : text.toList with
  | nil => exact absurd (String.toList_eq_nil_iff.mp hlist) hne
  | cons c chars =>
    rw [hlist] at hchars
    have hc := List.all_eq_true.mp hchars c List.mem_cons_self
    rw [List.cons_append, Tight, if_neg (by simp [Scan.isSignChar_of_isWordChar hc])]
    exact Scan.ne_space_of_isWordChar hc

theorem tight_word {text : String} (h : IsWord text) (pieces : List Piece) (rest : List Char) :
    Tight (Piece.chars (.word text :: pieces) ++ rest) := by
  rw [Piece.chars_cons, List.append_assoc]
  exact tight_of_isWord h _

theorem tight_parens (pieces : List Piece) (rest : List Char) :
    Tight (Piece.chars (Piece.parens pieces) ++ rest) := by
  rw [Piece.parens, Piece.chars_cons, List.append_assoc]
  exact (by decide : '(' ≠ ' ')

theorem tight_at {level : Nat} {e : Expr}
    (h : ∀ rest, Tight (Piece.chars (e.pieces level 0) ++ rest)) (least : Nat) (rest : List Char) :
    Tight (Piece.chars (e.pieces level least) ++ rest) := by
  rw [Expr.pieces_eq]
  split
  · exact tight_parens _ rest
  · exact h rest

/-- The text of an expression begins with an operator in front or with an operand. -/
theorem Expr.Legible.tight {e : Expr} (h : e.Legible) (level : Nat) (rest : List Char) :
    Tight (Piece.chars (e.pieces level 0) ++ rest) := by
  induction h generalizing rest with
  | undefined | null | this => exact tight_word (by decide) [] rest
  | bool value => cases value <;> exact tight_word (by decide) [] rest
  | ident hname _ => exact tight_word hname [] rest
  | new _ _ _ _ => exact tight_word (by decide) _ rest
  | string value =>
    rw [bare_string, Piece.chars_cons, Piece.text, Token.text, String.toList_ofList,
      List.append_assoc, List.cons_append, Tight, if_neg (by decide)]
    decide
  | array _ _ =>
    rw [bare_array]
    exact (by decide : '[' ≠ ' ')
  | member _ _ ih | index _ _ ih _ | assign _ _ _ ih _ | binary _ _ _ ih _ | logical _ _ _ ih _
  | conditional _ _ _ ih _ _ =>
    simp only [bare_member, bare_index, bare_assign, bare_binary, bare_logical, bare_conditional,
      Piece.chars_append, List.append_assoc]
    exact tight_at ih _ _
  | call hcallee _ ih _ =>
    rw [bare_call level hcallee.isFunction, Piece.chars_append, List.append_assoc]
    exact tight_at ih _ _
  | unary op _ ih =>
    rw [bare_unary]
    cases hword : op.isWord with
    | true =>
      exact tight_word (UnaryOp.isWord_text hword) _ rest
    | false =>
      obtain ⟨c, htext, hc⟩ := UnaryOp.sign_text hword
      simp only [Bool.false_eq_true, if_false, List.singleton_append, Piece.chars_cons,
        List.append_assoc]
      rw [Piece.punct, Piece.text, Token.text, htext, String.toList_ofList, List.singleton_append,
        Tight, if_pos hc]
      exact tight_at ih _ _
  | @sequence items hlength _ ih =>
    cases items with
    | nil => cases hlength
    | cons first others =>
      rw [bare_sequence, commaPieces_cons, Piece.chars_append, List.append_assoc]
      exact tight_at (ih first List.mem_cons_self) _ _

end Tight

section Reads

/-- The pieces are read as their tokens, if no word character follows. -/
def Reads (pieces : List Piece) : Prop := ∀ (tokens : List Token) (rest : List Char), Outside rest →
  Scan.read ⟨tokens, .none⟩ (Piece.chars pieces ++ rest) =
    Scan.read ⟨tokens ++ Piece.tokens pieces, .none⟩ rest

/-- The pieces are read as their tokens, whatever follows. -/
def Closes (pieces : List Piece) : Prop := ∀ (tokens : List Token) (rest : List Char),
  Scan.read ⟨tokens, .none⟩ (Piece.chars pieces ++ rest) =
    Scan.read ⟨tokens ++ Piece.tokens pieces, .none⟩ rest

/-- The pieces do not begin with a word character. -/
def Parts (pieces : List Piece) : Prop := ∀ rest : List Char, Outside (Piece.chars pieces ++ rest)

variable {first second : List Piece}

theorem Closes.reads (h : Closes first) : Reads first := fun tokens rest _ => h tokens rest

theorem Closes.append (h : Closes first) (h' : Closes second) : Closes (first ++ second) := by
  intro tokens rest
  rw [Piece.chars_append, List.append_assoc, h, h', Piece.tokens_append, List.append_assoc]

theorem Closes.append_reads (h : Closes first) (h' : Reads second) : Reads (first ++ second) := by
  intro tokens rest hrest
  rw [Piece.chars_append, List.append_assoc, h, h' _ _ hrest, Piece.tokens_append,
    List.append_assoc]

/-- Pieces that are read one after another. -/
theorem Reads.append (h : Reads first) (hparts : Parts second) (h' : Reads second) :
    Reads (first ++ second) := by
  intro tokens rest hrest
  rw [Piece.chars_append, List.append_assoc, h _ _ (hparts rest), h' _ _ hrest, Piece.tokens_append,
    List.append_assoc]

theorem Reads.append_closes (h : Reads first) (hparts : Parts second) (h' : Closes second) :
    Closes (first ++ second) := by
  intro tokens rest
  rw [Piece.chars_append, List.append_assoc, h _ _ (hparts rest), h', Piece.tokens_append,
    List.append_assoc]

theorem reads_nil : Reads [] := by
  intro tokens rest _
  rw [Piece.chars_nil, Piece.tokens_nil, List.append_nil, List.nil_append]

theorem reads_word {text : String} (h : IsWord text) : Reads [.word text] := by
  intro tokens rest hrest
  rw [Piece.chars_cons, Piece.chars_nil, List.append_nil]
  exact Scan.read_word tokens h hrest

theorem closes_space : Closes [.space] := fun tokens rest => by
  rw [Piece.tokens_space, Piece.tokens_nil, List.append_nil]
  exact Scan.read_space tokens rest

theorem parts_space (pieces : List Piece) : Parts (.space :: pieces) := by
  intro rest c hc
  cases hc
  rfl

theorem closes_quoted (value : String) : Closes [.token (.quoted value)] := by
  intro tokens rest
  rw [Piece.chars_cons, Piece.chars_nil, List.append_nil]
  exact Scan.read_quoted tokens value rest

theorem closes_operator (text : String) (h : IsSigns text) :
    Closes [.space, .punct text, .space] := by
  intro tokens rest
  have hchars : Piece.chars [.space, .punct text, .space] ++ rest =
      ' ' :: (text.toList ++ ' ' :: rest) := by
    simp [Piece.chars, Piece.text, Piece.punct, Token.text]
  rw [hchars, Scan.read_space, Scan.read_operator tokens h]
  rfl

/-- Brackets, dots and commas. -/
theorem closes_bracket (c : Char) (h : c ∈ "()[].,".toList) : Closes [.punct (.ofList [c])] := by
  intro tokens rest
  rw [Piece.chars_cons, Piece.chars_nil, List.append_nil, Piece.punct, Piece.text, Token.text,
    String.toList_ofList]
  exact Scan.read_bracket tokens h rest

theorem parts_bracket (c : Char) (h : c ∈ "()[].,".toList) (pieces : List Piece) :
    Parts (.punct (.ofList [c]) :: pieces) := by
  intro rest other hother
  rw [Piece.chars_cons, Piece.punct, Piece.text, Token.text, String.toList_ofList] at hother
  cases hother
  exact (Scan.plain_of_bracket h).2.1

/-- An operator in front of an operand. -/
theorem Reads.sign (h : Reads first) {c : Char} (hc : isSignChar c = true)
    (htight : ∀ rest, Tight (Piece.chars first ++ rest)) :
    Reads (.punct (.ofList [c]) :: first) := by
  intro tokens rest hrest
  rw [Piece.chars_cons, Piece.punct, Piece.text, Token.text, String.toList_ofList,
    List.append_assoc, List.singleton_append, Scan.read_sign tokens hc (htight rest), h _ _ hrest,
    Scan.single, ← List.append_cons, Piece.tokens_token]

theorem BinaryOp.closes_piece (op : BinaryOp) : Closes [.space, op.piece, .space] := by
  rw [piece]
  cases hword : op.isWord with
  | true =>
    exact closes_space.append
      ((reads_word (isWord_text hword)).append_closes (parts_space []) closes_space)
  | false => exact closes_operator _ (signs_text hword)

theorem Reads.parens (h : Reads first) : Closes (Piece.parens first) :=
  (closes_bracket '(' (by decide)).append
    (h.append_closes (parts_bracket ')' (by decide) []) (closes_bracket ')' (by decide)))

/-- An expression is read with or without parentheses. -/
theorem Reads.at {level : Nat} {e : Expr} (h : Reads (e.pieces level 0)) (least : Nat) :
    Reads (e.pieces level least) := by
  rw [Expr.pieces_eq]
  split
  · exact h.parens.reads
  · exact h

/-- The run over a list of items. -/
theorem reads_commaPieces {level : Nat} {items : List Expr}
    (h : ∀ item ∈ items, Reads (item.pieces level 0)) : Reads (Expr.commaPieces level items) := by
  induction items with
  | nil => exact reads_nil
  | cons first others ih =>
    obtain ⟨hfirst, hothers⟩ := List.forall_mem_cons.mp h
    cases others with
    | nil =>
      rw [Expr.commaPieces]
      exact hfirst.at _
    | cons second others =>
      have hcomma : Closes [.punct ",", .space] :=
        (closes_bracket ',' (by decide)).append closes_space
      rw [Expr.commaPieces]
      · exact (hfirst.at _).append (parts_bracket ',' (by decide) _)
          (hcomma.append_reads (ih hothers))
      · exact List.cons_ne_nil _ _

/-- The text of a legible expression is read as its tokens. -/
theorem Expr.Legible.reads {e : Expr} (h : e.Legible) (level : Nat) : Reads (e.pieces level 0) := by
  induction h with
  | undefined | null | this => exact reads_word (by decide)
  | bool value => cases value <;> exact reads_word (by decide)
  | string value => exact (closes_quoted value).reads
  | ident hname _ => exact reads_word hname
  | member _ hproperty ih =>
    rw [bare_member]
    exact (ih.at _).append (parts_bracket '.' (by decide) _)
      ((closes_bracket '.' (by decide)).append_reads (reads_word hproperty))
  | index _ _ ihobject ihkey =>
    have hkey := (ihkey.at Precedence.sequence).append_closes (parts_bracket ']' (by decide) [])
      (closes_bracket ']' (by decide))
    rw [bare_index]
    exact (ihobject.at _).append (parts_bracket '[' (by decide) _)
      ((closes_bracket '[' (by decide)).append hkey).reads
  | call hcallee _ ih ihargs =>
    rw [bare_call level hcallee.isFunction]
    exact (ih.at _).append (parts_bracket '(' (by decide) _) (reads_commaPieces ihargs).parens.reads
  | new _ _ ih ihargs =>
    have hnew : Closes [.word "new", .space] :=
      (reads_word (by decide)).append_closes (parts_space []) closes_space
    rw [bare_new]
    exact hnew.append_reads ((ih.at _).append (parts_bracket '(' (by decide) _)
      (reads_commaPieces ihargs).parens.reads)
  | assign _ hop _ ihtarget ihvalue =>
    rw [bare_assign]
    exact (ihtarget.at _).append (parts_space _)
      ((closes_operator _ (signs_assignmentText hop)).append_reads (ihvalue.at _))
  | binary op _ _ ihleft ihright =>
    rw [bare_binary]
    exact (ihleft.at _).append (parts_space _) (op.closes_piece.append_reads (ihright.at _))
  | logical op _ _ ihleft ihright =>
    rw [bare_logical]
    exact (ihleft.at _).append (parts_space _)
      ((closes_operator _ op.signs_text).append_reads (ihright.at _))
  | conditional _ _ _ ihcondition ihthen ihelse =>
    rw [bare_conditional]
    have helse := (closes_operator ":" (by decide)).append_reads (ihelse.at Precedence.assignment)
    exact (ihcondition.at _).append (parts_space _)
      ((closes_operator "?" (by decide)).append_reads
        ((ihthen.at _).append (parts_space _) helse))
  | unary op hoperand ih =>
    rw [bare_unary]
    cases hword : op.isWord with
    | true =>
      have hop : Closes [.word op.text, .space] :=
        (reads_word (UnaryOp.isWord_text hword)).append_closes (parts_space []) closes_space
      exact hop.append_reads (ih.at _)
    | false =>
      obtain ⟨c, htext, hc⟩ := UnaryOp.sign_text hword
      rw [htext]
      exact (ih.at _).sign hc (tight_at (hoperand.tight level) _)
  | sequence _ _ ih => exact reads_commaPieces ih
  | array _ ih =>
    rw [bare_array]
    exact ((closes_bracket '[' (by decide)).append ((reads_commaPieces ih).append_closes
      (parts_bracket ']' (by decide) []) (closes_bracket ']' (by decide)))).reads

/-- The source of a legible expression is scanned into its tokens. -/
theorem Expr.Legible.scan_source {e : Expr} (h : e.Legible) :
    scan e.source = Piece.tokens (e.pieces 0 Precedence.sequence) := by
  have hend : Outside [] := by
    intro c hc
    cases hc
  have hread := (h.reads 0).at Precedence.sequence [] [] hend
  rw [List.append_nil, List.nil_append] at hread
  rw [scan, source, Piece.toList_render, hread]
  rfl

end Reads

end StaticInliner
