import StaticInliner.Proofs.Analysis
import StaticInliner.Proofs.Parts
import StaticInliner.Proofs.Reading.Parse
import StaticInliner.Proofs.Reading.Pieces

/-!
Boundaries of tokens in printed text. The printer puts blanks around operators between two
operands and after words, but none after a sign in front of an operand nor before the point of
a member. Read by longest match, a text is nevertheless the tokens it was written with, unless
one of three things is in the tree: a sign before the same sign, a member of a number that is
written with digits only, or an assignment with an operator that has no assigning form.
-/
namespace StaticInliner

open Lexical

section Fusion

/-- The operator that the text of an operand begins with, a minus sign counting as one. -/
def Expr.leadingOperator? : Expr → Option UnaryOp
  | .unary op _ => some op
  | .number x => if (Binary64.ofFloat x).isNegative then some .neg else none
  | _ => none

/-- A number whose text consists of digits. -/
def Expr.isDigits : Expr → Bool
  | .number x => (numberSource x).toList.all Char.isDigit
  | _ => false

/-- What is written at the node itself cannot be told apart: a sign meets the same sign, a point
meets digits, or the operator of an assignment is not one. -/
def Node.fuses : Node → Bool
  | .expr (.unary op operand) => [.neg, .plus].contains op && operand.leadingOperator? == some op
  | .expr (.member object _) => object.isDigits
  | .expr (.assign _ op _) => !punctuators.contains (Expr.assignmentText op)
  | _ => false

/-- The names in the text of the node itself. -/
def Node.spelled : Node → List String
  | .expr (.member _ property) => [property]
  | .stmt (.breakTo label) | .stmt (.continueTo label) => label.toList
  | node => node.written

/-- Nothing fuses at any of the nodes. -/
def Apart (nodes : List Node) : Prop := ∀ node ∈ nodes, node.fuses = false

/-- All names in the text of the nodes are names of the script language. -/
def Named (alphabet : Alphabet) (nodes : List Node) : Prop :=
  ∀ node ∈ nodes, ∀ name ∈ node.spelled, IsName alphabet name.toList

end Fusion

section Signs

variable {alphabet : Alphabet}

/-- The text begins with a character that no sign takes with it. -/
def Plain (text : List Char) : Prop := ∃ c more, text = c :: more ∧ c ∉ ['+', '-', '=']

theorem plain_name {text : List Char} (h : IsName alphabet text) (rest : List Char) :
    Plain (text ++ rest) := by
  cases text with
  | nil => exact h.elim
  | cons c more =>
    refine ⟨c, more ++ rest, rfl, fun hc => ?_⟩
    have hbegins : alphabet.begins c = false := begins_eq_false (by decide) hc
    rw [h.1] at hbegins
    cases hbegins

theorem NumberText.plain {text : List Char} (h : NumberText text) (rest : List Char) :
    Plain (text ++ rest) := by
  obtain ⟨c, more, rfl, hc⟩ := h.exists_eq
  refine ⟨c, more ++ rest, rfl, fun hmem => ?_⟩
  simp only [List.mem_cons, List.not_mem_nil, or_false] at hmem
  rcases hmem with rfl | rfl | rfl <;> revert hc <;> decide

theorem plain_parens (pieces : List Piece) (rest : List Char) :
    Plain (Piece.chars (Piece.parens pieces) ++ rest) :=
  ⟨'(', _, rfl, by decide⟩

theorem plain_keyword {text : String} (h : Letters text.toList)
    (pieces : List Piece) (rest : List Char) :
    Plain (Piece.chars (.word text :: pieces) ++ rest) := by
  have hname : IsName .ascii text.toList := h.isName
  rw [Piece.chars_cons, List.append_assoc]
  exact plain_name hname _

/-- An expression that binds as tightly as a call does not begin with a sign. -/
theorem Expr.plain_pieces {e : Expr} (hnames : Named alphabet (e.nodes .nested)) (level : Nat)
    (hcall : Precedence.call ≤ e.precedence) (rest : List Char) :
    Plain (Piece.chars (e.pieces level 0) ++ rest) := by
  induction e using Expr.byOperands generalizing rest with
  | operation e he ih =>
    obtain ⟨hspelled, hchildren⟩ := (Expr.forall_nodes_iff he).mp hnames
    cases hfirst : e.first? with
    | some first =>
      obtain ⟨operand, least⟩ := first
      have hchild := Expr.mem_children_of_first? hfirst
      have hleast := Expr.precedence_le_of_first? hfirst
      obtain ⟨tail, hpieces, -⟩ := Expr.exists_pieces_eq_of_first? hfirst level
      rw [hpieces, Piece.chars_append, List.append_assoc, Expr.pieces_eq]
      split
      · exact plain_parens _ _
      · exact ih operand hchild (hchildren operand hchild) (by omega) _
    | none =>
      cases e with
      | undefined | null | this => exact plain_keyword (by decide) [] rest
      | bool value => cases value <;> exact plain_keyword (by decide) [] rest
      | number x =>
        have hpositive : (Binary64.ofFloat x).isNegative = false := by
          cases hnegative : (Binary64.ofFloat x).isNegative with
          | false => rfl
          | true =>
            rw [Expr.precedence, if_pos hnegative] at hcall
            exact absurd hcall (by decide)
        rw [Expr.bare_number, Piece.number]
        simp only [hpositive, Bool.false_eq_true, if_false]
        rw [Piece.chars_cons, List.append_assoc]
        exact (Binary64.numberText_magnitude _).plain _
      | string value =>
        rw [Expr.bare_string, Piece.chars_cons, Piece.text, Token.text, String.toList_ofList]
        exact ⟨'"', _, rfl, by decide⟩
      | ident name =>
        rw [Expr.bare_ident, Piece.chars_cons, List.append_assoc]
        exact plain_name (hspelled name List.mem_cons_self) _
      | call callee args =>
        cases callee with
        | function fn =>
          rw [Expr.bare_call_function, Piece.chars_append, List.append_assoc]
          exact plain_parens _ _
        | _ => cases hfirst
      | new callee args =>
        rw [Expr.bare_new]
        exact plain_keyword (by decide) _ rest
      | array items =>
        rw [Expr.bare_array]
        exact ⟨'[', _, rfl, by decide⟩
      | function _ => cases he
      | unary _ _ => exact absurd hcall (show ¬ Precedence.call ≤ Precedence.unary by decide)
      | sequence _ => exact absurd hcall (show ¬ Precedence.call ≤ Precedence.sequence by decide)
      | member _ _ | index _ _ | assign _ _ _ | binary _ _ _ | logical _ _ _ | conditional _ _ _ =>
        cases hfirst
  | literal fn =>
    rw [Expr.bare_function]
    exact plain_keyword (by decide) _ rest

theorem Expr.call_le_precedence {e : Expr} (h : e.leadingOperator? = none)
    (hunary : Precedence.unary ≤ e.precedence) : Precedence.call ≤ e.precedence := by
  cases e with
  | number x =>
    cases hnegative : (Binary64.ofFloat x).isNegative with
    | true => simp [leadingOperator?, hnegative] at h
    | false =>
      rw [precedence, if_neg (by simp [hnegative])]
      decide
  | unary _ _ => cases h
  | binary op _ _ =>
    exact absurd hunary (Nat.not_le.mpr (Nat.lt_succ_of_le (Parse.binary_between op).2))
  | logical op _ _ =>
    exact absurd hunary
      (Nat.not_le.mpr (Nat.lt_of_le_of_lt (Parse.logical_between op).2 (by decide)))
  | assign _ _ _ => exact absurd hunary (show ¬ Precedence.unary ≤ Precedence.assignment by decide)
  | conditional _ _ _ =>
    exact absurd hunary (show ¬ Precedence.unary ≤ Precedence.conditional by decide)
  | sequence _ => exact absurd hunary (show ¬ Precedence.unary ≤ Precedence.sequence by decide)
  | _ => exact Nat.le_of_ble_eq_true rfl

/-- The operand of a sign begins with the operator it begins with, or with no sign at all. -/
theorem Expr.start_operand {e : Expr} (hnames : Named alphabet (e.nodes .nested)) (level : Nat)
    (rest : List Char) :
    (e.leadingOperator? = none ∧ Plain (Piece.chars (e.pieces level Precedence.unary) ++ rest)) ∨
      ∃ op more, e.leadingOperator? = some op ∧
        Piece.chars (e.pieces level Precedence.unary) ++ rest = op.text.toList ++ more := by
  cases hop : e.leadingOperator? with
  | none =>
    refine .inl ⟨rfl, ?_⟩
    rw [Expr.pieces_eq]
    split
    · exact plain_parens _ rest
    · exact e.plain_pieces hnames level (e.call_le_precedence hop (by omega)) rest
  | some op =>
    refine .inr ⟨op, ?_⟩
    cases e with
    | unary _ operand =>
      cases hop
      rw [pieces_of_le level (Nat.le_refl Precedence.unary), bare_unary]
      cases op.isWord with
      | true => exact ⟨_, rfl, List.append_assoc _ _ _⟩
      | false => exact ⟨_, rfl, List.append_assoc _ _ _⟩
    | number x =>
      rw [leadingOperator?] at hop
      split at hop <;> cases hop
      rename_i hnegative
      have hle : Precedence.unary ≤ (Expr.number x).precedence :=
        Nat.le_of_eq (by rw [precedence, if_pos hnegative])
      rw [pieces_of_le level hle, bare_number, Piece.number]
      rw [if_pos hnegative]
      exact ⟨_, rfl, List.append_assoc _ _ _⟩
    | _ => cases hop

/-- A sign is read as itself if the next character does not belong to a longer punctuator. -/
theorem UnaryOp.taken_text {op : UnaryOp} (hop : op.isWord = false) {rest : List Char}
    (hrest : ∀ c ∈ rest.head?, c ∉ extensions op.text) : Taken alphabet op.text.toList rest := by
  have hpunct : op.text ∈ punctuators ∧ op.text.toList.head? ≠ some '.' ∧
      op.text.toList ≠ ['?', '.'] ∧ op.text.toList ≠ ['/'] := by
    revert hop
    cases op <;> decide
  obtain ⟨hmem, hpoint, hquestion, hslash⟩ := hpunct
  exact taken_punct hmem hpoint fun c hc => ⟨hrest c hc, forbidden_eq_false hquestion hslash c⟩

theorem UnaryOp.taken_of_plain {op : UnaryOp} (hop : op.isWord = false) {rest : List Char}
    (h : Plain rest) : Taken alphabet op.text.toList rest := by
  have hextensions : (extensions op.text).all ['+', '-', '='].contains = true := by
    revert hop
    cases op <;> decide
  obtain ⟨c, more, rfl, hc⟩ := h
  refine taken_text hop fun d hd hmem => ?_
  cases hd
  exact hc (List.contains_iff_mem.mp (List.all_eq_true.mp hextensions c hmem))

/-- A sign is read as itself unless the operand begins with the same sign. -/
theorem taken_sign_iff {op : UnaryOp} (hop : op.isWord = false) {operand : Expr}
    (hnames : Named alphabet (operand.nodes .nested)) (level : Nat) (rest : List Char) :
    Taken alphabet op.text.toList (Piece.chars (operand.pieces level Precedence.unary) ++ rest) ↔
      (Node.expr (.unary op operand)).fuses = false := by
  rcases Expr.start_operand hnames level rest with ⟨hnone, hplain⟩ | ⟨other, more, hsome, htext⟩
  · have hfuses : (Node.expr (.unary op operand)).fuses = false := by
      rw [Node.fuses, hnone]
      exact Bool.and_false _
    exact iff_of_true (UnaryOp.taken_of_plain hop hplain) hfuses
  · rw [htext, Node.fuses, hsome]
    by_cases hsame : other = op ∧ op ∈ [.neg, .plus]
    · obtain ⟨rfl, hsign⟩ := hsame
      simp only [List.mem_cons, List.not_mem_nil, or_false] at hsign
      rcases hsign with rfl | rfl
      · have hlonger : "--".toList ++ more = "-".toList ++ ("-".toList ++ more) := rfl
        exact iff_of_false (not_taken_of_longer (by decide) (fun _ => rfl) hlonger (by decide))
          (by decide)
      · have hlonger : "++".toList ++ more = "+".toList ++ ("+".toList ++ more) := rfl
        exact iff_of_false (not_taken_of_longer (by decide) (fun _ => rfl) hlonger (by decide))
          (by decide)
    · have hdiffer : ([.neg, .plus].contains op && some other == some op) = false ∧
          ∃ c cs, other.text.toList = c :: cs ∧ c ∉ extensions op.text := by
        revert hop hsame
        cases op <;> cases other <;> intro hop hsame <;>
          first
          | exact absurd hop (by decide)
          | exact absurd hsame (by decide)
          | exact ⟨by decide, _, _, rfl, by decide⟩
      obtain ⟨hfuses, c, cs, hlist, hc⟩ := hdiffer
      rw [hlist]
      refine iff_of_true (UnaryOp.taken_text hop fun d hd => ?_) hfuses
      cases hd
      exact hc

end Signs

section Expressions

variable {alphabet : Alphabet}

/-- What may follow an expression that binds as tightly as given: a delimiter, or a point that
does not meet digits. -/
def Expr.Before (e : Expr) (strength : Nat) (rest : List Char) : Prop :=
  ∀ c ∈ rest.head?, c ∈ delimiters ∨ c = '.' ∧ Precedence.call ≤ strength ∧ e.isDigits = false

theorem Ends.before {rest : List Char} (h : Ends rest) (e : Expr) (strength : Nat) :
    e.Before strength rest := fun c hc => .inl (h c hc)

/-- A loose expression is in parentheses before a point. -/
theorem Expr.Before.ends {e : Expr} {strength : Nat} {rest : List Char} (h : e.Before strength rest)
    (hloose : strength < Precedence.call) : Ends rest := by
  intro c hc
  rcases h c hc with hc | ⟨-, hcall, -⟩
  · exact hc
  · omega

/-- The text of the expression is read as its tokens unless something fuses in it. -/
def Expr.Bounded (alphabet : Alphabet) (e : Expr) : Prop :=
  ∀ level least rest, e.Before least rest →
    (Clear alphabet (e.pieces level least) rest ↔ Apart (e.nodes .nested))

theorem clear_parens_iff (pieces : List Piece) (rest : List Char) :
    Clear alphabet (Piece.parens pieces) rest ↔ Clear alphabet pieces (')' :: rest) := by
  rw [Piece.parens, clear_punct_iff, clear_append_iff, clear_punct_iff,
    and_iff_right (taken_bracket (by decide) _),
    and_iff_left ⟨taken_bracket (by decide) _, trivial⟩]
  rfl

namespace Expr.Bounded

/-- Parentheses do not matter. -/
theorem of_bare {e : Expr} (h : ∀ level rest, e.Before e.precedence rest →
    (Clear alphabet (e.pieces level 0) rest ↔ Apart (e.nodes .nested))) : e.Bounded alphabet := by
  intro level least rest hrest
  rw [Expr.pieces_eq]
  split
  · rw [clear_parens_iff]
    exact h level _ ((ends_cons (by decide) rest).before e _)
  · refine h level rest fun c hc => ?_
    rcases hrest c hc with hc | ⟨hpoint, hcall, hdigits⟩
    · exact .inl hc
    · exact .inr ⟨hpoint, by omega, hdigits⟩

/-- It is enough to look at the node itself and at the operands. -/
theorem of_operands {e : Expr} (he : e.ownsLayer = false)
    (h : ∀ level rest, e.Before e.precedence rest →
    (Clear alphabet (e.pieces level 0) rest ↔
      (Node.expr e).fuses = false ∧ ∀ child ∈ e.children, Apart (child.nodes .nested))) :
    e.Bounded alphabet := by
  refine .of_bare fun level rest hrest => ?_
  rw [h level rest hrest, Apart, Expr.forall_nodes_iff he]
  rfl

/-- An expression before a delimiter. -/
theorem clear_append_iff {e : Expr} (h : e.Bounded alphabet) (level least : Nat) {piece : Piece}
    {c : Char} (hpiece : piece.text.toList.head? = some c) (hc : c ∈ delimiters) (tail : List Piece)
    (rest : List Char) : Clear alphabet (e.pieces level least ++ piece :: tail) rest ↔
      Apart (e.nodes .nested) ∧ Clear alphabet (piece :: tail) rest := by
  have hends : Ends (Piece.chars (piece :: tail) ++ rest) := by
    obtain ⟨more, hmore⟩ := Piece.exists_chars_eq hpiece tail rest
    rw [hmore]
    exact ends_cons hc more
  rw [StaticInliner.clear_append_iff, h level least _ (hends.before e least)]

theorem clear_append_parens_iff {e : Expr} (h : e.Bounded alphabet) (level least : Nat)
    (pieces : List Piece) (rest : List Char) :
    Clear alphabet (e.pieces level least ++ Piece.parens pieces) rest ↔
      Apart (e.nodes .nested) ∧ Clear alphabet (Piece.parens pieces) rest :=
  h.clear_append_iff level least rfl (by decide) _ rest

end Expr.Bounded

theorem clear_commaPieces_iff {items : List Expr} (h : ∀ item ∈ items, item.Bounded alphabet)
    (level : Nat) {rest : List Char} (hrest : Ends rest) :
    Clear alphabet (Expr.commaPieces level items) rest ↔
      ∀ item ∈ items, Apart (item.nodes .nested) := by
  induction items with
  | nil => exact iff_of_true trivial (List.forall_mem_nil _)
  | cons item others ih =>
    obtain ⟨hitem, hothers⟩ := List.forall_mem_cons.mp h
    rw [List.forall_mem_cons]
    cases others with
    | nil =>
      rw [Expr.commaPieces, hitem level _ rest (hrest.before item _),
        and_iff_left (List.forall_mem_nil _)]
    | cons second others =>
      rw [Expr.commaPieces, hitem.clear_append_iff level _ rfl (by decide), clear_punct_iff,
        and_iff_right (taken_bracket (by decide) _), clear_space_iff, ih hothers]
      exact List.cons_ne_nil _ _

/-- The arguments of a call. -/
theorem clear_arguments_iff {items : List Expr} (h : ∀ item ∈ items, item.Bounded alphabet)
    (level : Nat) (rest : List Char) :
    Clear alphabet (Piece.parens (Expr.commaPieces level items)) rest ↔
      ∀ item ∈ items, Apart (item.nodes .nested) := by
  rw [clear_parens_iff, clear_commaPieces_iff h level (ends_cons (by decide) rest)]

theorem clear_brackets_iff (pieces : List Piece) (rest : List Char) :
    Clear alphabet (.punct "[" :: (pieces ++ [Piece.punct "]"])) rest ↔
      Clear alphabet pieces (']' :: rest) := by
  rw [clear_punct_iff, clear_append_iff, clear_punct_iff,
    and_iff_right (taken_bracket (by decide) _),
    and_iff_left ⟨taken_bracket (by decide) _, trivial⟩]
  rfl

/-- A word before a delimiter. -/
theorem clear_name_iff {text : String} (h : IsName alphabet text.toList) {piece : Piece} {c : Char}
    (hpiece : piece.text.toList.head? = some c) (hc : c ∈ delimiters) (tail : List Piece)
    (rest : List Char) : Clear alphabet (.word text :: piece :: tail) rest ↔
      Clear alphabet (piece :: tail) rest := by
  obtain ⟨more, hmore⟩ := Piece.exists_chars_eq hpiece tail rest
  rw [clear_word_iff, and_iff_right]
  rw [hmore]
  exact taken_word h (ends_cons hc more).stops

/-- A punctuator between blanks. -/
theorem clear_operator_iff {text : String} (h : text ∈ punctuators)
    (hpoint : text.toList.head? ≠ some '.') (tail : List Piece) (rest : List Char) :
    Clear alphabet (.punct text :: .space :: tail) rest ↔ Clear alphabet tail rest := by
  rw [clear_punct_iff, clear_space_iff, and_iff_right]
  exact taken_operator h hpoint _

theorem BinaryOp.clear_piece_iff (op : BinaryOp) (tail : List Piece) (rest : List Char) :
    Clear alphabet (op.piece :: .space :: tail) rest ↔ Clear alphabet tail rest := by
  rw [piece]
  cases hword : op.isWord with
  | true =>
    have hletters : Letters op.text.toList := by
      revert hword
      cases op <;> decide
    exact clear_name_iff hletters.isName rfl (by decide) tail rest
  | false =>
    have hpunct : op.text ∈ punctuators ∧ op.text.toList.head? ≠ some '.' := by
      revert hword
      cases op <;> decide
    exact clear_operator_iff hpunct.1 hpunct.2 tail rest

theorem Expr.Before.stops {e : Expr} {strength : Nat} {rest : List Char}
    (h : e.Before strength rest) :
    Stops rest := by
  intro c hc
  rcases h c hc with hc | ⟨rfl, -⟩
  · exact List.mem_cons_of_mem _ hc
  · exact List.mem_cons_self

theorem Expr.bounded_leaf {e : Expr} (he : e.ownsLayer = false) (hchildren : e.children = [])
    (hfuses : (Node.expr e).fuses = false)
    (h : ∀ level rest, e.Before e.precedence rest → Clear alphabet (e.pieces level 0) rest) :
    e.Bounded alphabet := by
  refine .of_operands he fun level rest hrest => iff_of_true (h level rest hrest) ⟨hfuses, ?_⟩
  rw [hchildren]
  exact List.forall_mem_nil _

theorem Expr.bounded_word {e : Expr} (he : e.ownsLayer = false) (hchildren : e.children = [])
    (hfuses : (Node.expr e).fuses = false) {text : String} (hname : IsName alphabet text.toList)
    (hpieces : ∀ level, e.pieces level 0 = [.word text]) : e.Bounded alphabet := by
  refine bounded_leaf he hchildren hfuses fun level rest hrest => ?_
  rw [hpieces]
  exact ⟨taken_word hname hrest.stops, trivial⟩

theorem Expr.bounded_number (x : Float) : (Expr.number x).Bounded alphabet := by
  have htext := Binary64.numberText_magnitude (Binary64.ofFloat x)
  refine bounded_leaf rfl rfl rfl fun level rest hrest => ?_
  rw [bare_number, Piece.number]
  cases hnegative : (Binary64.ofFloat x).isNegative with
  | true =>
    have hloose : (Expr.number x).precedence < Precedence.call := by
      rw [precedence, if_pos hnegative]
      decide
    have hminus : Taken alphabet UnaryOp.neg.text.toList
        (Piece.chars [.token (.numeral (Binary64.ofFloat x).magnitude)] ++ rest) := by
      rw [Piece.chars_singleton]
      exact UnaryOp.taken_of_plain rfl (htext.plain rest)
    exact ⟨hminus, htext.taken fun c hc => .inl (hrest.ends hloose c hc), trivial⟩
  | false =>
    refine ⟨htext.taken fun c hc => ?_, trivial⟩
    rcases hrest c hc with hc | ⟨hpoint, -, hdigits⟩
    · exact .inl hc
    · rw [isDigits, numberSource] at hdigits
      simp only [hnegative] at hdigits
      exact .inr ⟨hpoint, hdigits⟩

theorem NumberText.isWhole {text : List Char} (h : NumberText text)
    (hdigits : text.all Char.isDigit = true) : IsWhole text := by
  cases h with
  | whole h => exact h
  | name h =>
    simp only [List.mem_cons, List.not_mem_nil, or_false] at h
    rcases h with rfl | rfl <;> exact absurd hdigits (by decide)
  | fraction _ _ =>
    rw [List.all_append, List.all_cons] at hdigits
    simp at hdigits

/-- Digits are not read as they are before a point. -/
theorem Expr.not_clear_of_isDigits {e : Expr} (h : e.isDigits = true) (level : Nat)
    (rest : List Char) :
    ¬ Clear alphabet (e.pieces level Precedence.call) ('.' :: rest) := by
  cases e with
  | number x =>
    rw [isDigits, numberSource] at h
    cases hnegative : (Binary64.ofFloat x).isNegative with
    | true => simp [hnegative] at h
    | false =>
      simp only [hnegative] at h
      have hle : Precedence.call ≤ (Expr.number x).precedence := by
        rw [precedence, if_neg (by simp [hnegative])]
        decide
      rw [pieces_of_le level hle, bare_number, Piece.number, hnegative, if_neg (by decide)]
      rintro ⟨htaken, -⟩
      exact not_taken_whole ((Binary64.numberText_magnitude _).isWhole h) htaken
  | _ => cases h

/-- A member is read as its tokens unless the point meets digits. -/
theorem Expr.Bounded.member {object : Expr} (h : object.Bounded alphabet) {property : String}
    (hproperty : IsName alphabet property.toList) :
    (Expr.member object property).Bounded alphabet := by
  refine .of_operands rfl fun level rest hrest => ?_
  have hpoint : Taken alphabet ".".toList (Piece.chars [.word property] ++ rest) := by
    refine taken_point fun c hc => ?_
    rw [Piece.chars_singleton, Piece.word, Piece.text, Token.text] at hc
    cases hlist : property.toList with
    | nil =>
      rw [hlist] at hproperty
      exact hproperty.elim
    | cons d more =>
      rw [hlist] at hproperty hc
      cases hc
      exact hproperty.1
  have htail : Clear alphabet [.punct ".", .word property] rest :=
    ⟨hpoint, taken_word hproperty hrest.stops, trivial⟩
  rw [bare_member, StaticInliner.clear_append_iff, and_iff_left htail]
  cases hdigits : object.isDigits with
  | true =>
    exact iff_of_false (not_clear_of_isDigits hdigits level _) (by simp [Node.fuses, hdigits])
  | false =>
    have hbefore :
        object.Before Precedence.call (Piece.chars [.punct ".", .word property] ++ rest) := by
      intro c hc
      cases hc
      exact .inr ⟨rfl, Nat.le_refl _, hdigits⟩
    rw [h level _ _ hbefore]
    simp [Node.fuses, children, hdigits]

/-- An operator before `=` is read as one token with it if there is such a token. -/
theorem taken_assignment_iff (op : Option BinaryOp) (rest : List Char) :
    Taken alphabet (Expr.assignmentText op).toList (' ' :: rest) ↔
      Expr.assignmentText op ∈ punctuators := by
  have hequals : alphabet.continues '=' = false :=
    continues_eq_false (by decide) (List.mem_singleton_self '=')
  constructor
  · intro h
    have htoken := h.isToken
    cases op with
    | none => decide
    | some op =>
      cases op with
      | instanceOf =>
        have hname : IsName alphabet "instanceof".toList := Letters.isName (by decide)
        exact absurd htoken (hname.not_isToken_append hequals [])
      | isIn =>
        have hname : IsName alphabet "in".toList := Letters.isName (by decide)
        exact absurd htoken (hname.not_isToken_append hequals [])
      | _ => exact htoken.mem_punctuators ⟨_, _, rfl, by decide, by decide⟩
  · intro h
    refine taken_operator h ?_ rest
    cases op with
    | none => decide
    | some op => cases op <;> decide

theorem Expr.Bounded.unary {operand : Expr} (h : operand.Bounded alphabet)
    (hnames : Named alphabet (operand.nodes .nested)) (op : UnaryOp) :
    (Expr.unary op operand).Bounded alphabet := by
  refine .of_operands rfl fun level rest hrest => ?_
  have hends := hrest.ends (show Precedence.unary < Precedence.call by decide)
  have hoperand := h level Precedence.unary rest (hends.before operand _)
  have hchildren : (∀ child ∈ (Expr.unary op operand).children, Apart (child.nodes .nested)) ↔
      Apart (operand.nodes .nested) := List.forall_mem_singleton
  rw [bare_unary, hchildren]
  cases hword : op.isWord with
  | true =>
    have hletters : Letters op.text.toList := by
      revert hword
      cases op <;> decide
    have hfuses : (Node.expr (.unary op operand)).fuses = false := by
      revert hword
      cases op <;> simp [Node.fuses, UnaryOp.isWord]
    have hpieces : [Piece.word op.text, Piece.space] ++ operand.pieces level Precedence.unary =
        .word op.text :: .space :: operand.pieces level Precedence.unary := rfl
    rw [if_pos rfl, hpieces, clear_name_iff hletters.isName rfl (by decide), clear_space_iff,
      hoperand, and_iff_right hfuses]
  | false =>
    rw [if_neg (by decide), List.singleton_append, clear_punct_iff,
      taken_sign_iff hword hnames, hoperand]

/-- The text of an operation is read as its tokens if those of its operands are. -/
theorem Expr.bounded_operation {e : Expr} (he : e.ownsLayer = false)
    (hnames : Named alphabet (e.nodes .nested))
    (ih : ∀ child ∈ e.children, child.Bounded alphabet) :
    e.Bounded alphabet := by
  obtain ⟨hspelled, hchildren⟩ := (Expr.forall_nodes_iff he).mp hnames
  cases e with
  | undefined | null | this =>
    exact bounded_word rfl rfl rfl (Letters.isName (by decide)) fun _ => rfl
  | bool value =>
    cases value <;> exact bounded_word rfl rfl rfl (Letters.isName (by decide)) fun _ => rfl
  | number x => exact bounded_number x
  | string value =>
    exact bounded_leaf rfl rfl rfl fun level rest _ => ⟨taken_quoted value _, trivial⟩
  | ident name => exact bounded_word rfl rfl rfl (hspelled name List.mem_cons_self) fun _ => rfl
  | function _ => cases he
  | member object property =>
    exact (ih object List.mem_cons_self).member (hspelled property List.mem_cons_self)
  | unary op operand =>
    exact (ih operand List.mem_cons_self).unary (hchildren operand List.mem_cons_self) op
  | index object key =>
    have hobject := ih object List.mem_cons_self
    have hkey := ih key (List.mem_cons_of_mem _ List.mem_cons_self)
    refine .of_operands rfl fun level rest hrest => ?_
    rw [bare_index, hobject.clear_append_iff level _ rfl (by decide), clear_brackets_iff,
      hkey level _ _ ((ends_cons (by decide) rest).before key _)]
    simp [Node.fuses, children]
  | call callee args =>
    obtain ⟨hcallee, hargs⟩ := List.forall_mem_cons.mp ih
    refine .of_operands rfl fun level rest hrest => ?_
    cases callee with
    | function fn =>
      have hends :
          Ends (')' :: (Piece.chars (Piece.parens (Expr.commaPieces level args)) ++ rest)) :=
        ends_cons (by decide) _
      rw [bare_call_function, StaticInliner.clear_append_iff, clear_parens_iff, ← bare_function,
        hcallee level _ _ (hends.before _ _), clear_arguments_iff hargs]
      simp [Node.fuses, children]
    | _ =>
      rw [bare_call level rfl, hcallee.clear_append_parens_iff, clear_arguments_iff hargs]
      simp [Node.fuses, children]
  | new callee args =>
    obtain ⟨hcallee, hargs⟩ := List.forall_mem_cons.mp ih
    refine .of_operands rfl fun level rest hrest => ?_
    rw [bare_new, clear_name_iff (Letters.isName (by decide)) rfl (by decide), clear_space_iff,
      hcallee.clear_append_parens_iff, clear_arguments_iff hargs]
    simp [Node.fuses, children]
  | assign target op value =>
    have htarget := ih target List.mem_cons_self
    have hvalue := ih value (List.mem_cons_of_mem _ List.mem_cons_self)
    refine .of_operands rfl fun level rest hrest => ?_
    have hends := hrest.ends (show Precedence.assignment < Precedence.call by decide)
    rw [bare_assign, htarget.clear_append_iff level _ rfl (by decide), clear_space_iff,
      clear_punct_iff, clear_space_iff, hvalue level _ rest (hends.before value _)]
    have hop : Taken alphabet (assignmentText op).toList
        (Piece.chars (.space :: value.pieces level Precedence.assignment) ++ rest) ↔
          (Node.expr (.assign target op value)).fuses = false :=
      (taken_assignment_iff op _).trans (by simp [Node.fuses])
    rw [hop]
    simp [children, and_left_comm]
  | binary op left right =>
    have hleft := ih left List.mem_cons_self
    have hright := ih right (List.mem_cons_of_mem _ List.mem_cons_self)
    refine .of_operands rfl fun level rest hrest => ?_
    have hends := hrest.ends (Nat.lt_of_le_of_lt (Parse.binary_between op).2 (by decide))
    rw [bare_binary, hleft.clear_append_iff level _ rfl (by decide), clear_space_iff,
      op.clear_piece_iff, hright level _ rest (hends.before right _)]
    simp [Node.fuses, children]
  | logical op left right =>
    have hleft := ih left List.mem_cons_self
    have hright := ih right (List.mem_cons_of_mem _ List.mem_cons_self)
    have hpunct : op.text ∈ punctuators ∧ op.text.toList.head? ≠ some '.' := by cases op <;> decide
    refine .of_operands rfl fun level rest hrest => ?_
    have hends := hrest.ends (Nat.lt_of_le_of_lt (Parse.logical_between op).2 (by decide))
    rw [bare_logical, hleft.clear_append_iff level _ rfl (by decide), clear_space_iff,
      clear_operator_iff hpunct.1 hpunct.2, hright level _ rest (hends.before right _)]
    simp [Node.fuses, children]
  | conditional condition thenExpr elseExpr =>
    obtain ⟨hcondition, hbranches⟩ := List.forall_mem_cons.mp ih
    obtain ⟨hthen, helse⟩ := List.forall_mem_cons.mp hbranches
    have helse := List.forall_mem_singleton.mp helse
    refine .of_operands rfl fun level rest hrest => ?_
    have hends := hrest.ends (show Precedence.conditional < Precedence.call by decide)
    rw [bare_conditional, hcondition.clear_append_iff level _ rfl (by decide), clear_space_iff,
      clear_operator_iff (by decide) (by decide), hthen.clear_append_iff level _ rfl (by decide),
      clear_space_iff, clear_operator_iff (by decide) (by decide),
      helse level _ rest (hends.before elseExpr _)]
    simp [Node.fuses, children]
  | sequence items =>
    refine .of_operands rfl fun level rest hrest => ?_
    have hends := hrest.ends (show Precedence.sequence < Precedence.call by decide)
    rw [bare_sequence, clear_commaPieces_iff (by exact ih) level hends]
    simp [Node.fuses, children]
  | array items =>
    refine .of_operands rfl fun level rest hrest => ?_
    have hends : Ends (']' :: rest) := ends_cons (by decide) rest
    rw [bare_array, clear_brackets_iff, clear_commaPieces_iff (by exact ih) level hends]
    simp [Node.fuses, children]

end Expressions

section Statements

variable {alphabet : Alphabet}

/-- The text of the statement is read as its tokens unless something fuses in it. -/
def Stmt.Bounded (alphabet : Alphabet) (s : Stmt) : Prop :=
  ∀ level rest, Clear alphabet (s.pieces level) rest ↔ Apart (s.nodes .nested)

theorem clear_linePieces_iff {stmts : List Stmt} (h : ∀ s ∈ stmts, s.Bounded alphabet) (level : Nat)
    (rest : List Char) : Clear alphabet (Stmt.linePieces level stmts) rest ↔
      ∀ s ∈ stmts, Apart (s.nodes .nested) := by
  induction stmts with
  | nil => exact iff_of_true trivial (List.forall_mem_nil _)
  | cons s others ih =>
    obtain ⟨hs, hothers⟩ := List.forall_mem_cons.mp h
    rw [Stmt.linePieces, clear_indent_iff, clear_append_iff, hs level, clear_newline_iff,
      ih hothers, List.forall_mem_cons]

theorem clear_blockPieces_iff {stmts : List Stmt} (h : ∀ s ∈ stmts, s.Bounded alphabet)
    (level : Nat) (rest : List Char) :
    Clear alphabet (Stmt.blockPieces level stmts) rest ↔
      ∀ s ∈ stmts, Apart (s.nodes .nested) := by
  cases stmts with
  | nil =>
    exact iff_of_true ⟨taken_bracket (by decide) _, taken_bracket (by decide) _, trivial⟩
      (List.forall_mem_nil _)
  | cons s others =>
    obtain ⟨hs, hothers⟩ := List.forall_mem_cons.mp h
    have hclose : Clear alphabet [.indent level, .punct "\x7d"] rest :=
      ⟨taken_bracket (by decide) _, trivial⟩
    rw [Stmt.blockPieces, clear_punct_iff, and_iff_right (taken_bracket (by decide) _),
      clear_newline_iff, clear_indent_iff, clear_append_iff, hs _, clear_newline_iff,
      clear_append_iff, and_iff_left hclose, clear_linePieces_iff hothers, List.forall_mem_cons]

theorem clear_commaWords {names : List String} (h : ∀ name ∈ names, IsName alphabet name.toList)
    (rest : List Char) : Clear alphabet (Piece.parens (Piece.commaWords names)) rest := by
  rw [clear_parens_iff]
  induction names with
  | nil => trivial
  | cons name others ih =>
    obtain ⟨hname, hothers⟩ := List.forall_mem_cons.mp h
    cases others with
    | nil => exact ⟨taken_word hname (stops_cons (by decide) rest), trivial⟩
    | cons second others =>
      rw [Piece.commaWords, clear_name_iff hname rfl (by decide), clear_punct_iff, clear_space_iff]
      · exact ⟨taken_bracket (by decide) _, ih hothers⟩
      · exact List.cons_ne_nil _ _

theorem FunctionLit.clear_pieces_iff {fn : FunctionLit}
    (hnames : ∀ name ∈ fn.name.toList ++ fn.params, IsName alphabet name.toList)
    (h : ∀ s ∈ fn.body, s.Bounded alphabet) (level : Nat) (rest : List Char) :
    Clear alphabet (fn.pieces level) rest ↔ ∀ s ∈ fn.body, Apart (s.nodes .nested) := by
  obtain ⟨hname, hparams⟩ := List.forall_mem_append.mp hnames
  have hfunction : IsName alphabet "function".toList := Letters.isName (by decide)
  have htail (tail : List Piece) : Clear alphabet (.word "function" :: (Piece.optional fn.name ++
      (Piece.parens tail ++ Piece.space :: Stmt.blockPieces level fn.body))) rest ↔
        Clear alphabet (Piece.parens tail ++ Piece.space :: Stmt.blockPieces level fn.body)
          rest := by
    cases hfn : fn.name with
    | none => exact clear_name_iff hfunction rfl (by decide) _ rest
    | some name =>
      have hname : IsName alphabet name.toList :=
        hname name (by rw [hfn]; exact List.mem_singleton_self name)
      exact (clear_name_iff hfunction rfl (by decide) _ rest).trans
        (clear_name_iff hname rfl (by decide) _ rest)
  rw [FunctionLit.pieces, List.append_assoc, htail, clear_append_iff,
    and_iff_right (clear_commaWords hparams _), clear_space_iff, clear_blockPieces_iff h]

theorem Expr.bounded_function {fn : FunctionLit}
    (hnames : Named alphabet ((Expr.function fn).nodes .nested))
    (h : ∀ s ∈ fn.body, s.Bounded alphabet) : (Expr.function fn).Bounded alphabet := by
  have hspelled := hnames _ (Expr.self_mem_nodes .nested _)
  have hfuses : (Node.expr (.function fn)).fuses = false := rfl
  refine .of_bare fun level rest _ => ?_
  rw [bare_function, fn.clear_pieces_iff hspelled h, Apart, Expr.nodes_function,
    List.forall_mem_cons, and_iff_right hfuses, Stmt.forall_nodesAll_iff]
  rfl

theorem Stmt.bounded_function {fn : FunctionLit}
    (hnames : Named alphabet ((Stmt.function fn).nodes .nested))
    (h : ∀ s ∈ fn.body, s.Bounded alphabet) : (Stmt.function fn).Bounded alphabet := by
  have hspelled := hnames _ (Stmt.self_mem_nodes .nested _)
  have hfuses : (Node.stmt (.function fn)).fuses = false := rfl
  intro level rest
  rw [pieces_function, fn.clear_pieces_iff hspelled h, Apart, Stmt.nodes_function,
    List.forall_mem_cons, and_iff_right hfuses, Stmt.forall_nodesAll_iff]
  rfl

/-- It is enough to look at the parts of a statement. -/
theorem Stmt.bounded_of_parts {s : Stmt} (hfn : s.function? = none)
    (h : ∀ level rest, Clear alphabet (s.pieces level) rest ↔
      (∀ e ∈ s.head?, Apart (e.nodes .nested)) ∧
        ∀ body ∈ s.bodies, ∀ inner ∈ body, Apart (inner.nodes .nested)) : s.Bounded alphabet := by
  have hfuses : (Node.stmt s).fuses = false := rfl
  intro level rest
  rw [h level rest, Apart, Stmt.forall_nodes_iff hfn, and_iff_right hfuses]
  rfl

theorem clear_semicolon_iff {e : Expr} (h : e.Bounded alphabet) (level least : Nat)
    (rest : List Char) :
    Clear alphabet (e.pieces level least ++ [Piece.punct ";"]) rest ↔ Apart (e.nodes .nested) := by
  rw [h.clear_append_iff level least rfl (by decide), and_iff_left]
  exact ⟨taken_bracket (by decide) _, trivial⟩

/-- The condition of a statement, and what it guards. -/
theorem clear_condition_iff {e : Expr} (h : e.Bounded alphabet) {keyword : String}
    (hkeyword : Letters keyword.toList) (level least : Nat)
    (tail : List Piece) (rest : List Char) :
    Clear alphabet (.word keyword :: .space ::
        (Piece.parens (e.pieces level least) ++ Piece.space :: tail)) rest ↔
      Apart (e.nodes .nested) ∧ Clear alphabet tail rest := by
  rw [clear_name_iff hkeyword.isName rfl (by decide), clear_space_iff, clear_append_iff,
    clear_parens_iff, h level least _ ((ends_cons (by decide) _).before e _), clear_space_iff]

theorem clear_optional {label : Option String} (h : ∀ name ∈ label, IsName alphabet name.toList)
    {keyword : String} (hkeyword : Letters keyword.toList)
    (rest : List Char) :
    Clear alphabet (.word keyword :: (Piece.optional label ++ [Piece.punct ";"])) rest := by
  have hend : Clear alphabet [.punct ";"] rest := ⟨taken_bracket (by decide) _, trivial⟩
  have hname : IsName alphabet keyword.toList := hkeyword.isName
  cases label with
  | none => exact (clear_name_iff hname rfl (by decide) _ rest).mpr hend
  | some label =>
    exact (clear_name_iff hname rfl (by decide) _ rest).mpr
      ((clear_name_iff (h label rfl) rfl (by decide) _ rest).mpr hend)

/-- The text of a statement is read as its tokens if those of its parts are. -/
theorem Stmt.bounded_parts {s : Stmt} (hfn : s.function? = none)
    (hnames : ∀ name ∈ (Node.stmt s).spelled, IsName alphabet name.toList)
    (hhead : ∀ e ∈ s.head?, e.Bounded alphabet)
    (hbodies : ∀ body ∈ s.bodies, ∀ inner ∈ body, inner.Bounded alphabet) : s.Bounded alphabet := by
  refine bounded_of_parts hfn fun level rest => ?_
  have hend : Clear alphabet [.punct ";"] rest := ⟨taken_bracket (by decide) _, trivial⟩
  cases s with
  | function _ => cases hfn
  | var kind name init =>
    have hkind : IsName alphabet kind.text.toList := by
      cases kind <;> exact Letters.isName (by decide)
    have hname := hnames name List.mem_cons_self
    cases init with
    | none =>
      rw [Stmt.pieces, clear_name_iff hkind rfl (by decide), clear_space_iff,
        clear_name_iff hname rfl (by decide)]
      simp [hend, head?, bodies]
    | some init =>
      rw [Stmt.pieces, clear_name_iff hkind rfl (by decide), clear_space_iff,
        clear_name_iff hname rfl (by decide), clear_space_iff,
        clear_operator_iff (by decide) (by decide), clear_semicolon_iff (hhead init rfl)]
      simp [head?, bodies]
  | expr value =>
    have hvalue := hhead value rfl
    rw [Stmt.pieces]
    cases hfunction : value.isFunction with
    | true =>
      rw [if_pos rfl, clear_append_iff, clear_parens_iff,
        hvalue level _ _ ((ends_cons (by decide) _).before value _)]
      simp [hend, head?, bodies]
    | false =>
      rw [if_neg (by decide), clear_semicolon_iff hvalue]
      simp [head?, bodies]
  | ret value =>
    cases value with
    | none =>
      rw [Stmt.pieces, clear_name_iff (Letters.isName (by decide)) rfl (by decide)]
      simp [hend, head?, bodies]
    | some value =>
      rw [Stmt.pieces, clear_name_iff (Letters.isName (by decide)) rfl (by decide), clear_space_iff,
        clear_semicolon_iff (hhead value rfl)]
      simp [head?, bodies]
  | throw value =>
    rw [Stmt.pieces, clear_name_iff (Letters.isName (by decide)) rfl (by decide), clear_space_iff,
      clear_semicolon_iff (hhead value rfl)]
    simp [head?, bodies]
  | ifElse condition thenBranch elseBranch =>
    cases elseBranch with
    | none =>
      rw [Stmt.pieces, clear_condition_iff (hhead condition rfl) (by decide),
        clear_blockPieces_iff (hbodies thenBranch List.mem_cons_self)]
      simp [head?, bodies]
    | some elseBranch =>
      have helse := hbodies elseBranch (List.mem_cons_of_mem _ List.mem_cons_self)
      rw [Stmt.pieces, clear_condition_iff (hhead condition rfl) (by decide), clear_append_iff,
        clear_blockPieces_iff (hbodies thenBranch List.mem_cons_self), clear_space_iff,
        clear_name_iff (Letters.isName (by decide)) rfl (by decide), clear_space_iff,
        clear_blockPieces_iff helse]
      simp [head?, bodies]
  | whileDo condition body =>
    rw [Stmt.pieces, clear_condition_iff (hhead condition rfl) (by decide),
      clear_blockPieces_iff (hbodies body List.mem_cons_self)]
    simp [head?, bodies]
  | block body =>
    rw [Stmt.pieces, clear_blockPieces_iff (hbodies body List.mem_cons_self)]
    simp [head?, bodies]
  | labeled label body =>
    rw [Stmt.pieces, clear_name_iff (hnames label List.mem_cons_self) rfl (by decide),
      clear_operator_iff (by decide) (by decide),
      clear_blockPieces_iff (hbodies body List.mem_cons_self)]
    simp [head?, bodies]
  | breakTo label | continueTo label =>
    have hlabel : ∀ name ∈ label, IsName alphabet name.toList := fun name hname =>
      hnames name (Option.mem_toList.mpr hname)
    rw [Stmt.pieces]
    refine iff_of_true (clear_optional hlabel (by decide) rest)
      ⟨fun e he => ?_, List.forall_mem_nil _⟩
    cases he

theorem byParts_bounded (alphabet : Alphabet) : ByParts
    (fun e => Named alphabet (e.nodes .nested) → e.Bounded alphabet)
    (fun s => Named alphabet (s.nodes .nested) → s.Bounded alphabet)
    (fun list => Named alphabet (Stmt.nodesAll .nested list) → ∀ s ∈ list, s.Bounded alphabet) := by
  constructor
  case operation =>
    intro e he ih hnames
    obtain ⟨-, hchildren⟩ := (Expr.forall_nodes_iff he).mp hnames
    exact Expr.bounded_operation he hnames fun child hchild =>
      ih child hchild (hchildren child hchild)
  case literal =>
    intro fn ih hnames
    have hbody := hnames
    rw [Expr.nodes_function] at hbody
    exact Expr.bounded_function hnames (ih (List.forall_mem_cons.mp hbody).2)
  case declaration =>
    intro fn ih hnames
    have hbody := hnames
    rw [Stmt.nodes_function] at hbody
    exact Stmt.bounded_function hnames (ih (List.forall_mem_cons.mp hbody).2)
  case statement =>
    intro s hfn hhead hbodies hnames
    obtain ⟨hspelled, hheadNames, hbodyNames⟩ := (Stmt.forall_nodes_iff hfn).mp hnames
    exact Stmt.bounded_parts hfn hspelled (fun e he => hhead e he (hheadNames e he))
      fun body hbody => hbodies body hbody (Stmt.forall_nodesAll_iff.mpr (hbodyNames body hbody))
  case list =>
    intro list ih hnames s hs
    exact ih s hs (Stmt.forall_nodesAll_iff.mp hnames s hs)

/-- Printed text is read as the tokens it was written with unless something fuses: a sign before
the same sign, the point of a member after digits, or an assignment with an operator that does
not assign. -/
theorem Expr.tokenizes_source_iff (alphabet : Alphabet) {e : Expr}
    (hnames : Named alphabet (e.nodes .nested)) :
    Tokenizes alphabet e.source.toList (Piece.tokenTexts (e.pieces 0 Precedence.sequence)) ↔
      ∀ node ∈ e.nodes .nested, node.fuses = false := by
  have hends : Ends [] := by
    intro c hc
    cases hc
  have hclear :=
    (byParts_bounded alphabet).expr e hnames 0 Precedence.sequence [] (hends.before e _)
  have hread := @tokenizes_chars_iff alphabet (e.pieces 0 Precedence.sequence) [] []
  rw [List.append_nil, List.append_nil, and_iff_left .done] at hread
  rw [Expr.source, Piece.toList_render, hread, hclear]
  rfl

/-- Different signs stay apart. -/
def Expr.crossed : Expr := .unary .neg (.unary .plus (.member (.ident "x") "y"))

theorem Expr.tokenizes_source_crossed : crossed.source.toList = "-+x.y".toList ∧
    Tokenizes .ascii crossed.source.toList (["-", "+", "x", ".", "y"].map String.toList) := by
  have hnames : Named .ascii (crossed.nodes .nested) := by
    unfold Named
    decide
  refine ⟨Piece.toList_render _, (tokenizes_source_iff .ascii hnames).mpr fun node hnode => ?_⟩
  revert node hnode
  decide

/-- A sign before the same sign. -/
def Expr.negatedTwice : Expr := .unary .neg (.unary .neg (.ident "x"))

/-- What was written as two signs is read as another operator. -/
theorem Expr.negatedTwice_misread : Named .ascii (negatedTwice.nodes .nested) ∧
    Tokenizes .ascii negatedTwice.source.toList (["--", "x"].map String.toList) ∧
    Piece.tokenTexts (negatedTwice.pieces 0 Precedence.sequence) =
      ["-", "-", "x"].map String.toList ∧
    ¬ Tokenizes .ascii negatedTwice.source.toList (["-", "-", "x"].map String.toList) := by
  have hminus : Taken .ascii "--".toList "x".toList := by
    refine taken_punct (by decide) (by decide) fun c hc => ?_
    cases hc
    decide
  have hname : Taken .ascii "x".toList [] := by
    refine taken_name (by decide) fun c hc => ?_
    cases hc
  have hread : Tokenizes .ascii negatedTwice.source.toList (["--", "x"].map String.toList) := by
    rw [source, Piece.toList_render]
    exact .token hminus (.token hname .done)
  have hnames : Named .ascii (negatedTwice.nodes .nested) := by
    unfold Named
    decide
  refine ⟨hnames, hread, rfl, fun hwritten => ?_⟩
  exact absurd (hread.unique hwritten) (by decide)

end Statements

end StaticInliner
