import StaticInliner.Proofs.Parts
import StaticInliner.Proofs.Reading.Parse
import StaticInliner.Proofs.Reading.Pieces

/-!
Statements that begin like a declaration. An expression statement that is a function literal is
put in parentheses, and so is a literal that is called. A literal further to the left is not:
as the object of a member, or as the first operand of an operator, it is the first thing in the
text, and the statement begins with `function`.
-/
namespace StaticInliner

open Lexical

section Leading

/-- A function literal comes first in the text of the expression, outside of parentheses. -/
inductive Expr.Leads : Expr → Prop
  | function (fn : FunctionLit) : Leads (.function fn)
  | operand {e operand : Expr} {least : Nat} : e.first? = some (operand, least) →
    least ≤ operand.precedence → Leads operand → Leads e

/-- The first token of the text. -/
def Lexical.FirstToken (alphabet : Alphabet) (text token : List Char) : Prop :=
  ∃ rest, text = token ++ rest ∧ Taken alphabet token rest

variable {alphabet : Alphabet}

theorem Lexical.Taken.firstToken_iff {token other rest : List Char}
    (h : Taken alphabet token rest) :
    FirstToken alphabet (token ++ rest) other ↔ other = token := by
  constructor
  · rintro ⟨rest', heq, htaken⟩
    exact (htaken.unique h heq.symm).1
  · rintro rfl
    exact ⟨rest, rfl, h⟩

theorem not_firstToken_function {text : List Char} (h : text.head? ≠ some 'f') :
    ¬ FirstToken alphabet text "function".toList := by
  rintro ⟨rest, rfl, -⟩
  exact h rfl

theorem not_firstToken_word {text : String} (h : IsName alphabet text.toList)
    (hne : text ≠ "function") {rest : List Char} (hrest : Stops rest) :
    ¬ FirstToken alphabet (text.toList ++ rest) "function".toList := by
  rw [(taken_word h hrest).firstToken_iff]
  exact fun heq => hne (String.toList_inj.mp heq).symm

theorem NumberText.head?_ne {text : List Char} (h : NumberText text) (rest : List Char) :
    (text ++ rest).head? ≠ some 'f' := by
  obtain ⟨c, more, rfl, hc⟩ := h.exists_eq
  rintro ⟨rfl⟩
  revert hc
  decide

/-- All identifiers are names other than `function`. -/
def Proper (alphabet : Alphabet) (nodes : List Node) : Prop :=
  ∀ node ∈ nodes, ∀ name, node = .expr (.ident name) →
    IsName alphabet name.toList ∧ name ≠ "function"

theorem Expr.not_leads_of_first? {e : Expr} (he : e.ownsLayer = false) (h : e.first? = none) :
    ¬ e.Leads := by
  intro hleads
  cases hleads with
  | function _ => cases he
  | operand hfirst _ _ =>
    rw [h] at hfirst
    cases hfirst

/-- An expression without a first operand does not begin with `function`, unless it is a literal. -/
theorem Expr.not_firstToken_of_first? {e : Expr} (he : e.ownsLayer = false)
    (hfirst : e.first? = none) (hproper : Proper alphabet (e.nodes .nested)) (level : Nat)
    {rest : List Char}
    (hrest : Stops rest) :
    ¬ FirstToken alphabet (Piece.chars (e.pieces level 0) ++ rest) "function".toList := by
  have hkeyword {text : String} (h : Letters text.toList)
    (hne : text ≠ "function") {rest : List Char}
      (hrest : Stops rest) : ¬ FirstToken alphabet (text.toList ++ rest) "function".toList :=
    not_firstToken_word h.isName hne hrest
  have hspace (pieces : List Piece) : Stops (Piece.chars (.space :: pieces) ++ rest) :=
    stops_cons (by decide) _
  cases e with
  | undefined | null | this =>
    simp only [bare_undefined, bare_null, bare_this, Piece.chars_singleton]
    exact hkeyword (by decide) (by decide) hrest
  | bool value =>
    rw [bare_bool, Piece.chars_singleton]
    cases value <;> exact hkeyword (by decide) (by decide) hrest
  | number x =>
    have hnumber := (Binary64.numberText_magnitude (Binary64.ofFloat x)).head?_ne rest
    refine not_firstToken_function ?_
    rw [bare_number, Piece.number]
    cases (Binary64.ofFloat x).isNegative with
    | true =>
      intro heq
      cases heq
    | false =>
      rw [if_neg (by decide), Piece.chars_singleton]
      exact hnumber
  | string value =>
    refine not_firstToken_function ?_
    rw [bare_string, Piece.chars_singleton, Piece.text, Token.text, String.toList_ofList]
    intro heq
    cases heq
  | ident name =>
    obtain ⟨hname, hne⟩ := hproper _ (Expr.self_mem_nodes .nested _) name rfl
    rw [bare_ident, Piece.chars_singleton]
    exact not_firstToken_word hname hne hrest
  | call callee args =>
    cases callee with
    | function fn =>
      refine not_firstToken_function ?_
      rw [bare_call_function]
      intro heq
      cases heq
    | _ => cases hfirst
  | new callee args =>
    rw [bare_new, Piece.chars_cons, List.append_assoc]
    exact hkeyword (by decide) (by decide) (hspace _)
  | unary op operand =>
    rw [bare_unary]
    cases hword : op.isWord with
    | true =>
      have hletters : Letters op.text.toList ∧ op.text ≠ "function" := by
        revert hword
        cases op <;> decide
      rw [if_pos rfl, List.cons_append, List.singleton_append, Piece.chars_cons, List.append_assoc]
      exact hkeyword hletters.1 hletters.2 (hspace _)
    | false =>
      obtain ⟨c, htext, hc⟩ := UnaryOp.sign_text hword
      refine not_firstToken_function fun heq => ?_
      rw [if_neg (by decide), List.singleton_append, Piece.chars_cons, htext, Piece.punct,
        Piece.text, Token.text, String.toList_ofList] at heq
      cases heq
      cases hc
  | sequence items =>
    cases items with
    | cons item others => cases hfirst
    | nil =>
      refine not_firstToken_function fun heq => ?_
      exact absurd (hrest 'f' heq) (by decide)
  | array items =>
    refine not_firstToken_function ?_
    rw [bare_array]
    intro heq
    cases heq
  | function _ => cases he
  | member _ _ | index _ _ | assign _ _ _ | binary _ _ _ | logical _ _ _ | conditional _ _ _ =>
    cases hfirst

/-- The text of an expression begins with `function` just if a literal leads it. -/
theorem Expr.firstToken_pieces_iff {e : Expr} (hproper : Proper alphabet (e.nodes .nested))
    (level : Nat) {rest : List Char} (hrest : Stops rest) :
    FirstToken alphabet (Piece.chars (e.pieces level 0) ++ rest) "function".toList ↔ e.Leads := by
  induction e using Expr.byOperands generalizing rest with
  | operation e he ih =>
    obtain ⟨-, hoperands⟩ := (Expr.forall_nodes_iff he).mp hproper
    cases hfirst : e.first? with
    | none =>
      exact iff_of_false (Expr.not_firstToken_of_first? he hfirst hproper level hrest)
        (Expr.not_leads_of_first? he hfirst)
    | some first =>
      obtain ⟨operand, least⟩ := first
      have hchild := Expr.mem_children_of_first? hfirst
      obtain ⟨tail, hpieces, htail⟩ := Expr.exists_pieces_eq_of_first? hfirst level
      have hoperand := ih operand hchild (hoperands operand hchild) (htail rest hrest)
      rw [hpieces, Piece.chars_append, List.append_assoc, Expr.pieces_eq]
      by_cases hparens : operand.precedence < least
      · rw [if_pos hparens]
        refine iff_of_false (not_firstToken_function fun heq => ?_) fun hleads => ?_
        · cases heq
        · cases hleads with
          | function _ => cases he
          | operand hother hle _ =>
            cases hfirst.symm.trans hother
            omega
      · rw [if_neg hparens, hoperand]
        refine ⟨.operand hfirst (by omega), fun hleads => ?_⟩
        cases hleads with
        | function _ => cases he
        | operand hother _ hleads =>
          cases hfirst.symm.trans hother
          exact hleads
  | literal fn =>
    have hnext :
      Stops (Piece.chars (Piece.optional fn.name ++ Piece.parens (Piece.commaWords fn.params) ++
        .space :: Stmt.blockPieces level fn.body) ++ rest) := by
      cases fn.name <;> exact stops_cons (by decide) _
    rw [Expr.bare_function, FunctionLit.pieces, Piece.chars_cons, List.append_assoc]
    exact iff_of_true ⟨_, rfl, taken_word (Letters.isName (by decide)) hnext⟩ (.function fn)

theorem Stmt.toList_source_expr (e : Expr) : (Stmt.expr e).source.toList =
    Piece.chars (if e.isFunction then Piece.parens (e.pieces 0 Precedence.sequence)
      else e.pieces 0 Precedence.sequence) ++ [';', '\n'] := by
  rw [Stmt.source, Stmt.sourceAll, Piece.toList_render, Stmt.linePieces, Stmt.linePieces,
    Stmt.pieces]
  simp only [Piece.chars_cons, Piece.chars_append, Piece.chars_nil, List.append_assoc]
  rfl

/-- An expression statement begins with `function` just if it is not a function literal itself and
a literal comes first in it. -/
theorem Stmt.firstToken_source_iff (alphabet : Alphabet) {e : Expr}
    (hidents : ∀ name, Node.expr (.ident name) ∈ e.nodes .nested →
      IsName alphabet name.toList ∧ name ≠ "function") :
    FirstToken alphabet (Stmt.expr e).source.toList "function".toList ↔
      e.isFunction = false ∧ e.Leads := by
  have hrest : Stops [';', '\n'] := stops_cons (by decide) _
  have hproper : Proper alphabet (e.nodes .nested) :=
    fun node hnode name heq => hidents name (heq ▸ hnode)
  have hleads := e.firstToken_pieces_iff hproper 0 hrest
  have hle : Precedence.sequence ≤ e.precedence := Parse.one_le_precedence e
  rw [toList_source_expr]
  cases hfunction : e.isFunction with
  | true =>
    refine iff_of_false (not_firstToken_function fun heq => ?_) fun h => absurd h.1 (by decide)
    cases heq
  | false => rw [if_neg (by decide), Expr.pieces_of_le 0 hle, hleads, and_iff_right rfl]

/-- A literal that is called at once. -/
def Expr.invoked : Expr := .call (.function ⟨0, none, [], []⟩) [.ident "x"]

theorem Stmt.firstToken_source_invoked :
    ¬ FirstToken .ascii (Stmt.expr .invoked).source.toList "function".toList := by
  have hidents : ∀ name, Node.expr (.ident name) ∈ Expr.invoked.nodes .nested →
      IsName .ascii name.toList ∧ name ≠ "function" := by
    intro name hname
    have hnodes : Expr.invoked.nodes .nested =
        [.expr .invoked, .expr (.function ⟨0, none, [], []⟩), .expr (.ident "x")] := rfl
    rw [hnodes, Expr.invoked] at hname
    obtain rfl : name = "x" := by simpa using hname
    decide
  rw [firstToken_source_iff .ascii hidents]
  exact fun h => Expr.not_leads_of_first? rfl rfl h.2

/-- A member of a literal. -/
def Expr.attached : Expr := .member (.function ⟨0, none, [], []⟩) "x"

/-- The statement begins like a declaration without a name. -/
theorem Stmt.attached_leads :
    (Stmt.expr .attached).source.toList = "function() \x7b\x7d.x;\n".toList ∧
    FirstToken .ascii (Stmt.expr .attached).source.toList "function".toList := by
  have hsource : (Stmt.expr .attached).source.toList = "function() \x7b\x7d.x;\n".toList :=
    Stmt.toList_source_expr _
  refine ⟨hsource, "() \x7b\x7d.x;\n".toList, hsource, taken_word (Letters.isName (by decide)) ?_⟩
  exact stops_cons (by decide) _

end Leading

end StaticInliner
