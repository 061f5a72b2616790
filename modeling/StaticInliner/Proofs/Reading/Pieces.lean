import StaticInliner.Proofs.Reading.Legible
import StaticInliner.Proofs.Reading.Numerals

/-!
Printed pieces and longest match. A text is read as the tokens it was put together from if each
of them is the one taken at its place, which depends on the characters after it. Blanks and
brackets end every token before them; an expression comes after its first operand, if it has one,
and then no name can run on.
-/
namespace StaticInliner

open Lexical

section Pieces

variable (alphabet : Alphabet)

/-- Each token of the pieces is the one that is read at its place, before the given rest. -/
def Clear : List Piece → List Char → Prop
  | [], _ => True
  | .token token :: pieces, rest =>
    Taken alphabet token.text.toList (Piece.chars pieces ++ rest) ∧ Clear pieces rest
  | .space :: pieces, rest | .newline :: pieces, rest | .indent _ :: pieces, rest =>
    Clear pieces rest

/-- The texts of the tokens among the pieces. -/
def Piece.tokenTexts (pieces : List Piece) : List (List Char) :=
  (Piece.tokens pieces).map (·.text.toList)

variable {alphabet}

@[simp] theorem Piece.chars_singleton (piece : Piece) : Piece.chars [piece] = piece.text.toList :=
  List.append_nil _

@[simp] theorem clear_nil (rest : List Char) : Clear alphabet [] rest := trivial

@[simp] theorem clear_token_iff (token : Token) (pieces : List Piece) (rest : List Char) :
    Clear alphabet (.token token :: pieces) rest ↔
      Taken alphabet token.text.toList (Piece.chars pieces ++ rest) ∧ Clear alphabet pieces rest :=
        Iff.rfl

@[simp] theorem clear_word_iff (text : String) (pieces : List Piece) (rest : List Char) :
    Clear alphabet (.word text :: pieces) rest ↔
      Taken alphabet text.toList (Piece.chars pieces ++ rest) ∧ Clear alphabet pieces rest :=
        Iff.rfl

@[simp] theorem clear_punct_iff (text : String) (pieces : List Piece) (rest : List Char) :
    Clear alphabet (.punct text :: pieces) rest ↔
      Taken alphabet text.toList (Piece.chars pieces ++ rest) ∧ Clear alphabet pieces rest :=
        Iff.rfl

@[simp] theorem clear_space_iff (pieces : List Piece) (rest : List Char) :
    Clear alphabet (.space :: pieces) rest ↔ Clear alphabet pieces rest := Iff.rfl

@[simp] theorem clear_newline_iff (pieces : List Piece) (rest : List Char) :
    Clear alphabet (.newline :: pieces) rest ↔ Clear alphabet pieces rest := Iff.rfl

@[simp] theorem clear_indent_iff (level : Nat) (pieces : List Piece) (rest : List Char) :
    Clear alphabet (.indent level :: pieces) rest ↔ Clear alphabet pieces rest := Iff.rfl

@[simp] theorem clear_append_iff (first second : List Piece) (rest : List Char) :
    Clear alphabet (first ++ second) rest ↔
      Clear alphabet first (Piece.chars second ++ rest) ∧ Clear alphabet second rest := by
  induction first with
  | nil => simp
  | cons piece pieces ih =>
    cases piece <;> simp [ih, and_assoc]

theorem Piece.isBlank_indent (level : Nat) :
    ∀ c ∈ (Piece.indent level).text.toList, isBlank c = true := by
  have hpushed (n : Nat) (out : String) (hout : ∀ c ∈ out.toList, isBlank c = true) :
      ∀ c ∈ (n.repeat (fun s => s.push ' ') out).toList, isBlank c = true := by
    induction n with
    | zero => exact hout
    | succ n ih =>
      rw [Nat.repeat, String.toList_push]
      exact List.forall_mem_append.mpr ⟨ih, List.forall_mem_singleton.mpr rfl⟩
  exact hpushed (2 * level) "" (List.forall_mem_nil _)

theorem tokenizes_blanks_iff {blanks rest : List Char} (h : ∀ c ∈ blanks, isBlank c = true)
    {tokens : List (List Char)} :
    Tokenizes alphabet (blanks ++ rest) tokens ↔ Tokenizes alphabet rest tokens := by
  induction blanks with
  | nil => rfl
  | cons c blanks ih =>
    obtain ⟨hc, hblanks⟩ := List.forall_mem_cons.mp h
    rw [List.cons_append, tokenizes_blank_iff hc, ih hblanks]

/-- A text is read as the tokens it was put together from if each of them is taken. -/
theorem tokenizes_chars_iff (pieces : List Piece) (rest : List Char) (tokens : List (List Char)) :
    Tokenizes alphabet (Piece.chars pieces ++ rest) (Piece.tokenTexts pieces ++ tokens) ↔
      Clear alphabet pieces rest ∧ Tokenizes alphabet rest tokens := by
  induction pieces with
  | nil => simp [Piece.tokenTexts]
  | cons piece pieces ih =>
    rw [Piece.chars_cons, List.append_assoc]
    cases piece with
    | token token =>
      have htexts : Piece.tokenTexts (.token token :: pieces) =
          token.text.toList :: Piece.tokenTexts pieces := rfl
      rw [htexts, List.cons_append, clear_token_iff, Piece.text, tokenizes_token_iff, ih, and_assoc]
    | space => exact (tokenizes_blank_iff rfl).trans ih
    | newline => exact (tokenizes_blank_iff rfl).trans ih
    | indent level => exact (tokenizes_blanks_iff (Piece.isBlank_indent level)).trans ih

end Pieces

section Followers

variable {alphabet : Alphabet} {rest : List Char}

/-- What the printer writes directly after a word or an expression, apart from a point. -/
def delimiters : List Char := " )],;([:".toList

/-- The text is over or goes on with a delimiter. -/
def Ends (rest : List Char) : Prop := ∀ c ∈ rest.head?, c ∈ delimiters

/-- The text is over or goes on with a delimiter or a point. -/
def Stops (rest : List Char) : Prop := ∀ c ∈ rest.head?, c ∈ '.' :: delimiters

theorem ends_cons {c : Char} (h : c ∈ delimiters) (rest : List Char) : Ends (c :: rest) := by
  intro d hd
  cases hd
  exact h

theorem stops_cons {c : Char} (h : c ∈ '.' :: delimiters) (rest : List Char) :
    Stops (c :: rest) := by
  intro d hd
  cases hd
  exact h

theorem Ends.stops (h : Ends rest) : Stops rest := fun c hc => List.mem_cons_of_mem _ (h c hc)

theorem taken_word {text : String} (h : IsName alphabet text.toList) (hrest : Stops rest) :
    Taken alphabet text.toList rest :=
  taken_name h fun c hc => continues_eq_false (by decide) (hrest c hc)

/-- What follows begins with the first character of a piece. -/
theorem Piece.exists_chars_eq {piece : Piece} {c : Char} (h : piece.text.toList.head? = some c)
    (pieces : List Piece) (rest : List Char) :
    ∃ more, Piece.chars (piece :: pieces) ++ rest = c :: more := by
  cases hlist : piece.text.toList with
  | nil =>
    rw [hlist] at h
    cases h
  | cons d others =>
    rw [hlist] at h
    cases h
    rw [Piece.chars_cons, List.append_assoc, hlist]
    exact ⟨_, rfl⟩

/-- Brackets and separators are never part of a longer punctuator. -/
theorem taken_bracket {text : String}
    (h : text ∈ ["(", ")", "[", "]", "\x7b", "\x7d", ";", ",", ":"]) (rest : List Char) :
    Taken alphabet text.toList rest := by
  have hall : ["(", ")", "[", "]", "\x7b", "\x7d", ";", ",", ":"].all (fun text =>
      punctuators.contains text && text.toList.head? != some '.' && (extensions text).isEmpty &&
        text.toList != ['?', '.'] && text.toList != ['/']) = true := by decide +kernel
  have htext := List.all_eq_true.mp hall text h
  simp only [Bool.and_eq_true, List.contains_iff_mem, bne_iff_ne, List.isEmpty_iff] at htext
  obtain ⟨⟨⟨⟨hpunct, hpoint⟩, hextensions⟩, hquestion⟩, hslash⟩ := htext
  refine taken_punct hpunct hpoint fun c _ => ⟨?_, forbidden_eq_false hquestion hslash c⟩
  rw [hextensions]
  exact List.not_mem_nil

/-- A punctuator ends before a blank. -/
theorem taken_operator {text : String} (h : text ∈ punctuators)
    (hpoint : text.toList.head? ≠ some '.') (rest : List Char) :
    Taken alphabet text.toList (' ' :: rest) := by
  refine taken_punct h hpoint fun c hc => ?_
  cases hc
  refine ⟨fun hmem => absurd (mem_punctuation_of_mem_extensions hmem) (by decide), ?_⟩
  simp [forbidden]

/-- A number ends before a delimiter, and before a point if it has a point or is a name. -/
theorem NumberText.taken {text : List Char} (h : NumberText text)
    (hrest : ∀ c ∈ rest.head?, c ∈ delimiters ∨ c = '.' ∧ text.all Char.isDigit = false) :
    Taken alphabet text rest := by
  have hdelimiter {c : Char} (hc : c ∈ delimiters) (before : List Char) :
      alphabet.begins c = false ∧ c.isDigit = false ∧ ∀ more,
      ¬ IsNumeral (before ++ c :: more) := by
    have hall : delimiters.all (fun c => !c.isDigit && !numeralChars.contains c) = true := by decide
    have hclass := List.all_eq_true.mp hall c hc
    simp only [Bool.and_eq_true, Bool.not_eq_true', List.contains_eq_mem,
      decide_eq_false_iff_not] at hclass
    refine ⟨begins_eq_false (by decide) hc, hclass.1, fun more hlonger => hclass.2 ?_⟩
    exact hlonger.mem_numeralChars c (List.mem_append_right _ List.mem_cons_self)
  cases h with
  | name hname =>
    refine taken_name (isName_of_mem hname) fun c hc => ?_
    have hstop : c ∈ '.' :: delimiters := by
      rcases hrest c hc with hc | ⟨rfl, -⟩
      · exact List.mem_cons_of_mem _ hc
      · exact List.mem_cons_self
    exact continues_eq_false (by decide) hstop
  | whole hwhole =>
    have hnumeral : IsNumeral (text ++ []) := .whole hwhole .absent
    rw [List.append_nil] at hnumeral
    refine taken_numeral hnumeral hwhole.exists_eq fun next hnext => ?_
    rcases hrest next hnext with hnext | ⟨-, hpoint⟩
    · exact hdelimiter hnext _
    · rw [hwhole.all_isDigit] at hpoint
      cases hpoint
  | @fraction whole digits hwhole hdigits =>
    have hnumeral : IsNumeral (whole ++ '.' :: (digits ++ [])) := .point hwhole hdigits .absent
    rw [List.append_nil] at hnumeral
    obtain ⟨c, others, hwhole, hc⟩ := hwhole.exists_eq
    refine taken_numeral hnumeral ⟨c, others ++ '.' :: digits, by rw [hwhole]; rfl, hc⟩
      fun next hnext => ?_
    rcases hrest next hnext with hnext | ⟨rfl, -⟩
    · exact hdelimiter hnext _
    · refine ⟨begins_of_mem_punctuation (by decide), rfl, fun more hlonger => ?_⟩
      have hcount := hlonger.count_point_le
      rw [List.count_append, List.count_append, List.count_cons_self,
        List.count_cons_self] at hcount
      omega

end Followers

section Functions

/-- A function literal, be it a declaration or an expression. -/
def FunctionLit.pieces (level : Nat) (fn : FunctionLit) : List Piece :=
  .word "function" :: (Piece.optional fn.name ++ Piece.parens (Piece.commaWords fn.params) ++
    .space :: Stmt.blockPieces level fn.body)

theorem Expr.bare_function (level : Nat) (fn : FunctionLit) :
    (Expr.function fn).pieces level 0 = fn.pieces level := by
  cases fn
  rfl

theorem Stmt.pieces_function (level : Nat) (fn : FunctionLit) :
    (Stmt.function fn).pieces level = fn.pieces level := by
  cases fn
  rfl

/-- A function literal that is called has parentheses of its own. -/
theorem Expr.bare_call_function (level : Nat) (fn : FunctionLit) (args : List Expr) :
    (Expr.call (.function fn) args).pieces level 0 =
      Piece.parens (fn.pieces level) ++ Piece.parens (Expr.commaPieces level args) := by
  cases fn
  rfl

theorem Expr.bare_number (level : Nat) (x : Float) :
    (Expr.number x).pieces level 0 = Piece.number x := by
  rw [Expr.pieces, if_neg (Nat.not_lt_zero _)]

end Functions

section First

namespace Expr

theorem pieces_of_le (level : Nat) {least : Nat} {e : Expr} (h : least ≤ e.precedence) :
    e.pieces level least = e.pieces level 0 := by
  rw [pieces_eq, if_neg (Nat.not_lt.mpr h)]

/-- The operand that the text of an expression begins with, and the precedence it must have there.
A function literal that is called has parentheses around it. -/
def first? : Expr → Option (Expr × Nat)
  | .member object _ | .index object _ => some (object, Precedence.call)
  | .call callee _ => if callee.isFunction then none else some (callee, Precedence.call)
  | .assign target _ _ => some (target, Precedence.call)
  | .binary op left _ => some (left, Precedence.binary op)
  | .logical op left _ => some (left, Precedence.logical op)
  | .conditional condition _ _ => some (condition, Precedence.conditional + 1)
  | .sequence (item :: _) => some (item, Precedence.assignment)
  | _ => none

theorem mem_children_of_first? {e operand : Expr} {least : Nat}
    (h : e.first? = some (operand, least)) :
    operand ∈ e.children := by
  cases e with
  | member _ _ | index _ _ | assign _ _ _ | binary _ _ _ | logical _ _ _ | conditional _ _ _ =>
    cases h
    exact List.mem_cons_self
  | call callee _ =>
    rw [first?] at h
    split at h <;> cases h
    exact List.mem_cons_self
  | sequence items =>
    cases items <;> cases h
    exact List.mem_cons_self
  | _ => cases h

/-- The first operand binds as tightly as the whole. -/
theorem precedence_le_of_first? {e operand : Expr} {least : Nat}
    (h : e.first? = some (operand, least)) : e.precedence ≤ least := by
  cases e with
  | member _ _ | index _ _ | binary _ _ _ | logical _ _ _ =>
    cases h
    exact Nat.le_refl _
  | assign _ _ _ | conditional _ _ _ =>
    cases h
    exact Nat.le_of_ble_eq_true rfl
  | call callee _ =>
    rw [first?] at h
    split at h <;> cases h
    exact Nat.le_refl _
  | sequence items =>
    cases items <;> cases h
    exact Nat.le_of_ble_eq_true rfl
  | _ => cases h

/-- The first operand comes first in the text, and no name runs on after it. -/
theorem exists_pieces_eq_of_first? {e operand : Expr} {least : Nat}
    (h : e.first? = some (operand, least)) (level : Nat) : ∃ tail,
      e.pieces level 0 = operand.pieces level least ++ tail ∧
        ∀ rest, Stops rest → Stops (Piece.chars tail ++ rest) := by
  have hcons {piece : Piece} {d : Char} (hpiece : piece.text.toList.head? = some d)
      (hd : d ∈ '.' :: delimiters) (tail : List Piece) (rest : List Char) :
      Stops (Piece.chars (piece :: tail) ++ rest) := by
    obtain ⟨more, hmore⟩ := Piece.exists_chars_eq hpiece tail rest
    rw [hmore]
    exact stops_cons hd more
  cases e with
  | member _ _ | index _ _ | assign _ _ _ | conditional _ _ _ =>
    cases h
    exact ⟨_, rfl, fun rest _ => hcons rfl (by decide) _ _⟩
  | binary _ _ _ =>
    cases h
    exact ⟨_, bare_binary level _ _ _, fun rest _ => hcons rfl (by decide) _ _⟩
  | logical _ _ _ =>
    cases h
    exact ⟨_, bare_logical level _ _ _, fun rest _ => hcons rfl (by decide) _ _⟩
  | call callee args =>
    rw [first?] at h
    cases hfunction : callee.isFunction with
    | true =>
      rw [if_pos hfunction] at h
      cases h
    | false =>
      rw [if_neg (by simp [hfunction])] at h
      cases h
      exact ⟨_, bare_call level hfunction args, fun rest _ => hcons rfl (by decide) _ _⟩
  | sequence items =>
    cases items with
    | nil => cases h
    | cons item others =>
      cases h
      refine ⟨_, commaPieces_cons level _ others, ?_⟩
      cases others with
      | nil => exact fun rest hrest => hrest
      | cons second others => exact fun rest _ => hcons rfl (by decide) _ _
  | _ => cases h

end Expr

end First

end StaticInliner
