import StaticInliner.Syntax.Printer

/-!
Reading source text as tokens. A word is as long as it can be. Brackets, dots and commas stand
alone. Of a run of sign characters, the blank after it decides what it is: an operator between
two operands has one, and is the whole run; otherwise each character is an operator in front of
an operand. This is how expressions are written, and so the tokens of a legible expression are
read from its text one by one.
-/
namespace StaticInliner

/-- Letters, digits, `_`, `$` and everything beyond ASCII: identifiers are made of them. -/
def isWordChar (c : Char) : Bool := c.isAlphanum || c == '_' || c == '$' || 128 ≤ c.toNat

def isSignChar (c : Char) : Bool := "+-*/%=!<>&|^~?:".toList.contains c

/-- What stands after a backslash, taken back. -/
def unescape (c : Char) : Char :=
  if c = 'n' then '\n' else if c = 'r' then '\r' else if c = 't' then '\t' else c

namespace Scan

/-- A token of which the end has not been seen. -/
inductive Pending where
  | none
  | word (chars : List Char)
  | signs (chars : List Char)
  | quoted (chars : List Char)
  | escaped (chars : List Char)

structure State where
  tokens : List Token
  pending : Pending

/-- The operators in front of an operand, one character each. -/
def single (c : Char) : Token := .punct (.ofList [c])

/-- The first character of a token, or one between tokens. -/
def start (tokens : List Token) (c : Char) : State :=
  if c = ' ' then ⟨tokens, .none⟩
  else if isWordChar c then ⟨tokens, .word [c]⟩
  else if isSignChar c then ⟨tokens, .signs [c]⟩
  else if c = '"' then ⟨tokens, .quoted []⟩
  else ⟨tokens ++ [single c], .none⟩

def step (state : State) (c : Char) : State :=
  match state.pending with
  | .none => start state.tokens c
  | .word chars =>
    if isWordChar c then ⟨state.tokens, .word (chars ++ [c])⟩
    else start (state.tokens ++ [.word (.ofList chars)]) c
  | .signs chars =>
    if isSignChar c then ⟨state.tokens, .signs (chars ++ [c])⟩
    else if c = ' ' then ⟨state.tokens ++ [.punct (.ofList chars)], .none⟩
    else start (state.tokens ++ chars.map single) c
  | .quoted chars =>
    if c = '"' then ⟨state.tokens ++ [.quoted (.ofList chars)], .none⟩
    else if c = '\\' then ⟨state.tokens, .escaped chars⟩
    else ⟨state.tokens, .quoted (chars ++ [c])⟩
  | .escaped chars => ⟨state.tokens, .quoted (chars ++ [unescape c])⟩

def finish (state : State) : List Token :=
  match state.pending with
  | .word chars => state.tokens ++ [.word (.ofList chars)]
  | .signs chars => state.tokens ++ chars.map single
  | .none | .quoted _ | .escaped _ => state.tokens

/-- The rest of a text, after some tokens. -/
def read (state : State) (text : List Char) : List Token := finish (text.foldl step state)

end Scan

/-- The tokens of a text. -/
def scan (text : String) : List Token := Scan.read ⟨[], .none⟩ text.toList

/-- A nonempty text of word characters. -/
def IsWord (text : String) : Prop := text ≠ "" ∧ text.toList.all isWordChar = true

instance (text : String) : Decidable (IsWord text) := inferInstanceAs (Decidable (_ ∧ _))

/-- A nonempty text of sign characters. -/
def IsSigns (text : String) : Prop := text ≠ "" ∧ text.toList.all isSignChar = true

instance (text : String) : Decidable (IsSigns text) := inferInstanceAs (Decidable (_ ∧ _))

/-- The text does not go on with a word character. -/
def Outside (text : List Char) : Prop := ∀ c ∈ text.head?, isWordChar c = false

/-- The text goes on, perhaps after some signs, with a character other than a blank. -/
def Tight : List Char → Prop
  | [] => False
  | c :: rest => if isSignChar c then Tight rest else c ≠ ' '

namespace Piece

/-- The characters of a list of pieces. -/
def chars (pieces : List Piece) : List Char := pieces.flatMap (·.text.toList)

def token? : Piece → Option Token
  | .token t => some t
  | .space | .newline | .indent _ => none

/-- The tokens among the pieces. -/
def tokens (pieces : List Piece) : List Token := pieces.filterMap token?

@[simp] theorem chars_nil : chars [] = [] := rfl
@[simp] theorem chars_cons (piece : Piece) (pieces : List Piece) :
    chars (piece :: pieces) = piece.text.toList ++ chars pieces := rfl
@[simp] theorem chars_append (first second : List Piece) :
    chars (first ++ second) = chars first ++ chars second := List.flatMap_append

@[simp] theorem tokens_nil : tokens [] = [] := rfl
@[simp] theorem tokens_token (t : Token) (pieces : List Piece) :
    tokens (.token t :: pieces) = t :: tokens pieces := rfl
@[simp] theorem tokens_word (text : String) (pieces : List Piece) :
    tokens (word text :: pieces) = .word text :: tokens pieces := rfl
@[simp] theorem tokens_punct (text : String) (pieces : List Piece) :
    tokens (punct text :: pieces) = .punct text :: tokens pieces := rfl
@[simp] theorem tokens_space (pieces : List Piece) : tokens (space :: pieces) = tokens pieces := rfl
@[simp] theorem tokens_append (first second : List Piece) :
    tokens (first ++ second) = tokens first ++ tokens second := List.filterMap_append

theorem toList_render (pieces : List Piece) : (render pieces).toList = chars pieces := by
  have hfold (out : String) : (pieces.foldl (fun out piece => out ++ piece.text) out).toList =
      out.toList ++ chars pieces := by
    induction pieces generalizing out with
    | nil => simp
    | cons piece rest ih => simp [ih]
  exact hfold ""

end Piece

namespace Scan

theorem isWordChar_of_isSignChar {c : Char} (h : isSignChar c = true) : isWordChar c = false := by
  have hall : "+-*/%=!<>&|^~?:".toList.all (!isWordChar ·) = true := by decide
  have hc := List.all_eq_true.mp hall c (List.contains_iff_mem.mp h)
  rwa [Bool.not_eq_true'] at hc

theorem isSignChar_of_isWordChar {c : Char} (h : isWordChar c = true) : isSignChar c = false := by
  cases hsign : isSignChar c with
  | false => rfl
  | true => rw [isWordChar_of_isSignChar hsign] at h; cases h

theorem ne_space_of_isWordChar {c : Char} (h : isWordChar c = true) : c ≠ ' ' := by
  rintro rfl
  cases h

/-- Brackets, dots and commas are of no other class. -/
theorem plain_of_bracket {c : Char} (h : c ∈ "()[].,".toList) :
    c ≠ ' ' ∧ isWordChar c = false ∧ isSignChar c = false ∧ c ≠ '"' := by
  have hall : "()[].,".toList.all (fun c =>
      c != ' ' && !isWordChar c && !isSignChar c && c != '"') = true := by decide
  have hc := List.all_eq_true.mp hall c h
  simpa [and_assoc] using hc

variable (tokens : List Token)

theorem read_append (state : State) (first second : List Char) :
    read state (first ++ second) = read (first.foldl step state) second := by
  rw [read, read, List.foldl_append]

theorem read_space (rest : List Char) :
    read ⟨tokens, .none⟩ (' ' :: rest) = read ⟨tokens, .none⟩ rest := rfl

theorem read_bracket {c : Char} (h : c ∈ "()[].,".toList) (rest : List Char) :
    read ⟨tokens, .none⟩ (c :: rest) = read ⟨tokens ++ [single c], .none⟩ rest := by
  obtain ⟨hspace, hword, hsign, hquote⟩ := plain_of_bracket h
  have hstart : step ⟨tokens, .none⟩ c = ⟨tokens ++ [single c], .none⟩ := by
    simp [step, start, hspace, hword, hsign, hquote]
  rw [read, List.foldl_cons, hstart, read]

/-- A word ends where no word character follows. -/
theorem read_pending_word (chars : List Char) {rest : List Char} (h : Outside rest) :
    read ⟨tokens, .word chars⟩ rest =
      read ⟨tokens ++ [Token.word (.ofList chars)], .none⟩ rest := by
  cases rest with
  | nil => rfl
  | cons c rest =>
    have hc : isWordChar c = false := h c rfl
    have hstep :
        step ⟨tokens, .word chars⟩ c = step ⟨tokens ++ [Token.word (.ofList chars)], .none⟩ c := by
      simp [step, hc]
    rw [read, List.foldl_cons, hstep, read, List.foldl_cons]

theorem foldl_step_word {chars : List Char} (h : ∀ c ∈ chars, isWordChar c = true)
    (before : List Char) :
    chars.foldl step ⟨tokens, .word before⟩ = ⟨tokens, .word (before ++ chars)⟩ := by
  induction chars generalizing before with
  | nil => rw [List.append_nil]; rfl
  | cons c rest ih =>
    obtain ⟨hc, hrest⟩ := List.forall_mem_cons.mp h
    have hstep : step ⟨tokens, .word before⟩ c = ⟨tokens, .word (before ++ [c])⟩ := by
      simp [step, hc]
    rw [List.foldl_cons, hstep, ih hrest, ← List.append_cons]

/-- A word is read as one token. -/
theorem read_word {text : String} (h : IsWord text) {rest : List Char} (hrest : Outside rest) :
    read ⟨tokens, .none⟩ (text.toList ++ rest) =
      read ⟨tokens ++ [Token.word text], .none⟩ rest := by
  obtain ⟨hne, hchars⟩ := h
  cases hlist : text.toList with
  | nil => exact absurd (String.toList_eq_nil_iff.mp hlist) hne
  | cons c chars =>
    rw [hlist, List.all_eq_true] at hchars
    obtain ⟨hc, hrestChars⟩ := List.forall_mem_cons.mp hchars
    have hstep : step ⟨tokens, .none⟩ c = ⟨tokens, .word [c]⟩ := by
      simp [step, start, hc, ne_space_of_isWordChar hc]
    rw [read_append, List.foldl_cons, hstep, foldl_step_word tokens hrestChars,
      read_pending_word tokens _ hrest, List.singleton_append, ← hlist, String.ofList_toList]

theorem foldl_step_signs {chars : List Char} (h : ∀ c ∈ chars, isSignChar c = true)
    (before : List Char) :
    chars.foldl step ⟨tokens, .signs before⟩ = ⟨tokens, .signs (before ++ chars)⟩ := by
  induction chars generalizing before with
  | nil => rw [List.append_nil]; rfl
  | cons c rest ih =>
    obtain ⟨hc, hrest⟩ := List.forall_mem_cons.mp h
    have hstep : step ⟨tokens, .signs before⟩ c = ⟨tokens, .signs (before ++ [c])⟩ := by
      simp [step, hc]
    rw [List.foldl_cons, hstep, ih hrest, ← List.append_cons]

theorem step_sign {c : Char} (h : isSignChar c = true) :
    step ⟨tokens, .none⟩ c = ⟨tokens, .signs [c]⟩ := by
  have hspace : c ≠ ' ' := by
    rintro rfl
    cases h
  simp [step, start, h, isWordChar_of_isSignChar h, hspace]

/-- A run of signs with a blank after it is one operator. -/
theorem read_operator {text : String} (h : IsSigns text) (rest : List Char) :
    read ⟨tokens, .none⟩ (text.toList ++ ' ' :: rest) =
      read ⟨tokens ++ [Token.punct text], .none⟩ rest := by
  obtain ⟨hne, hchars⟩ := h
  cases hlist : text.toList with
  | nil => exact absurd (String.toList_eq_nil_iff.mp hlist) hne
  | cons c chars =>
    rw [hlist, List.all_eq_true] at hchars
    obtain ⟨hc, hchars⟩ := List.forall_mem_cons.mp hchars
    rw [read_append, List.foldl_cons, step_sign tokens hc, foldl_step_signs tokens hchars,
      List.singleton_append, ← hlist]
    have hspace :
        step ⟨tokens, .signs text.toList⟩ ' ' = ⟨tokens ++ [Token.punct text], .none⟩ := by
      simp [step, isSignChar]
    rw [read, List.foldl_cons, hspace, read]

/-- Before an operand, signs are read one by one. -/
theorem read_pending_signs (chars : List Char) {rest : List Char} (h : Tight rest) :
    read ⟨tokens, .signs chars⟩ rest = read ⟨tokens ++ chars.map single, .none⟩ rest := by
  induction rest generalizing tokens chars with
  | nil => exact h.elim
  | cons c rest ih =>
    rw [Tight] at h
    rw [read, List.foldl_cons, read, List.foldl_cons]
    by_cases hc : isSignChar c = true
    · rw [if_pos hc] at h
      have hstep : step ⟨tokens, .signs chars⟩ c = ⟨tokens, .signs (chars ++ [c])⟩ := by
        simp [step, hc]
      have hfirst := ih tokens (chars ++ [c]) h
      have hsecond := ih (tokens ++ chars.map single) [c] h
      rw [read, read] at hfirst hsecond
      rw [hstep, step_sign _ hc, hfirst, hsecond, List.map_append, List.append_assoc]
    · rw [if_neg hc] at h
      have hstep : step ⟨tokens, .signs chars⟩ c = step ⟨tokens ++ chars.map single, .none⟩ c := by
        simp [step, hc, h]
      rw [hstep]

theorem read_sign {c : Char} (hc : isSignChar c = true) {rest : List Char} (h : Tight rest) :
    read ⟨tokens, .none⟩ (c :: rest) = read ⟨tokens ++ [single c], .none⟩ rest := by
  have hread := read_pending_signs tokens [c] h
  rw [read, List.foldl_cons, step_sign tokens hc]
  exact hread

/-- An escaped character is read as the character. -/
theorem step_escape (before : List Char) (c : Char) :
    (sourceEscape c).foldl step ⟨tokens, .quoted before⟩ = ⟨tokens, .quoted (before ++ [c])⟩ := by
  unfold sourceEscape
  by_cases hquote : c = '"'
  · subst hquote; rfl
  by_cases hbackslash : c = '\\'
  · subst hbackslash; rfl
  by_cases hn : c = '\n'
  · subst hn; rfl
  by_cases hr : c = '\r'
  · subst hr; rfl
  by_cases ht : c = '\t'
  · subst ht; rfl
  simp [hquote, hbackslash, hn, hr, ht, step]

theorem foldl_step_quoted (chars before : List Char) :
    (chars.flatMap sourceEscape).foldl step ⟨tokens, .quoted before⟩ =
      ⟨tokens, .quoted (before ++ chars)⟩ := by
  induction chars generalizing before with
  | nil => rw [List.append_nil]; rfl
  | cons c rest ih =>
    rw [List.flatMap_cons, List.foldl_append, step_escape, ih, ← List.append_cons]

/-- A quoted string is read as one token. -/
theorem read_quoted (value : String) (rest : List Char) :
    read ⟨tokens, .none⟩ ((Token.quoted value).text.toList ++ rest) =
      read ⟨tokens ++ [Token.quoted value], .none⟩ rest := by
  have hopen : step ⟨tokens, .none⟩ '"' = ⟨tokens, .quoted []⟩ := rfl
  rw [Token.text, String.toList_ofList, read_append, List.foldl_cons, hopen, List.foldl_append,
    foldl_step_quoted, List.nil_append, List.foldl_cons, List.foldl_nil]
  have hclose :
      step ⟨tokens, .quoted value.toList⟩ '"' = ⟨tokens ++ [Token.quoted value], .none⟩ := by
    simp [step]
  rw [hclose]

end Scan

end StaticInliner
