import StaticInliner.Proofs.Reading.Scan

/-!
Tokens by longest match, as the script language defines them. A token is a name, a decimal
numeral, a string in double quotes or a punctuator. At each place the longest token is taken,
whatever follows, and a numeral must not run into a name. So a text has at most one reading,
and none if some place begins no token. Strings in other quotes, escapes by number, numerals in
other bases and comments are not needed: a text that holds them has no reading here.
-/
namespace StaticInliner

/-- Which characters beyond ASCII begin a name, and which stand in one. -/
structure Alphabet where
  start : Char → Bool
  part : Char → Bool

namespace Alphabet

def ascii : Alphabet := ⟨fun _ => false, fun _ => false⟩

def begins (alphabet : Alphabet) (c : Char) : Bool :=
  c.isAlpha || c == '_' || c == '$' || (128 ≤ c.toNat && alphabet.start c)

def continues (alphabet : Alphabet) (c : Char) : Bool :=
  c.isAlphanum || c == '_' || c == '$' || (128 ≤ c.toNat && alphabet.part c)

end Alphabet

namespace Lexical

section Grammar

variable (alphabet : Alphabet)

def isBlank (c : Char) : Bool := " \t\n\r\x0b\x0c".toList.contains c

def IsName : List Char → Prop
  | [] => False
  | c :: rest => alphabet.begins c = true ∧ rest.all alphabet.continues = true

/-- Digits without a leading zero. -/
inductive IsWhole : List Char → Prop
  | zero : IsWhole ['0']
  | digits {c : Char} {rest : List Char} : c.isDigit = true → c ≠ '0' →
    rest.all Char.isDigit = true → IsWhole (c :: rest)

inductive IsExponent : List Char → Prop
  | absent : IsExponent []
  | present {mark : Char} {sign digits : List Char} :
    mark ∈ ['e', 'E'] → sign ∈ [[], ['+'], ['-']] →
    digits ≠ [] → digits.all Char.isDigit = true → IsExponent (mark :: (sign ++ digits))

inductive IsNumeral : List Char → Prop
  | whole {whole exponent : List Char} : IsWhole whole → IsExponent exponent →
    IsNumeral (whole ++ exponent)
  | point {whole digits exponent : List Char} : IsWhole whole → digits.all Char.isDigit = true →
    IsExponent exponent → IsNumeral (whole ++ '.' :: (digits ++ exponent))
  | fraction {digits exponent : List Char} : digits ≠ [] → digits.all Char.isDigit = true →
    IsExponent exponent → IsNumeral ('.' :: (digits ++ exponent))

/-- What stands after the opening quote of a string, up to the closing one. -/
inductive IsQuotedRest : List Char → Prop
  | close : IsQuotedRest ['"']
  | plain {c : Char} {rest : List Char} : c ∉ ['"', '\\', '\n', '\r'] → IsQuotedRest rest →
    IsQuotedRest (c :: rest)
  | escape {c : Char} {rest : List Char} : c.isDigit = false → c ∉ ['x', 'u'] → IsQuotedRest rest →
    IsQuotedRest ('\\' :: c :: rest)

def punctuators : List String :=
  ["\x7b", "\x7d", "(", ")", "[", "]", ".", "...", ";", ",", "<", ">", "<=", ">=", "==", "!=",
    "===", "!==", "+", "-", "*", "/", "%", "**", "++", "--", "<<", ">>", ">>>", "&", "|", "^",
    "!", "~", "&&", "||", "??", "?", "?.", ":", "=", "+=", "-=", "*=", "/=", "%=", "**=", "<<=",
    ">>=", ">>>=", "&=", "|=", "^=", "&&=", "||=", "??=", "=>"]

inductive IsToken : List Char → Prop
  | name {text : List Char} : IsName alphabet text → IsToken text
  | numeral {text : List Char} : IsNumeral text → IsToken text
  | quoted {rest : List Char} : IsQuotedRest rest → IsToken ('"' :: rest)
  | punct {text : String} : text ∈ punctuators → IsToken text.toList

/-- A digit after `?.` is the fraction of a numeral, and a second sign after `/` begins
a comment. -/
def forbidden (token : List Char) (next : Char) : Bool :=
  (token == ['?', '.'] && next.isDigit) || (token == ['/'] && (next == '/' || next == '*'))

/-- The token may stand before the rest. -/
structure Offered (token rest : List Char) : Prop where
  isToken : IsToken alphabet token
  lookahead : ∀ c ∈ rest.head?, forbidden token c = false

/-- The token is the one that is read at the beginning of a text, and the rest remains. -/
structure Taken (token rest : List Char) : Prop extends Offered alphabet token rest where
  longest : ∀ other after, other ++ after = token ++ rest → Offered alphabet other after →
    other.length ≤ token.length
  apart : IsNumeral token → ∀ c ∈ rest.head?, alphabet.begins c = false ∧ c.isDigit = false

/-- The text is read as these tokens, with blanks between them. -/
inductive Tokenizes : List Char → List (List Char) → Prop
  | done : Tokenizes [] []
  | blank {c : Char} {rest : List Char} {tokens : List (List Char)} : isBlank c = true →
    Tokenizes rest tokens → Tokenizes (c :: rest) tokens
  | token {token rest : List Char} {tokens : List (List Char)} : Taken alphabet token rest →
    Tokenizes rest tokens → Tokenizes (token ++ rest) (token :: tokens)

instance (text : List Char) : Decidable (IsName alphabet text) :=
  match text with
  | [] => inferInstanceAs (Decidable False)
  | _ :: _ => inferInstanceAs (Decidable (_ ∧ _))

end Grammar

section Characters

variable {alphabet : Alphabet} {c : Char}

theorem mem_of_isDigit (h : c.isDigit = true) : c ∈ "0123456789".toList := by
  simp only [Char.isDigit, Bool.and_eq_true, decide_eq_true_eq, UInt32.le_iff_toNat_le] at h
  have hlow : 48 ≤ c.toNat := h.1
  have hhigh : c.toNat ≤ 57 := h.2
  have hcases : c.toNat = 48 ∨ c.toNat = 49 ∨ c.toNat = 50 ∨ c.toNat = 51 ∨ c.toNat = 52 ∨
      c.toNat = 53 ∨ c.toNat = 54 ∨ c.toNat = 55 ∨ c.toNat = 56 ∨ c.toNat = 57 := by omega
  rw [← Char.ofNat_toNat c]
  rcases hcases with h | h | h | h | h | h | h | h | h | h <;> rw [h] <;> decide

/-- The characters that punctuators are made of. -/
def punctuation : List Char := "\x7b\x7d()[].;,<>=!+-*/%&|^~?:".toList

theorem mem_punctuation {text : String} (h : text ∈ punctuators) :
    ∀ c ∈ text.toList, c ∈ punctuation := by
  have hall : punctuators.all (fun text => text.toList.all punctuation.contains) = true := by decide
  intro c hc
  exact List.contains_iff_mem.mp (List.all_eq_true.mp (List.all_eq_true.mp hall text h) c hc)

/-- Below 128 it does not depend on the alphabet what begins a name. -/
theorem begins_eq_false {chars : List Char}
    (h : chars.all (fun c => decide (c.toNat < 128) && !Alphabet.ascii.begins c) = true)
    (hc : c ∈ chars) :
    alphabet.begins c = false := by
  have hclass := List.all_eq_true.mp h c hc
  simp only [Bool.and_eq_true, decide_eq_true_eq, Bool.not_eq_true'] at hclass
  obtain ⟨hlt, hbegins⟩ := hclass
  rw [← hbegins]
  simp [Alphabet.begins, Nat.not_le.mpr hlt]

theorem continues_eq_false {chars : List Char}
    (h : chars.all (fun c => decide (c.toNat < 128) && !Alphabet.ascii.continues c) = true)
    (hc : c ∈ chars) : alphabet.continues c = false := by
  have hclass := List.all_eq_true.mp h c hc
  simp only [Bool.and_eq_true, decide_eq_true_eq, Bool.not_eq_true'] at hclass
  obtain ⟨hlt, hcontinues⟩ := hclass
  rw [← hcontinues]
  simp [Alphabet.continues, Nat.not_le.mpr hlt]

theorem begins_of_isDigit (h : c.isDigit = true) : alphabet.begins c = false :=
  begins_eq_false (by decide) (mem_of_isDigit h)

theorem begins_of_mem_punctuation (h : c ∈ punctuation) : alphabet.begins c = false :=
  begins_eq_false (by decide) h

theorem begins_of_isBlank (h : isBlank c = true) : alphabet.begins c = false :=
  begins_eq_false (by decide) (List.contains_iff_mem.mp h)

theorem not_mem_punctuation_of_begins (h : alphabet.begins c = true) : c ∉ punctuation := by
  intro hc
  rw [begins_of_mem_punctuation hc] at h
  cases h

theorem isDigit_of_mem_punctuation (h : c ∈ punctuation) : c.isDigit = false := by
  have hall : punctuation.all (!Char.isDigit ·) = true := by decide
  simpa using List.all_eq_true.mp hall c h

theorem not_mem_punctuation_of_isDigit (h : c.isDigit = true) : c ∉ punctuation := by
  intro hc
  rw [isDigit_of_mem_punctuation hc] at h
  cases h

theorem not_isBlank_of_mem_punctuation (h : c ∈ punctuation) : isBlank c = false := by
  have hall : punctuation.all (!isBlank ·) = true := by decide
  simpa using List.all_eq_true.mp hall c h

theorem ne_quote_of_mem_punctuation (h : c ∈ punctuation) : c ≠ '"' := by
  rintro rfl
  revert h
  decide

theorem not_isBlank_of_isDigit (h : c.isDigit = true) : isBlank c = false := by
  have hall : "0123456789".toList.all (!isBlank ·) = true := by decide
  simpa using List.all_eq_true.mp hall c (mem_of_isDigit h)

end Characters

section Tokens

variable {alphabet : Alphabet} {c : Char} {text rest : List Char}

theorem IsWhole.all_isDigit (h : IsWhole text) : text.all Char.isDigit = true := by
  cases h with
  | zero => decide
  | digits hc _ hrest => rw [List.all_cons, hc, hrest, Bool.and_self]

theorem IsWhole.exists_eq (h : IsWhole text) :
    ∃ c digits, text = c :: digits ∧ c.isDigit = true := by
  cases h with
  | zero => exact ⟨'0', [], rfl, rfl⟩
  | digits hc _ _ => exact ⟨_, _, rfl, hc⟩

theorem IsWhole.ne_nil (h : IsWhole text) : text ≠ [] := by
  cases h <;> exact List.cons_ne_nil _ _

/-- The characters that numerals are made of. -/
def numeralChars : List Char := "0123456789.eE+-".toList

theorem mem_numeralChars_of_isDigit {digits : List Char} (h : digits.all Char.isDigit = true) :
    ∀ c ∈ digits, c ∈ numeralChars := by
  have hall : "0123456789".toList.all numeralChars.contains = true := by decide
  intro c hc
  have hdigit := mem_of_isDigit (List.all_eq_true.mp h c hc)
  exact List.contains_iff_mem.mp (List.all_eq_true.mp hall c hdigit)

theorem IsExponent.mem_numeralChars (h : IsExponent text) : ∀ c ∈ text, c ∈ numeralChars := by
  cases h with
  | absent => exact List.forall_mem_nil _
  | present hmark hsign _ hdigits =>
    refine List.forall_mem_cons.mpr ⟨?_, List.forall_mem_append.mpr
      ⟨?_, mem_numeralChars_of_isDigit hdigits⟩⟩
    · have hall : ['e', 'E'].all numeralChars.contains = true := by decide
      exact List.contains_iff_mem.mp (List.all_eq_true.mp hall _ hmark)
    · have hall : [[], ['+'], ['-']].all (·.all numeralChars.contains) = true := by decide
      exact fun c hc => List.contains_iff_mem.mp
        (List.all_eq_true.mp (List.all_eq_true.mp hall _ hsign) c hc)

theorem IsNumeral.mem_numeralChars (h : IsNumeral text) : ∀ c ∈ text, c ∈ numeralChars := by
  have hpoint : '.' ∈ numeralChars := by decide
  cases h with
  | whole hwhole hexponent =>
    exact List.forall_mem_append.mpr
      ⟨mem_numeralChars_of_isDigit hwhole.all_isDigit, hexponent.mem_numeralChars⟩
  | point hwhole hdigits hexponent =>
    exact List.forall_mem_append.mpr ⟨mem_numeralChars_of_isDigit hwhole.all_isDigit,
      List.forall_mem_cons.mpr ⟨hpoint, List.forall_mem_append.mpr
        ⟨mem_numeralChars_of_isDigit hdigits, hexponent.mem_numeralChars⟩⟩⟩
  | fraction _ hdigits hexponent =>
    exact List.forall_mem_cons.mpr ⟨hpoint, List.forall_mem_append.mpr
      ⟨mem_numeralChars_of_isDigit hdigits, hexponent.mem_numeralChars⟩⟩

theorem count_point_of_isDigit {digits : List Char} (h : digits.all Char.isDigit = true) :
    digits.count '.' = 0 := by
  refine List.count_eq_zero.mpr fun hmem => ?_
  have hdigit := List.all_eq_true.mp h '.' hmem
  revert hdigit
  decide

theorem IsExponent.count_point (h : IsExponent text) : text.count '.' = 0 := by
  cases h with
  | absent => rfl
  | present hmark hsign _ hdigits =>
    simp only [List.mem_cons, List.not_mem_nil, or_false] at hmark hsign
    rcases hmark with rfl | rfl <;> rcases hsign with rfl | rfl | rfl <;>
      simp [count_point_of_isDigit hdigits]

/-- There is no second point in a numeral. -/
theorem IsNumeral.count_point_le (h : IsNumeral text) : text.count '.' ≤ 1 := by
  cases h with
  | whole hwhole hexponent =>
    have hdigits := count_point_of_isDigit hwhole.all_isDigit
    have hexponent := hexponent.count_point
    rw [List.count_append]
    omega
  | point hwhole hdigits hexponent =>
    have hwhole := count_point_of_isDigit hwhole.all_isDigit
    have hdigits := count_point_of_isDigit hdigits
    have hexponent := hexponent.count_point
    rw [List.count_append, List.count_cons_self, List.count_append]
    omega
  | fraction _ hdigits hexponent =>
    have hdigits := count_point_of_isDigit hdigits
    have hexponent := hexponent.count_point
    rw [List.count_cons_self, List.count_append]
    omega

/-- A numeral begins with a digit, or with a point and a digit. -/
theorem IsNumeral.first (h : IsNumeral (c :: rest)) :
    c.isDigit = true ∨ c = '.' ∧ ∃ d more, rest = d :: more ∧ d.isDigit = true := by
  generalize htext : c :: rest = text at h
  cases h with
  | whole hwhole _ | point hwhole _ _ =>
    obtain ⟨d, digits, rfl, hd⟩ := hwhole.exists_eq
    cases htext
    exact .inl hd
  | @fraction digits exponent hne hdigits _ =>
    right
    cases digits with
    | nil => exact absurd rfl hne
    | cons d digits =>
      cases htext
      rw [List.all_cons, Bool.and_eq_true] at hdigits
      exact ⟨rfl, d, digits ++ exponent, rfl, hdigits.1⟩

theorem not_isNumeral_nil : ¬ IsNumeral [] := by
  intro h
  generalize htext : ([] : List Char) = text at h
  cases h with
  | whole hwhole _ => exact hwhole.ne_nil (List.append_eq_nil_iff.mp htext.symm).1
  | point hwhole _ _ => exact hwhole.ne_nil (List.append_eq_nil_iff.mp htext.symm).1
  | fraction _ _ _ => cases htext

theorem exists_eq_of_mem_punctuators {text : String} (h : text ∈ punctuators) :
    ∃ c rest, text.toList = c :: rest ∧ c ∈ punctuation := by
  have hall : punctuators.all (!·.toList.isEmpty) = true := by decide
  have hne := List.all_eq_true.mp hall text h
  cases hlist : text.toList with
  | nil => simp [hlist] at hne
  | cons c rest => exact ⟨c, rest, rfl, mem_punctuation h c (hlist ▸ List.mem_cons_self)⟩

/-- What a token is shows in its first character, but for a point. -/
def Starts (alphabet : Alphabet) (c : Char) (rest : List Char) : Prop :=
  if alphabet.begins c then IsName alphabet (c :: rest)
  else if c.isDigit then IsNumeral (c :: rest)
  else if c = '"' then IsQuotedRest rest
  else (c = '.' ∧ IsNumeral (c :: rest)) ∨
    (c ∈ punctuation ∧ ∃ text ∈ punctuators, text.toList = c :: rest)

/-- The text consists of letters, as keywords do. -/
abbrev Letters (text : List Char) : Prop := text ≠ [] ∧ text.all Char.isAlpha = true

/-- Letters are a name in every alphabet. -/
theorem Letters.isName (h : Letters text) : IsName alphabet text := by
  obtain ⟨hne, hletters⟩ := h
  cases text with
  | nil => exact absurd rfl hne
  | cons c rest =>
    rw [List.all_eq_true] at hletters
    obtain ⟨hc, hrest⟩ := List.forall_mem_cons.mp hletters
    refine ⟨by simp [Alphabet.begins, hc], List.all_eq_true.mpr fun d hd => ?_⟩
    simp [Alphabet.continues, Char.isAlphanum, hrest d hd]

theorem isToken_punct (h : text ∈ punctuators.map String.toList) : IsToken alphabet text := by
  obtain ⟨punct, hpunct, rfl⟩ := List.mem_map.mp h
  exact .punct hpunct

theorem IsToken.exists_starts (h : IsToken alphabet text) :
    ∃ c rest, text = c :: rest ∧ Starts alphabet c rest := by
  cases h with
  | name h =>
    cases text with
    | nil => exact h.elim
    | cons c rest => exact ⟨c, rest, rfl, by rw [Starts, if_pos h.1]; exact h⟩
  | numeral h =>
    cases text with
    | nil => exact absurd h not_isNumeral_nil
    | cons c rest =>
      refine ⟨c, rest, rfl, ?_⟩
      rcases h.first with hdigit | ⟨rfl, -⟩
      · simpa [Starts, begins_of_isDigit hdigit, hdigit] using h
      · have hbegins : alphabet.begins '.' = false := begins_of_mem_punctuation (by decide)
        simp [Starts, hbegins, h]
  | @quoted rest h =>
    have hbegins : alphabet.begins '"' = false :=
      begins_eq_false (by decide) (List.mem_singleton_self '"')
    exact ⟨'"', rest, rfl, by simpa [Starts, hbegins] using h⟩
  | @punct text h =>
    obtain ⟨c, rest, hlist, hc⟩ := exists_eq_of_mem_punctuators h
    refine ⟨c, rest, hlist, ?_⟩
    simp only [Starts, begins_of_mem_punctuation hc, isDigit_of_mem_punctuation hc,
      ne_quote_of_mem_punctuation hc]
    exact .inr ⟨hc, text, h, hlist⟩

theorem IsToken.starts (h : IsToken alphabet (c :: rest)) : Starts alphabet c rest := by
  obtain ⟨c', rest', heq, hstarts⟩ := h.exists_starts
  cases heq
  exact hstarts

theorem IsToken.isName_of_begins (h : IsToken alphabet (c :: rest))
    (hc : alphabet.begins c = true) :
    IsName alphabet (c :: rest) := by
  have hstarts := h.starts
  rwa [Starts, if_pos hc] at hstarts

/-- Only punctuators begin with their characters, but for a point. -/
theorem IsToken.exists_punct (h : IsToken alphabet (c :: rest)) (hc : c ∈ punctuation)
    (hpoint : c ≠ '.') :
    ∃ text ∈ punctuators, text.toList = c :: rest := by
  have hstarts := h.starts
  simp only [Starts, begins_of_mem_punctuation hc, isDigit_of_mem_punctuation hc,
    ne_quote_of_mem_punctuation hc, hpoint, false_and, false_or] at hstarts
  exact hstarts.2

theorem IsToken.mem_punctuators {text : String} (h : IsToken alphabet text.toList)
    (hfirst : ∃ c rest, text.toList = c :: rest ∧ c ∈ punctuation ∧ c ≠ '.') :
    text ∈ punctuators := by
  obtain ⟨c, rest, hlist, hc, hpoint⟩ := hfirst
  rw [hlist] at h
  obtain ⟨other, hother, heq⟩ := h.exists_punct hc hpoint
  rw [← String.toList_inj.mp (heq.trans hlist.symm)]
  exact hother

theorem not_isToken_of_isBlank (h : isBlank c = true) : ¬ IsToken alphabet (c :: rest) := by
  have hdigit : c.isDigit = false := by
    cases hdigit : c.isDigit with
    | false => rfl
    | true => rw [not_isBlank_of_isDigit hdigit] at h; cases h
  have hquote : c ≠ '"' := by
    rintro rfl
    cases h
  intro htoken
  have hstarts := htoken.starts
  simp only [Starts, begins_of_isBlank h, hdigit, hquote] at hstarts
  rcases hstarts with ⟨rfl, -⟩ | ⟨hc, -⟩
  · cases h
  · rw [not_isBlank_of_mem_punctuation hc] at h
    cases h

end Tokens

section Taken

variable {alphabet : Alphabet} {c : Char} {token rest : List Char}

/-- A token is taken if the next character cannot continue it. -/
theorem Offered.taken (h : Offered alphabet token rest)
    (hnext : ∀ c ∈ rest.head?, ∀ more, ¬ IsToken alphabet (token ++ c :: more))
    (hapart : IsNumeral token → ∀ c ∈ rest.head?, alphabet.begins c = false ∧ c.isDigit = false) :
    Taken alphabet token rest := by
  refine ⟨h, fun other after heq hother => ?_, hapart⟩
  rcases List.append_eq_append_iff.mp heq with ⟨more, htoken, -⟩ | ⟨more, hlonger, hrest⟩
  · rw [htoken, List.length_append]
    omega
  · cases more with
    | nil => exact Nat.le_of_eq (by rw [hlonger, List.append_nil])
    | cons c more =>
      subst hrest
      exact absurd (hlonger ▸ hother.isToken) (hnext c rfl more)

/-- Two tokens are not taken from the same text. -/
theorem Taken.unique {token' rest' : List Char} (h : Taken alphabet token rest)
    (h' : Taken alphabet token' rest') (heq : token ++ rest = token' ++ rest') :
    token = token' ∧ rest = rest' := by
  have hlength : token.length = token'.length := Nat.le_antisymm
    (h'.longest token rest heq h.toOffered) (h.longest token' rest' heq.symm h'.toOffered)
  exact List.append_inj heq hlength

theorem forbidden_eq_false (h : token ≠ ['?', '.']) (h' : token ≠ ['/']) (c : Char) :
    forbidden token c = false := by
  simp [forbidden, h, h']

theorem forbidden_cons (h : c ∉ punctuation) (more : List Char) (next : Char) :
    forbidden (c :: more) next = false := by
  have hquestion : c ≠ '?' := by
    rintro rfl
    exact h (by decide)
  have hslash : c ≠ '/' := by
    rintro rfl
    exact h (by decide)
  simp [forbidden, hquestion, hslash]

/-- No token is a name that goes on with another character. -/
theorem IsName.not_isToken_append (h : IsName alphabet token) (hc : alphabet.continues c = false)
    (more : List Char) : ¬ IsToken alphabet (token ++ c :: more) := by
  cases token with
  | nil => exact h.elim
  | cons first others =>
    intro htoken
    have hname := IsToken.isName_of_begins htoken h.1
    have hcontinues := List.all_eq_true.mp hname.2 c (List.mem_append_right _ List.mem_cons_self)
    rw [hc] at hcontinues
    cases hcontinues

theorem taken_name (h : IsName alphabet token)
    (hrest : ∀ c ∈ rest.head?, alphabet.continues c = false) :
    Taken alphabet token rest := by
  have hnext (c : Char) (hc : c ∈ rest.head?) (more : List Char) :
      ¬ IsToken alphabet (token ++ c :: more) := h.not_isToken_append (hrest c hc) more
  cases token with
  | nil => exact h.elim
  | cons first others =>
    have hpunct := not_mem_punctuation_of_begins h.1
    refine Offered.taken ⟨.name h, fun c _ => forbidden_cons hpunct _ c⟩ hnext fun hnumeral => ?_
    have hfirst := h.1
    rcases hnumeral.first with hdigit | ⟨rfl, -⟩
    · rw [begins_of_isDigit hdigit] at hfirst
      cases hfirst
    · exact absurd (by decide) hpunct

/-- The characters that follow the text in some longer punctuator. -/
def extensions (text : String) : List Char := punctuators.filterMap fun longer =>
  if text.toList.isPrefixOf longer.toList then longer.toList[text.toList.length]? else none

theorem mem_extensions {text longer : String} (h : longer ∈ punctuators) {more : List Char}
    (heq : longer.toList = text.toList ++ c :: more) : c ∈ extensions text := by
  refine List.mem_filterMap.mpr ⟨longer, h, ?_⟩
  rw [heq, if_pos (List.isPrefixOf_iff_prefix.mpr (List.prefix_append _ _))]
  simp

theorem mem_punctuation_of_mem_extensions {text : String} (h : c ∈ extensions text) :
    c ∈ punctuation := by
  obtain ⟨longer, hlonger, hc⟩ := List.mem_filterMap.mp h
  split at hc
  · exact mem_punctuation hlonger c (List.mem_of_getElem? hc)
  · cases hc

/-- A punctuator other than a point ends where no longer one goes on. -/
theorem taken_punct {text : String} (h : text ∈ punctuators) (hpoint : text.toList.head? ≠ some '.')
    (hrest : ∀ c ∈ rest.head?, c ∉ extensions text ∧ forbidden text.toList c = false) :
    Taken alphabet text.toList rest := by
  obtain ⟨first, others, hlist, hfirst⟩ := exists_eq_of_mem_punctuators h
  have hdot : first ≠ '.' := by
    rintro rfl
    exact hpoint (by rw [hlist]; rfl)
  refine Offered.taken ⟨.punct h, fun c hc => (hrest c hc).2⟩ (fun c hc more htoken => ?_) ?_
  · rw [hlist, List.cons_append] at htoken
    obtain ⟨longer, hlonger, heq⟩ := htoken.exists_punct hfirst hdot
    rw [← List.cons_append, ← hlist] at heq
    exact (hrest c hc).1 (mem_extensions hlonger heq)
  · intro hnumeral
    rw [hlist] at hnumeral
    rcases hnumeral.first with hdigit | ⟨hpoint, -⟩
    · exact absurd hfirst (not_mem_punctuation_of_isDigit hdigit)
    · exact absurd hpoint hdot

/-- A longer punctuator is preferred. -/
theorem not_taken_of_longer {longer : String} (h : longer ∈ punctuators)
    (hforbidden : ∀ c, forbidden longer.toList c = false) {after : List Char}
    (heq : longer.toList ++ after = token ++ rest) (hlength : token.length < longer.toList.length) :
    ¬ Taken alphabet token rest := by
  intro htaken
  have hle := htaken.longest _ after heq ⟨.punct h, fun c _ => hforbidden c⟩
  omega

/-- A point before a name. -/
theorem taken_point (hrest : ∀ c ∈ rest.head?, alphabet.begins c = true) :
    Taken alphabet ['.'] rest := by
  have hpoint : alphabet.begins '.' = false := begins_of_mem_punctuation (by decide)
  have htoken : ".".toList ∈ punctuators.map String.toList := by decide
  refine Offered.taken ⟨isToken_punct htoken, fun c _ => rfl⟩ (fun c hc more htoken => ?_) ?_
  · have hbegins := hrest c hc
    have hstarts := htoken.starts
    simp only [Starts, hpoint] at hstarts
    rcases hstarts with ⟨-, hnumeral⟩ | ⟨-, longer, hlonger, heq⟩
    · rcases hnumeral.first with hdigit | ⟨-, d, others, hd, hdigit⟩
      · cases hdigit
      · cases hd
        rw [begins_of_isDigit hdigit] at hbegins
        cases hbegins
    · have hc : c ∈ extensions "." := mem_extensions hlonger heq
      rw [begins_eq_false (by decide) hc] at hbegins
      cases hbegins
  · intro hnumeral
    rcases hnumeral.first with hdigit | ⟨-, d, others, hd, -⟩
    · cases hdigit
    · cases hd

/-- A numeral that begins with a digit ends where no longer one goes on. -/
theorem taken_numeral (h : IsNumeral token)
    (hdigit : ∃ c digits, token = c :: digits ∧ c.isDigit = true)
    (hrest : ∀ next ∈ rest.head?, alphabet.begins next = false ∧ next.isDigit = false ∧
      ∀ more, ¬ IsNumeral (token ++ next :: more)) : Taken alphabet token rest := by
  obtain ⟨c, digits, rfl, hc⟩ := hdigit
  have hpunct := not_mem_punctuation_of_isDigit hc
  refine Offered.taken ⟨.numeral h, fun next _ => forbidden_cons hpunct _ next⟩
    (fun next hnext more htoken => ?_) ?_
  · have hstarts := htoken.starts
    simp only [Starts, begins_of_isDigit hc, hc] at hstarts
    exact (hrest next hnext).2.2 more hstarts
  · exact fun _ next hnext => ⟨(hrest next hnext).1, (hrest next hnext).2.1⟩

/-- Digits take a point with them. -/
theorem not_taken_whole (h : IsWhole token) : ¬ Taken alphabet token ('.' :: rest) := by
  intro htaken
  have hnumeral : IsNumeral (token ++ '.' :: ([] ++ [])) := .point h rfl .absent
  have hoffered : Offered alphabet (token ++ ['.']) rest := by
    obtain ⟨d, digits, rfl, hd⟩ := h.exists_eq
    exact ⟨.numeral hnumeral, fun c _ => forbidden_cons (not_mem_punctuation_of_isDigit hd) _ c⟩
  have hlength := htaken.longest _ rest (List.append_assoc token ['.'] rest) hoffered
  rw [List.length_append, List.length_singleton] at hlength
  omega

theorem IsQuotedRest.sourceEscape (h : IsQuotedRest rest) (c : Char) :
    IsQuotedRest (StaticInliner.sourceEscape c ++ rest) := by
  by_cases hc : c ∈ ['"', '\\', '\n', '\r', '\t']
  · simp only [List.mem_cons, List.not_mem_nil, or_false] at hc
    rcases hc with rfl | rfl | rfl | rfl | rfl <;> exact .escape (by decide) (by decide) h
  · simp only [List.mem_cons, List.not_mem_nil, or_false, not_or] at hc
    obtain ⟨hquote, hbackslash, hn, hr, ht⟩ := hc
    rw [StaticInliner.sourceEscape, if_neg hquote, if_neg hbackslash, if_neg hn, if_neg hr,
      if_neg ht]
    exact .plain (by simp [hquote, hbackslash, hn, hr]) h

theorem isQuotedRest_escaped (chars : List Char) :
    IsQuotedRest (chars.flatMap sourceEscape ++ ['"']) := by
  induction chars with
  | nil => exact .close
  | cons c rest ih =>
    rw [List.flatMap_cons, List.append_assoc]
    exact ih.sourceEscape c

/-- Nothing can be added to a string in quotes. -/
theorem IsQuotedRest.not_append (h : IsQuotedRest token) (c : Char) (more : List Char) :
    ¬ IsQuotedRest (token ++ c :: more) := by
  induction h with
  | close =>
    intro hlonger
    cases hlonger with
    | plain hquote _ => exact hquote List.mem_cons_self
  | plain hc _ ih =>
    intro hlonger
    rw [List.cons_append] at hlonger
    generalize htail : _ ++ c :: more = tail at hlonger
    cases hlonger with
    | close => exact hc (by decide)
    | plain _ hrest => exact ih (htail ▸ hrest)
    | escape _ _ _ => exact hc (by decide)
  | escape _ _ _ ih =>
    intro hlonger
    rw [List.cons_append, List.cons_append] at hlonger
    cases hlonger with
    | plain hc _ => exact hc (by decide)
    | escape _ _ hrest => exact ih hrest

theorem taken_quoted (value : String) (rest : List Char) :
    Taken alphabet (Token.quoted value).text.toList rest := by
  have hbody := isQuotedRest_escaped value.toList
  have hbegins : alphabet.begins '"' = false :=
    begins_eq_false (by decide) (List.mem_singleton_self '"')
  rw [Token.text, String.toList_ofList]
  refine Offered.taken ⟨.quoted hbody, fun c _ => rfl⟩ (fun c _ more htoken => ?_) ?_
  · have hstarts := htoken.starts
    simp only [Starts, hbegins] at hstarts
    exact hbody.not_append c more hstarts
  · intro hnumeral
    rcases hnumeral.first with hdigit | ⟨hpoint, -⟩
    · cases hdigit
    · cases hpoint

end Taken

section Readings

variable {alphabet : Alphabet} {c : Char} {text token rest : List Char}
  {tokens tokens' : List (List Char)}

theorem Tokenizes.isToken (h : Tokenizes alphabet text tokens) :
    ∀ token ∈ tokens, IsToken alphabet token := by
  induction h with
  | done => exact List.forall_mem_nil _
  | blank _ _ ih => exact ih
  | token htaken _ ih => exact List.forall_mem_cons.mpr ⟨htaken.isToken, ih⟩

theorem tokenizes_blank_iff (hc : isBlank c = true) :
    Tokenizes alphabet (c :: rest) tokens ↔ Tokenizes alphabet rest tokens := by
  refine ⟨fun h => ?_, .blank hc⟩
  generalize htext : c :: rest = text at h
  cases h with
  | done => cases htext
  | blank _ h =>
    cases htext
    exact h
  | token htaken _ =>
    obtain ⟨first, others, rfl, -⟩ := htaken.isToken.exists_starts
    cases htext
    exact absurd htaken.isToken (not_isToken_of_isBlank hc)

theorem tokenizes_token_iff : Tokenizes alphabet (token ++ rest) (token :: tokens) ↔
    Taken alphabet token rest ∧ Tokenizes alphabet rest tokens := by
  refine ⟨fun h => ?_, fun h => .token h.1 h.2⟩
  obtain ⟨first, others, hfirst, -⟩ := (h.isToken token List.mem_cons_self).exists_starts
  have htoken := h.isToken token List.mem_cons_self
  generalize htext : token ++ rest = text at h
  cases h with
  | blank hc _ =>
    subst hfirst
    cases htext
    exact absurd htoken (not_isToken_of_isBlank hc)
  | token htaken h =>
    cases List.append_cancel_left htext
    exact ⟨htaken, h⟩

/-- A text has at most one reading. -/
theorem Tokenizes.unique (h : Tokenizes alphabet text tokens)
    (h' : Tokenizes alphabet text tokens') :
    tokens = tokens' := by
  induction h generalizing tokens' with
  | done =>
    generalize htext : ([] : List Char) = text at h'
    cases h' with
    | done => rfl
    | blank _ _ => cases htext
    | token htaken _ =>
      obtain ⟨first, others, rfl, -⟩ := htaken.isToken.exists_starts
      cases htext
  | blank hc _ ih => exact ih ((tokenizes_blank_iff hc).mp h')
  | @token token rest tokens htaken _ ih =>
    generalize htext : token ++ rest = text at h'
    cases h' with
    | done =>
      obtain ⟨first, others, rfl, -⟩ := htaken.isToken.exists_starts
      cases htext
    | blank hc _ =>
      obtain ⟨first, others, rfl, -⟩ := htaken.isToken.exists_starts
      cases htext
      exact absurd htaken.isToken (not_isToken_of_isBlank hc)
    | token htaken' h' =>
      obtain ⟨rfl, rfl⟩ := htaken.unique htaken' htext
      rw [ih h']

end Readings

end Lexical

end StaticInliner
