import StaticInliner.Proofs.Reading.LongestMatch

/-!
Texts of numbers as tokens. Without its sign, a number is written as one of two names or as a
decimal numeral without exponent. Its shortest digits are never zero, so the numeral has no
leading zero but the one before a point.
-/
namespace StaticInliner

open Lexical

section Shortest

namespace RoundingInterval

variable {interval : RoundingInterval} {tie : TieRule}

theorem contains_zero_ofBinary {mantissa : Nat} (h : 0 < mantissa) (exponent : Int) :
    (ofBinary mantissa exponent).contains 0 = false := by
  have hlow : 0 < (ofBinary mantissa exponent).low := by
    refine Nat.mul_pos ?_ ?_
    · split <;> omega
    · split <;> exact Nat.pow_pos (by omega)
  have hle : ¬(ofBinary mantissa exponent).low ≤ 0 := by omega
  have hlt : ¬(ofBinary mantissa exponent).low < 0 := by omega
  rw [contains, decide_eq_false hle, decide_eq_false hlt, Bool.false_and, Bool.false_and, ite_self]

theorem value_ofBinary_pos {mantissa : Nat} (h : 0 < mantissa) (exponent : Int) :
    0 < (ofBinary mantissa exponent).value := by
  refine Nat.mul_pos (by omega) ?_
  split <;> exact Nat.pow_pos (by omega)

theorem div_le_nearer (unit : Nat) : interval.value / unit ≤ interval.nearer tie unit := by
  unfold nearer
  cases tie <;> grind

theorem digits_search_pos (hzero : interval.contains 0 = false) (hvalue : 0 < interval.value)
    (places : Nat) : 0 < (interval.search tie places).digits := by
  induction places with
  | zero => exact hvalue
  | succ places ih =>
    have hbelow (h : interval.contains (interval.value / Nat.pow 10 (places + 1) *
        Nat.pow 10 (places + 1)) = true) : 0 < interval.value / Nat.pow 10 (places + 1) := by
      refine Nat.pos_of_ne_zero fun hdiv => ?_
      rw [hdiv, Nat.zero_mul, hzero] at h
      cases h
    rw [search]
    split
    · exact Nat.lt_of_lt_of_le (hbelow ‹_›) (div_le_nearer _)
    · exact hbelow ‹_›
    · exact Nat.succ_pos _
    · exact ih

end RoundingInterval

namespace Decimal

theorem digits_trim_pos {d : Decimal} (h : 0 < d.digits) (limit : Nat) :
    0 < (d.trim limit).digits := by
  induction limit generalizing d with
  | zero => exact h
  | succ limit ih =>
    rw [trim]
    split
    · exact ih (show 0 < d.digits / 10 by omega)
    · exact h

theorem digits_shortest_pos (tie : TieRule) {mantissa : Nat} (h : 0 < mantissa) (exponent : Int) :
    0 < (shortest tie mantissa exponent).digits :=
  digits_trim_pos (RoundingInterval.digits_search_pos
    (RoundingInterval.contains_zero_ofBinary h exponent)
    (RoundingInterval.value_ofBinary_pos h exponent) _) _

end Decimal

end Shortest

section Texts

theorem head?_toDigits_ne_zero {n : Nat} (h : 0 < n) : (Nat.toDigits 10 n).head? ≠ some '0' := by
  induction n using Nat.strongRecOn with
  | ind n ih =>
    by_cases hlt : n < 10
    · rw [Nat.toDigits_of_lt_base hlt, List.head?_cons, ne_eq, Option.some.injEq,
        Nat.digitChar_eq_zero]
      omega
    · obtain ⟨c, rest, hshorter⟩ := List.exists_cons_of_ne_nil (@Nat.toDigits_ne_nil (n / 10) 10)
      have hhead := ih (n / 10) (by omega) (by omega)
      rw [hshorter] at hhead
      rw [Nat.toDigits_of_base_le (by decide) (by omega), hshorter]
      exact hhead

/-- The digits of a positive number. -/
theorem exists_toDigits_eq {n : Nat} (h : 0 < n) : ∃ c rest, Nat.toDigits 10 n = c :: rest ∧
    c.isDigit = true ∧ c ≠ '0' ∧ rest.all Char.isDigit = true := by
  have hdigits (c : Char) (hc : c ∈ Nat.toDigits 10 n) : c.isDigit = true :=
    Nat.isDigit_of_mem_toDigits (by decide) (by decide) hc
  have hhead := head?_toDigits_ne_zero h
  cases hlist : Nat.toDigits 10 n with
  | nil => exact absurd hlist Nat.toDigits_ne_nil
  | cons c rest =>
    rw [hlist] at hdigits hhead
    obtain ⟨hc, hrest⟩ := List.forall_mem_cons.mp hdigits
    refine ⟨c, rest, rfl, hc, ?_, List.all_eq_true.mpr hrest⟩
    rintro rfl
    exact hhead rfl

/-- The text of a number without its sign: a name, digits, or digits with a point. -/
inductive NumberText : List Char → Prop
  | name {text : String} : text ∈ ["NaN", "Infinity"] → NumberText text.toList
  | whole {text : List Char} : IsWhole text → NumberText text
  | fraction {whole digits : List Char} : IsWhole whole → digits.all Char.isDigit = true →
    NumberText (whole ++ '.' :: digits)

/-- The text begins with a digit, or with the first letter of a name. -/
theorem NumberText.exists_eq {text : List Char} (h : NumberText text) :
    ∃ c rest, text = c :: rest ∧ (c.isDigit = true ∨ c ∈ ['N', 'I']) := by
  cases h with
  | name h =>
    simp only [List.mem_cons, List.not_mem_nil, or_false] at h
    rcases h with rfl | rfl <;> exact ⟨_, _, rfl, .inr (by decide)⟩
  | whole h =>
    obtain ⟨c, rest, rfl, hc⟩ := h.exists_eq
    exact ⟨c, rest, rfl, .inl hc⟩
  | fraction h _ =>
    obtain ⟨c, rest, rfl, hc⟩ := h.exists_eq
    exact ⟨c, _, rfl, .inl hc⟩

theorem isName_of_mem {text : String} (h : text ∈ ["NaN", "Infinity"]) {alphabet : Alphabet} :
    IsName alphabet text.toList := by
  simp only [List.mem_cons, List.not_mem_nil, or_false] at h
  rcases h with rfl | rfl <;> exact Letters.isName (by decide)

theorem Decimal.numberText_positional {d : Decimal} (h : 0 < d.digits) :
    NumberText d.positional := by
  obtain ⟨c, rest, hchars, hc, hzero, hrest⟩ := exists_toDigits_eq h
  have hzeros (n : Nat) : (List.replicate n '0').all Char.isDigit = true :=
    List.all_eq_true.mpr fun c hc => (List.eq_of_mem_replicate hc).symm ▸ rfl
  rw [positional]
  simp only [chars, pointPosition, hchars]
  split
  · have hall : (rest ++ List.replicate d.exponent.toNat '0').all Char.isDigit = true := by
      rw [List.all_append, hrest, hzeros, Bool.and_self]
    exact .whole (.digits hc hzero hall)
  split
  · rename_i hpoint
    obtain ⟨n, hn⟩ : ∃ n : Nat, (((c :: rest).length : Int) + d.exponent).toNat = n + 1 :=
      ⟨_, (Nat.succ_pred_eq_of_pos (by omega)).symm⟩
    rw [hn, List.take_succ_cons, List.drop_succ_cons]
    refine .fraction (.digits hc hzero ?_) ?_
    · exact List.all_eq_true.mpr fun d hd => List.all_eq_true.mp hrest d (List.mem_of_mem_take hd)
    · exact List.all_eq_true.mpr fun d hd => List.all_eq_true.mp hrest d (List.mem_of_mem_drop hd)
  · have hall (n : Nat) : (List.replicate n '0' ++ c :: rest).all Char.isDigit = true := by
      rw [List.all_append, hzeros, List.all_cons, hc, hrest]
      rfl
    exact .fraction .zero (hall _)

theorem Binary64.numberText_magnitude (value : Binary64) : NumberText value.magnitude.toList := by
  cases value with
  | nan => exact .name (by decide)
  | infinite _ => exact .name (List.mem_cons_of_mem _ List.mem_cons_self)
  | finite negative mantissa exponent =>
    rw [magnitude]
    split
    · exact .whole .zero
    · rw [String.toList_ofList]
      exact Decimal.numberText_positional (Decimal.digits_shortest_pos .up (by omega) exponent)

end Texts

end StaticInliner
