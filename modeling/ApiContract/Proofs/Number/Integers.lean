import ApiContract.Proofs.Number.Numerals
import ApiContract.Text.Wording
import Mathlib.Algebra.Order.Ring.Int

/-! # Integers as floats

An integer below `2 ^ 53` is a float: its bits fill the significand from the top, and nothing is rounded.
So its decimal text stands for the integer itself.

* `Binary64.HasValue`: the integer that a float is.
* `Binary64.exists_ofRatio?_natural`: a natural number of at most 53 bits is a float.
* `IsIntegerText`: the decimal text of an integer, with blanks around it.
* `exists_numericText?_integer`: such a text stands for the integer. -/

set_option autoImplicit false

namespace ApiContract

namespace Binary64

/-! ## Values -/

/-- The value of a float is an integer. -/
def HasValue (x : Binary64) (n : Int) : Prop := x.fraction.1 = n * (x.fraction.2 : Int)

section

variable {x : Binary64} {n : Int}

theorem fraction_snd_pos (x : Binary64) : 0 < x.fraction.2 := by
  unfold fraction magnitude
  split
  · exact Nat.one_pos
  · exact Nat.pow_pos (by decide)

theorem HasValue.isIntegral (h : x.HasValue n) : x.isIntegral = true := by
  simp only [Binary64.isIntegral, beq_iff_eq]
  rw [h]
  exact Int.mul_emod_left n _

theorem HasValue.truncate_eq (h : x.HasValue n) : x.truncate = n := by
  have hpos := x.fraction_snd_pos
  simp only [truncate]
  rw [h]
  exact Int.mul_tdiv_cancel n (by omega)

end

/-! ## Naturals of 53 bits -/

/-- A natural number with its bits moved up to fill a significand. -/
def ofBits (negative : Bool) (m k : Nat) : Binary64 := ⟨negative, m * 2 ^ k, -(k : Int)⟩

theorem hasValue_ofBits (negative : Bool) (m k : Nat) :
    (ofBits negative m k).HasValue (if negative then -(m : Int) else m) := by
  have hmagnitude : (ofBits negative m k).magnitude = (m * 2 ^ k, 2 ^ k) := by
    cases k with
    | zero => simp [ofBits, magnitude]
    | succ k =>
      rw [magnitude, if_neg (by simp only [ofBits]; omega)]
      simp [ofBits]
  rw [HasValue, fraction, hmagnitude]
  cases negative with
  | true =>
    show -((m * 2 ^ k : Nat) : Int) = -(m : Int) * ((2 ^ k : Nat) : Int)
    rw [Int.natCast_mul, Int.neg_mul]
  | false => exact Int.natCast_mul m (2 ^ k)

theorem scaleDown_neg (m k : Nat) : scaleDown m 1 (-(k : Int)) = (m * 2 ^ k, 1) := by
  cases k with
  | zero => simp [scaleDown]
  | succ k =>
    rw [scaleDown, if_neg (by omega)]
    simp

theorem roundDiv_one (m : Nat) : roundDiv m 1 = m := by
  simp [roundDiv, Nat.mod_one]

variable {m : Nat}

/-- The exponent at which the bits of a natural number fill a significand. -/
theorem exponentOf_natural (hm : m ≠ 0) (h : m < 2 ^ 53) : exponentOf m 1 = -((52 - m.log2 : Nat) : Int) := by
  have hlog : m.log2 < 53 := (Nat.log2_lt hm).2 h
  have hguess : (m.log2 : Int) - (Nat.log2 1 : Int) - 52 = -((52 - m.log2 : Nat) : Int) := by
    have hone : Nat.log2 1 = 0 := by decide
    omega
  have hfull : 2 ^ 52 ≤ m * 2 ^ (52 - m.log2) := by
    calc 2 ^ 52 = 2 ^ m.log2 * 2 ^ (52 - m.log2) := by rw [← Nat.pow_add]; congr 1; omega
      _ ≤ m * 2 ^ (52 - m.log2) := Nat.mul_le_mul_right _ (Nat.log2_self_le hm)
  simp only [exponentOf, hguess, scaleDown_neg, Nat.pow_eq, Nat.one_mul]
  rw [if_neg (Nat.not_lt.2 hfull), leastExponent]
  omega

/-- A natural number of at most 53 bits is a float: it is not rounded. -/
theorem exists_ofRatio?_natural (negative : Bool) (h : m < 2 ^ 53) :
    ∃ x, ofRatio? negative m 1 = some x ∧ x.HasValue (if negative then -(m : Int) else m) := by
  by_cases hm : m = 0
  · refine ⟨zero negative, by rw [ofRatio?, if_pos hm], ?_⟩
    have hzero : ∀ k : Nat, HasValue ⟨negative, 0, -(k : Int)⟩ (if negative then -(m : Int) else m) := by
      intro k
      simpa only [hm, ofBits, Nat.zero_mul] using hasValue_ofBits negative 0 k
    exact hzero 1074
  · refine ⟨ofBits negative m (52 - m.log2), ?_, hasValue_ofBits negative m _⟩
    have hlog : m.log2 < 53 := (Nat.log2_lt hm).2 h
    have hbits : m * 2 ^ (52 - m.log2) < 2 ^ 53 := by
      calc m * 2 ^ (52 - m.log2) < 2 ^ (m.log2 + 1) * 2 ^ (52 - m.log2) :=
            Nat.mul_lt_mul_of_pos_right Nat.lt_log2_self (Nat.pow_pos (by decide))
        _ = 2 ^ 53 := by rw [← Nat.pow_add]; congr 1; omega
    simp only [ofRatio?, if_neg hm, exponentOf_natural hm h, scaleDown_neg, roundDiv_one, Nat.pow_eq,
      if_neg (Nat.ne_of_lt hbits), greatestExponent]
    rw [if_neg (by omega), ofBits]

theorem exists_ofDecimal?_natural (negative : Bool) (h : m < 2 ^ 53) :
    ∃ x, ofDecimal? negative m 0 = some x ∧ x.HasValue (if negative then -(m : Int) else m) := by
  obtain ⟨x, hx, hvalue⟩ := exists_ofRatio?_natural negative h
  refine ⟨x, ?_, hvalue⟩
  rw [← hx]
  by_cases hm : m = 0
  · rw [ofDecimal?, if_pos hm, ofRatio?, if_pos hm]
  · have hlength : decimalLength m ≤ 16 := by
      rw [decimalLength, if_neg hm]
      exact (Nat.length_toDigits_le_iff (by decide) (by decide)).2 (Nat.lt_trans h (by decide))
    simp only [ofDecimal?, if_neg hm]
    rw [if_neg (by omega), if_neg (by omega), if_pos (by omega)]
    simp

end Binary64

/-! ## Texts of integers -/

/-- The decimal text of an integer, with blanks around it. -/
def IsIntegerText (n : Int) (text : String) : Prop :=
  ∃ before after, text.toList = before ++ ((integerText n).toList ++ after) ∧
    (∀ c ∈ before, isBlank c = true) ∧ ∀ c ∈ after, isBlank c = true

section

variable {n : Int} {text : String} {digits : List Char}

theorem not_isBlank_of_isDigit {c : Char} (h : isDigit c = true) : isBlank c = false := by
  have hcodes : '0'.toNat = 48 ∧ '9'.toNat = 57 := by decide
  simp only [isDigit, Bool.and_eq_true, decide_eq_true_eq, char_le_iff, hcodes.1, hcodes.2] at h
  simp only [isBlank, Bool.or_eq_false_iff, Bool.and_eq_false_iff, decide_eq_false_iff_not, beq_eq_false_iff_ne]
  omega

/-- A sign and the digits of the magnitude. -/
theorem toList_integerText (n : Int) : (integerText n).toList =
    (if n < 0 then ['-'] else []) ++ Nat.toDigits 10 n.natAbs := by
  unfold integerText naturalText
  split <;> simp

theorem isTrimmed_of_isIntegerText (h : IsIntegerText n text) :
    IsTrimmed text.toList (integerText n).toList := by
  obtain ⟨before, after, htext, hbefore, hafter⟩ := h
  have hblank : ∀ c ∈ (integerText n).toList, isBlank c = false := by
    intro c hc
    rw [toList_integerText, List.mem_append] at hc
    rcases hc with hc | hc
    · split at hc
      · rw [List.mem_singleton.1 hc]
        decide
      · cases hc
    · exact not_isBlank_of_isDigit (isDigit_of_mem_toDigits hc)
  exact ⟨⟨before, after, htext, hbefore, hafter⟩, fun c hc => hblank c (List.mem_of_mem_head? hc),
    fun c hc => hblank c (List.mem_of_mem_getLast? hc)⟩

theorem splitSign_of_digits (h : ∀ c ∈ digits, isDigit c = true) (negative : Bool) :
    splitSign ((if negative then ['-'] else []) ++ digits) = (negative, digits) := by
  cases negative with
  | true => rfl
  | false =>
    simp only [Bool.false_eq_true, if_false, List.nil_append]
    unfold splitSign
    split
    · exact absurd (h _ (List.mem_cons_self ..)) (by decide)
    · exact absurd (h _ (List.mem_cons_self ..)) (by decide)
    · rfl

theorem splitBase?_of_digits (h : ∀ c ∈ digits, isDigit c = true) (negative : Bool) :
    splitBase? ((if negative then ['-'] else []) ++ digits) = none := by
  cases negative with
  | true => rfl
  | false =>
    simp only [Bool.false_eq_true, if_false, List.nil_append]
    unfold splitBase?
    split
    · rename_i c rest
      have hc : isDigit c = true := h c (by simp)
      have hne : ∀ mark, isDigit mark = false → c ≠ mark := by
        rintro mark hmark rfl
        rw [hc] at hmark
        cases hmark
      simp [hne 'x' rfl, hne 'X' rfl, hne 'o' rfl, hne 'O' rfl, hne 'b' rfl, hne 'B' rfl]
    · rfl

/-- A literal without point and exponent. -/
theorem decimalLiteral?_of_digits {negative : Bool} {x : Binary64} (h : IsDigits digits)
    (hx : Binary64.ofDecimal? negative (decimalValue digits) 0 = some x) :
    decimalLiteral? ((if negative then ['-'] else []) ++ digits) = some (.finite x) := by
  have htake : digits.takeWhile isDigit = digits := List.takeWhile_eq_self_iff.2 h.2
  have hdrop : digits.dropWhile isDigit = [] := List.dropWhile_eq_nil_iff.2 h.2
  simp only [decimalLiteral?, splitSign_of_digits h.2, htake, hdrop, literalFraction, literalExponent?]
  simp [h.1, hx]

/-- The decimal text of an integer of at most 53 bits stands for the integer. -/
theorem exists_numericText?_integer (h : IsIntegerText n text) (hn : n.natAbs < 2 ^ 53) :
    ∃ x : Binary64, numericText? text = some (.finite x) ∧ x.HasValue n := by
  have hdigits : IsDigits (Nat.toDigits 10 n.natAbs) := isDigits_toDigits n.natAbs
  have hbody : trim text.toList = (if decide (n < 0) then ['-'] else []) ++ Nat.toDigits 10 n.natAbs := by
    rw [isTrimmed_iff.1 (isTrimmed_of_isIntegerText h), toList_integerText]
    simp
  have hinfinity : Nat.toDigits 10 n.natAbs ≠ "Infinity".toList := by
    intro heq
    exact absurd (hdigits.2 'I' (by rw [heq]; decide)) (by decide)
  obtain ⟨x, hx, hvalue⟩ := Binary64.exists_ofDecimal?_natural (decide (n < 0)) hn
  refine ⟨x, ?_, ?_⟩
  · rw [← decimalValue_toDigits n.natAbs] at hx
    simp only [numericText?, hbody, splitBase?_of_digits hdigits.2, splitSign_of_digits hdigits.2, hinfinity,
      decimalLiteral?_of_digits hdigits hx, if_false]
    simp [hdigits.1]
  · have hsigned : (if decide (n < 0) = true then -(n.natAbs : Int) else n.natAbs) = n := by
      by_cases hneg : n < 0
      · rw [if_pos (by simpa using hneg)]
        omega
      · rw [if_neg (by simpa using hneg)]
        omega
    rwa [hsigned] at hvalue

end

end ApiContract
