import ApiContract.Number.Literal
import Mathlib.Data.List.DropRight

/-! # The grammar of numeric texts

Which texts stand for a number, said by a grammar.

* `IsTrimmed`, `isTrimmed_iff`: what is left of a text without the blanks at its ends.
* `IsNumeral`: the numerals, in place of which nothing at all may stand.
* `isDigits_toDigits`, `decimalValue_toDigits`: the digits of a natural number.
* `isSome_decimalLiteral?_iff`, `isSome_baseLiteral?_iff`: the two kinds of literals.
* `isSome_numericText?_iff`: a text is read when it is a numeral, unless its base is written and it is too
  large, and also with a plus sign behind the base. -/

set_option autoImplicit false

namespace ApiContract

/-! ## Blanks at the ends -/

/-- The body of a text: there are blanks around it and none at its own ends. -/
structure IsTrimmed (text body : List Char) : Prop where
  around : ∃ before after, text = before ++ (body ++ after) ∧ (∀ c ∈ before, isBlank c = true) ∧
    ∀ c ∈ after, isBlank c = true
  first : ∀ c ∈ body.head?, isBlank c = false
  last : ∀ c ∈ body.getLast?, isBlank c = false

section

variable {p : Char → Bool} {text : List Char}

theorem dropWhile_of_head? (h : ∀ c ∈ text.head?, p c = false) : text.dropWhile p = text := by
  cases text with
  | nil => rfl
  | cons c rest => rw [List.dropWhile_cons, h c rfl, if_neg Bool.false_ne_true]

theorem head?_dropWhile (text : List Char) {c : Char} (h : c ∈ (text.dropWhile p).head?) :
    p c = false := by
  have hnot := List.head?_dropWhile_not p text
  rw [Option.mem_def.1 h] at hnot
  exact hnot

theorem dropWhile_reverse_append {body after : List Char} (hlast : ∀ c ∈ body.getLast?, p c = false)
    (hafter : ∀ c ∈ after, p c = true) :
    ((body ++ after).reverse.dropWhile p).reverse = body := by
  have hblank : ∀ c ∈ after.reverse, p c = true := fun c hc => hafter c (List.mem_reverse.1 hc)
  rw [List.reverse_append, List.dropWhile_append_of_pos hblank, dropWhile_of_head?,
    List.reverse_reverse]
  rwa [List.head?_reverse]

end

theorem isTrimmed_trim (text : List Char) : IsTrimmed text (trim text) := by
  have hafter : trim text ++ (text.dropWhile isBlank).rtakeWhile isBlank = text.dropWhile isBlank :=
    List.rdropWhile_append_rtakeWhile
  refine ⟨⟨text.takeWhile isBlank, (text.dropWhile isBlank).rtakeWhile isBlank, ?_,
    fun c hc => List.mem_takeWhile_imp hc, ?_⟩, ?_, ?_⟩
  · rw [hafter, List.takeWhile_append_dropWhile]
  · exact fun c hc => List.mem_takeWhile_imp (List.mem_reverse.1 hc)
  · intro c hc
    refine head?_dropWhile text ?_
    rw [← hafter, List.head?_append, Option.mem_def.1 hc]
    rfl
  · intro c hc
    refine head?_dropWhile (text.dropWhile isBlank).reverse ?_
    rwa [trim, trimLeft, List.getLast?_reverse] at hc

theorem isTrimmed_iff {text body : List Char} : IsTrimmed text body ↔ trim text = body := by
  constructor
  · rintro ⟨⟨before, after, rfl, hbefore, hafter⟩, hfirst, hlast⟩
    have hstart : (before ++ (body ++ after)).dropWhile isBlank = (body ++ after).dropWhile isBlank :=
      List.dropWhile_append_of_pos hbefore
    rw [trim, trimLeft, trimLeft, hstart]
    cases body with
    | nil =>
      rw [List.nil_append, List.dropWhile_eq_nil_iff.2 hafter]
      rfl
    | cons c rest =>
      have hbody : (c :: rest ++ after).dropWhile isBlank = c :: rest ++ after := dropWhile_of_head? hfirst
      rw [hbody]
      exact dropWhile_reverse_append hlast hafter
  · rintro rfl
    exact isTrimmed_trim text

/-! ## The grammar -/

/-- A sign, or none. -/
inductive IsSign : List Char → Prop where
  | absent : IsSign []
  | plus : IsSign ['+']
  | minus : IsSign ['-']

/-- One or more digits. -/
def IsDigits (text : List Char) : Prop := text ≠ [] ∧ ∀ c ∈ text, isDigit c = true

/-- Digits with a point or without, digits on one side of it at least. -/
inductive IsMantissa : List Char → Prop where
  | whole {whole : List Char} (h : IsDigits whole) : IsMantissa whole
  | pointed {whole fraction : List Char} (h : IsDigits whole) (hfraction : ∀ c ∈ fraction, isDigit c = true) :
    IsMantissa (whole ++ '.' :: fraction)
  | fraction {fraction : List Char} (h : IsDigits fraction) : IsMantissa ('.' :: fraction)

/-- A power of ten, or none. -/
inductive IsExponent : List Char → Prop where
  | absent : IsExponent []
  | present {mark : Char} {sign digits : List Char} (hmark : mark = 'e' ∨ mark = 'E') (hsign : IsSign sign)
    (h : IsDigits digits) : IsExponent (mark :: (sign ++ digits))

/-- A decimal literal. -/
inductive IsDecimal : List Char → Prop where
  | intro {sign mantissa exponent : List Char} (hsign : IsSign sign) (h : IsMantissa mantissa)
    (hexponent : IsExponent exponent) : IsDecimal (sign ++ (mantissa ++ exponent))

/-- The bases that a text can write before its digits. -/
inductive NumeralBase where
  | hexadecimal | octal | binary

namespace NumeralBase

def size : NumeralBase → Nat
  | hexadecimal => 16
  | octal => 8
  | binary => 2

/-- The letters that stand for a base behind a zero. -/
def marks : NumeralBase → List Char
  | hexadecimal => ['x', 'X']
  | octal => ['o', 'O']
  | binary => ['b', 'B']

/-- The digits of a base. -/
def IsDigit : NumeralBase → Char → Prop
  | hexadecimal, c => ('0' ≤ c ∧ c ≤ '9') ∨ ('a' ≤ c ∧ c ≤ 'f') ∨ ('A' ≤ c ∧ c ≤ 'F')
  | octal, c => '0' ≤ c ∧ c ≤ '7'
  | binary, c => '0' ≤ c ∧ c ≤ '1'

/-- The number that digits of a base write behind those read so far. -/
def value (base : NumeralBase) (read : Nat) (digits : List Char) : Nat :=
  digits.foldl (fun n c => n * base.size + (digitValue? c).getD 0) read

end NumeralBase

/-- A base and digits of it, between them a text; with the number that the digits write. -/
inductive IsBased (between : List Char) : Nat → List Char → Prop where
  | intro {mark : Char} {digits : List Char} (base : NumeralBase) (hmark : mark ∈ base.marks)
    (hne : digits ≠ []) (hdigits : ∀ c ∈ digits, base.IsDigit c) :
    IsBased between (base.value 0 digits) ('0' :: mark :: (between ++ digits))

/-- The numerals, in place of which nothing at all may stand. -/
inductive IsNumeral : List Char → Prop where
  | nothing : IsNumeral []
  | based {n : Nat} {text : List Char} (h : IsBased [] n text) : IsNumeral text
  | infinity {sign : List Char} (hsign : IsSign sign) : IsNumeral (sign ++ "Infinity".toList)
  | decimal {text : List Char} (h : IsDecimal text) : IsNumeral text

/-! ## Digits of numbers -/

theorem isDigit_of_mem_toDigits {n : Nat} {c : Char} (h : c ∈ Nat.toDigits 10 n) : isDigit c = true := by
  have hdigit := Char.isDigit_iff_toNat.1 (Nat.isDigit_of_mem_toDigits (by decide) (by decide) h)
  simp only [isDigit, Bool.and_eq_true, decide_eq_true_eq]
  exact hdigit

theorem isDigits_toDigits (n : Nat) : IsDigits (Nat.toDigits 10 n) :=
  ⟨Nat.toDigits_ne_nil, fun _ => isDigit_of_mem_toDigits⟩

theorem decimalValue_toDigits (n : Nat) : decimalValue (Nat.toDigits 10 n) = n := by
  have hvalue : ∀ digits, decimalValue digits = Nat.ofDigitChars 10 digits 0 := by
    intro digits
    simp only [decimalValue, Nat.ofDigitChars, Nat.mul_comm]
  rw [hvalue, Nat.ofDigitChars_ten_toDigits]

theorem decimalValue_zeros (zeros : Nat) (digits : List Char) :
    decimalValue (List.replicate zeros '0' ++ digits) = decimalValue digits := by
  induction zeros with
  | zero => rfl
  | succ zeros ih =>
    rw [List.replicate_succ, List.cons_append, ← ih]
    rfl

/-! ## Decimal literals -/

section

variable {sign rest text : List Char}

theorem exists_splitSign (text : List Char) : ∃ sign, IsSign sign ∧ text = sign ++ (splitSign text).2 := by
  unfold splitSign
  split
  · exact ⟨_, .minus, rfl⟩
  · exact ⟨_, .plus, rfl⟩
  · exact ⟨_, .absent, rfl⟩

theorem splitSign_append (hsign : IsSign sign) (h : ∀ c ∈ rest.head?, c ≠ '+' ∧ c ≠ '-') :
    (splitSign (sign ++ rest)).2 = rest := by
  cases hsign with
  | absent =>
    rw [List.nil_append]
    unfold splitSign
    split
    · exact absurd rfl (h _ rfl).2
    · exact absurd rfl (h _ rfl).1
    · rfl
  | _ => rfl

theorem ne_sign_of_isDigit {c : Char} (h : isDigit c = true) : c ≠ '+' ∧ c ≠ '-' := by
  constructor
  · rintro rfl
    exact absurd h (by decide)
  · rintro rfl
    exact absurd h (by decide)

theorem isSome_literalExponent?_iff : (literalExponent? text).isSome = true ↔ IsExponent text := by
  constructor
  · intro h
    unfold literalExponent? at h
    split at h
    · exact .absent
    · rename_i mark rest
      split at h
      · rename_i hmark
        simp only at h
        split at h
        · cases h
        · rename_i hdigits
          obtain ⟨sign, hsign, heq⟩ := exists_splitSign rest
          rw [heq]
          simp only [Bool.or_eq_true, List.isEmpty_iff, Bool.not_eq_true', not_or, Bool.not_eq_false,
            List.all_eq_true] at hdigits
          exact .present (by simpa using hmark) hsign hdigits
      · cases h
  · rintro (_ | ⟨hmark, hsign, hne, hdigits⟩)
    · rfl
    · rename_i mark sign digits
      have hsplit : (splitSign (sign ++ digits)).2 = digits :=
        splitSign_append hsign fun c hc => ne_sign_of_isDigit (hdigits c (List.mem_of_mem_head? hc))
      have hall : digits.all isDigit = true := List.all_eq_true.2 hdigits
      simp [literalExponent?, hmark, hsplit, hne, hall]

theorem literalFraction_of_no_point (h : ∀ rest, text ≠ '.' :: rest) :
    literalFraction text = ([], text) := by
  unfold literalFraction
  split
  · exact absurd rfl (h _)
  · rfl

/-- In front of the exponent stand the digits and what the point brings. -/
theorem exists_mantissa (hne : ¬ (text.takeWhile isDigit = [] ∧
      (literalFraction (text.dropWhile isDigit)).1 = [])) :
    ∃ mantissa, IsMantissa mantissa ∧
      text = mantissa ++ (literalFraction (text.dropWhile isDigit)).2 := by
  have hwhole : ∀ c ∈ text.takeWhile isDigit, isDigit c = true := fun c hc => List.mem_takeWhile_imp hc
  have hsplit : text.takeWhile isDigit ++ text.dropWhile isDigit = text :=
    List.takeWhile_append_dropWhile
  generalize text.takeWhile isDigit = whole at hne hwhole hsplit
  generalize text.dropWhile isDigit = behind at hne hsplit ⊢
  rw [← hsplit]
  by_cases hpoint : ∃ rest, behind = '.' :: rest
  · obtain ⟨rest, rfl⟩ := hpoint
    have hfraction : ∀ c ∈ (literalFraction ('.' :: rest)).1, isDigit c = true :=
      fun c hc => List.mem_takeWhile_imp hc
    have hrest : (literalFraction ('.' :: rest)).1 ++ (literalFraction ('.' :: rest)).2 = rest :=
      List.takeWhile_append_dropWhile
    by_cases hempty : whole = []
    · subst hempty
      refine ⟨_, .fraction ⟨fun hnone => hne ⟨rfl, hnone⟩, hfraction⟩, ?_⟩
      rw [List.cons_append, hrest, List.nil_append]
    · refine ⟨_, .pointed ⟨hempty, hwhole⟩ hfraction, ?_⟩
      rw [List.append_assoc, List.cons_append, hrest]
  · rw [literalFraction_of_no_point fun rest heq => hpoint ⟨rest, heq⟩] at hne ⊢
    exact ⟨whole, .whole ⟨fun hempty => hne ⟨hempty, rfl⟩, hwhole⟩, rfl⟩

theorem takeWhile_exact {p : Char → Bool} (hinside : ∀ c ∈ text, p c = true)
    (hboundary : ∀ c ∈ rest.head?, p c = false) :
    (text ++ rest).takeWhile p = text ∧ (text ++ rest).dropWhile p = rest := by
  have hdrop : (text ++ rest).dropWhile p = rest := by
    rw [List.dropWhile_append_of_pos hinside, dropWhile_of_head? hboundary]
  refine ⟨?_, hdrop⟩
  have hsplit := List.takeWhile_append_dropWhile (p := p) (l := text ++ rest)
  rw [hdrop] at hsplit
  exact List.append_cancel_right hsplit

theorem head?_exponent {exponent : List Char} (h : IsExponent exponent) :
    ∀ c ∈ exponent.head?, isDigit c = false ∧ c ≠ '.' := by
  rintro c hc
  cases h with
  | absent => cases hc
  | present hmark =>
    cases hc
    rcases hmark with rfl | rfl <;> decide

/-- Of a mantissa and an exponent the reader finds the same parts again. -/
theorem parts_of_mantissa {mantissa exponent : List Char} (h : IsMantissa mantissa)
    (hexponent : IsExponent exponent) :
    ¬ ((mantissa ++ exponent).takeWhile isDigit = [] ∧
      (literalFraction ((mantissa ++ exponent).dropWhile isDigit)).1 = []) ∧
    (literalFraction ((mantissa ++ exponent).dropWhile isDigit)).2 = exponent := by
  have hhead := head?_exponent hexponent
  have hdigit : ∀ c ∈ exponent.head?, isDigit c = false := fun c hc => (hhead c hc).1
  have hpoint : ∀ rest, exponent ≠ '.' :: rest := by
    rintro rest rfl
    exact (hhead '.' rfl).2 rfl
  cases h with
  | whole h =>
    obtain ⟨htake, hdrop⟩ := takeWhile_exact h.2 hdigit
    rw [htake, hdrop, literalFraction_of_no_point hpoint]
    exact ⟨fun hempty => h.1 hempty.1, rfl⟩
  | @pointed whole fraction h hfraction =>
    have hstop : ∀ c ∈ ('.' :: (fraction ++ exponent)).head?, isDigit c = false := by
      rintro c ⟨⟩
      rfl
    obtain ⟨htake, hdrop⟩ := takeWhile_exact h.2 hstop
    rw [List.append_assoc, List.cons_append, htake, hdrop]
    exact ⟨fun hempty => h.1 hempty.1, (takeWhile_exact hfraction hdigit).2⟩
  | @fraction fraction h =>
    obtain ⟨htake, hdrop⟩ := takeWhile_exact h.2 hdigit
    refine ⟨fun hempty => h.1 ?_, hdrop⟩
    rw [← htake]
    exact hempty.2

theorem head?_mantissa {mantissa : List Char} (h : IsMantissa mantissa) (exponent : List Char) :
    ∀ c ∈ (mantissa ++ exponent).head?, c ≠ '+' ∧ c ≠ '-' := by
  intro c hc
  cases h with
  | whole h =>
    obtain ⟨first, others, rfl⟩ := List.exists_cons_of_ne_nil h.1
    cases hc
    exact ne_sign_of_isDigit (h.2 _ (List.mem_cons_self ..))
  | pointed h =>
    rename_i whole fraction _
    obtain ⟨first, others, rfl⟩ := List.exists_cons_of_ne_nil h.1
    cases hc
    exact ne_sign_of_isDigit (h.2 _ (List.mem_cons_self ..))
  | fraction h =>
    cases hc
    decide

theorem isSome_decimalLiteral?_iff : (decimalLiteral? text).isSome = true ↔ IsDecimal text := by
  have hread : (decimalLiteral? text).isSome = true ↔
      ¬ ((splitSign text).2.takeWhile isDigit = [] ∧
        (literalFraction ((splitSign text).2.dropWhile isDigit)).1 = []) ∧
      IsExponent (literalFraction ((splitSign text).2.dropWhile isDigit)).2 := by
    rw [← isSome_literalExponent?_iff, decimalLiteral?]
    simp only [Bool.and_eq_true, List.isEmpty_iff]
    split
    · simp [*]
    · rename_i hne
      rw [Option.isSome_map]
      exact (and_iff_right hne).symm
  rw [hread]
  constructor
  · rintro ⟨hne, hexponent⟩
    obtain ⟨sign, hsign, heq⟩ := exists_splitSign text
    obtain ⟨mantissa, hmantissa, hparts⟩ := exists_mantissa hne
    rw [heq, hparts]
    exact .intro hsign hmantissa hexponent
  · rintro ⟨hsign, hmantissa, hexponent⟩
    rw [splitSign_append hsign (head?_mantissa hmantissa _)]
    obtain ⟨hne, hrest⟩ := parts_of_mantissa hmantissa hexponent
    refine ⟨hne, ?_⟩
    rw [hrest]
    exact hexponent

end

/-! ## Literals in a base -/

theorem char_le_iff {a b : Char} : a ≤ b ↔ a.toNat ≤ b.toNat := Iff.rfl

theorem NumeralBase.isDigit_iff {base : NumeralBase} {c : Char} :
    base.IsDigit c ↔ ∃ d, digitValue? c = some d ∧ d < base.size := by
  have hcodes : '0'.toNat = 48 ∧ '1'.toNat = 49 ∧ '7'.toNat = 55 ∧ '9'.toNat = 57 ∧ 'a'.toNat = 97 ∧
      'f'.toNat = 102 ∧ 'z'.toNat = 122 ∧ 'A'.toNat = 65 ∧ 'F'.toNat = 70 ∧ 'Z'.toNat = 90 := by decide
  obtain ⟨h0, h1, h7, h9, ha, hf, hz, hA, hF, hZ⟩ := hcodes
  unfold digitValue?
  cases base <;> simp only [NumeralBase.IsDigit, NumeralBase.size, char_le_iff, h0, h1, h7, h9, ha, hf, hz,
    hA, hF, hZ]
  all_goals
    split
    · simp only [Option.some.injEq, exists_eq_left']
      omega
    · split
      · simp only [Option.some.injEq, exists_eq_left']
        omega
      · split
        · simp only [Option.some.injEq, exists_eq_left']
          omega
        · simp only [reduceCtorEq, false_and, exists_false, iff_false]
          omega

theorem NumeralBase.not_isDigit_plus (base : NumeralBase) : ¬ base.IsDigit '+' := by
  rw [NumeralBase.isDigit_iff]
  rintro ⟨d, hd, -⟩
  cases hd

theorem digitsValue?_eq_some_iff {base : NumeralBase} {read n : Nat} {digits : List Char} :
    digitsValue? base.size read digits = some n ↔
      (∀ c ∈ digits, base.IsDigit c) ∧ base.value read digits = n := by
  induction digits generalizing read with
  | nil => simp [digitsValue?, NumeralBase.value]
  | cons c rest ih =>
    rw [List.forall_mem_cons, NumeralBase.isDigit_iff, digitsValue?]
    cases hvalue : digitValue? c with
    | none => simp
    | some d =>
      have hstep : base.value read (c :: rest) = base.value (read * base.size + d) rest := by
        rw [NumeralBase.value, List.foldl_cons, hvalue]
        rfl
      by_cases hd : d < base.size
      · simp [hd, ih, hstep]
      · simp [hd]

section

variable {text rest : List Char} {size n : Nat}

theorem splitBase?_of_mark {base : NumeralBase} {mark : Char} (h : mark ∈ base.marks) :
    splitBase? ('0' :: mark :: rest) = some (base.size, rest) := by
  cases base <;> simp only [NumeralBase.marks, List.mem_cons, List.not_mem_nil, or_false] at h <;>
    rcases h with rfl | rfl <;> rfl

theorem exists_mark (h : splitBase? text = some (size, rest)) :
    ∃ base : NumeralBase, ∃ mark ∈ base.marks, size = base.size ∧ text = '0' :: mark :: rest := by
  have hmarks : ∀ {mark : Char} (a b : Char), (decide (mark = a) || decide (mark = b)) = true →
      mark ∈ [a, b] := by
    intro mark a b hmark
    simpa using hmark
  unfold splitBase? at h
  split at h
  · rename_i mark behind
    split at h
    · cases h
      exact ⟨.hexadecimal, mark, hmarks _ _ ‹_›, rfl, rfl⟩
    · split at h
      · cases h
        exact ⟨.octal, mark, hmarks _ _ ‹_›, rfl, rfl⟩
      · split at h
        · cases h
          exact ⟨.binary, mark, hmarks _ _ ‹_›, rfl, rfl⟩
        · cases h
  · cases h

/-- A plus sign may stand in front of the digits. -/
theorem unsigned?_eq_some_iff {base : NumeralBase} : unsigned? base.size text = some n ↔
    ∃ between digits, (between = [] ∨ between = ['+']) ∧ text = between ++ digits ∧ digits ≠ [] ∧
      (∀ c ∈ digits, base.IsDigit c) ∧ base.value 0 digits = n := by
  have hread : ∀ digits : List Char,
      (if digits.isEmpty = true then none else digitsValue? base.size 0 digits) = some n ↔
        digits ≠ [] ∧ (∀ c ∈ digits, base.IsDigit c) ∧ base.value 0 digits = n := by
    intro digits
    rw [← digitsValue?_eq_some_iff]
    cases digits <;> simp
  unfold unsigned?
  constructor
  · intro h
    split at h
    · exact ⟨['+'], _, .inr rfl, rfl, (hread _).1 h⟩
    · exact ⟨[], _, .inl rfl, rfl, (hread _).1 h⟩
  · rintro ⟨between, digits, rfl | rfl, rfl, hdigits⟩
    · split
      · exact absurd (hdigits.2.1 '+' (List.mem_cons_self ..)) base.not_isDigit_plus
      · exact (hread _).2 hdigits
    · exact (hread digits).2 hdigits

theorem IsBased.unsigned? {between : List Char} (hbased : IsBased between n text)
    (hbetween : between = [] ∨ between = ['+']) (h : splitBase? text = some (size, rest)) :
    unsigned? size rest = some n := by
  obtain ⟨base, hmark, hne, hdigits⟩ := hbased
  rw [splitBase?_of_mark hmark, Option.some.injEq, Prod.mk.injEq] at h
  rw [← h.1, ← h.2, unsigned?_eq_some_iff]
  exact ⟨between, _, hbetween, rfl, hne, hdigits, rfl⟩

theorem isSome_baseLiteral?_iff (h : splitBase? text = some (size, rest)) :
    (baseLiteral? size rest).isSome = true ↔
      ∃ n < Nat.pow 2 64, IsBased [] n text ∨ IsBased ['+'] n text := by
  have hread : (baseLiteral? size rest).isSome = true ↔ ∃ n < Nat.pow 2 64, unsigned? size rest = some n := by
    unfold baseLiteral?
    cases unsigned? size rest with
    | none => simp
    | some n =>
      by_cases hn : n < Nat.pow 2 64
      · simp only [if_pos hn, Option.isSome_some, true_iff]
        exact ⟨n, hn, rfl⟩
      · simp only [if_neg hn, Option.isSome_none, Bool.false_eq_true, false_iff]
        rintro ⟨other, hlt, hsame⟩
        exact hn (Option.some.inj hsame ▸ hlt)
  rw [hread]
  refine exists_congr fun n => and_congr_right fun _ => ?_
  constructor
  · obtain ⟨base, mark, hmark, rfl, rfl⟩ := exists_mark h
    rw [unsigned?_eq_some_iff]
    rintro ⟨between, digits, rfl | rfl, rfl, hne, hdigits, rfl⟩
    · exact .inl (.intro base hmark hne hdigits)
    · exact .inr (.intro base hmark hne hdigits)
  · rintro (hplain | hplus)
    · exact hplain.unsigned? (.inl rfl) h
    · exact hplus.unsigned? (.inr rfl) h

end

/-! ## Numerals -/

section

variable {text : List Char}

/-- The characters that decimal literals are made of. -/
def IsDecimalChar (c : Char) : Prop := isDigit c = true ∨ c ∈ ['.', 'e', 'E', '+', '-']

theorem IsDigits.decimalChar (h : IsDigits text) : ∀ c ∈ text, IsDecimalChar c :=
  fun c hc => .inl (h.2 c hc)

theorem IsSign.decimalChar (h : IsSign text) : ∀ c ∈ text, IsDecimalChar c := by
  intro c hc
  cases h with
  | absent => cases hc
  | _ =>
    rw [List.mem_singleton.1 hc]
    exact .inr (by decide)

theorem IsMantissa.decimalChar (h : IsMantissa text) : ∀ c ∈ text, IsDecimalChar c := by
  have hpoint : IsDecimalChar '.' := .inr (by decide)
  cases h with
  | whole h => exact h.decimalChar
  | pointed h hfraction =>
    rw [List.forall_mem_append, List.forall_mem_cons]
    exact ⟨h.decimalChar, hpoint, fun c hc => .inl (hfraction c hc)⟩
  | fraction h =>
    rw [List.forall_mem_cons]
    exact ⟨hpoint, h.decimalChar⟩

theorem IsExponent.decimalChar (h : IsExponent text) : ∀ c ∈ text, IsDecimalChar c := by
  cases h with
  | absent => exact fun c hc => absurd hc List.not_mem_nil
  | present hmark hsign h =>
    rw [List.forall_mem_cons, List.forall_mem_append]
    refine ⟨.inr ?_, hsign.decimalChar, h.decimalChar⟩
    rcases hmark with rfl | rfl <;> decide

theorem IsDecimal.decimalChar (h : IsDecimal text) : ∀ c ∈ text, IsDecimalChar c := by
  obtain ⟨hsign, hmantissa, hexponent⟩ := h
  rw [List.forall_mem_append, List.forall_mem_append]
  exact ⟨hsign.decimalChar, hmantissa.decimalChar, hexponent.decimalChar⟩

theorem NumeralBase.not_decimalChar {base : NumeralBase} {mark : Char} (h : mark ∈ base.marks) :
    ¬ IsDecimalChar mark := by
  cases base <;> simp only [NumeralBase.marks, List.mem_cons, List.not_mem_nil, or_false] at h <;>
    rcases h with rfl | rfl <;> exact fun hchar => by revert hchar; unfold IsDecimalChar; decide

/-- A decimal literal announces no base. -/
theorem IsDecimal.splitBase? (h : IsDecimal text) : splitBase? text = none := by
  cases hsplit : ApiContract.splitBase? text with
  | none => rfl
  | some parts =>
    obtain ⟨size, rest⟩ := parts
    obtain ⟨base, mark, hmark, -, rfl⟩ := exists_mark hsplit
    have hchar := h.decimalChar mark (List.mem_cons_of_mem _ (List.mem_cons_self ..))
    exact absurd hchar (NumeralBase.not_decimalChar hmark)

theorem splitBase?_infinity {sign : List Char} (hsign : IsSign sign) :
    splitBase? (sign ++ "Infinity".toList) = none := by
  cases hsign <;> rfl

theorem IsBased.exists_splitBase? {between : List Char} {n : Nat} (h : IsBased between n text) :
    ∃ size rest, splitBase? text = some (size, rest) := by
  obtain ⟨base, hmark, -, -⟩ := h
  exact ⟨_, _, splitBase?_of_mark hmark⟩

theorem splitSign_eq_infinity_iff :
    (splitSign text).2 = "Infinity".toList ↔ ∃ sign, IsSign sign ∧ text = sign ++ "Infinity".toList := by
  constructor
  · intro h
    obtain ⟨sign, hsign, heq⟩ := exists_splitSign text
    exact ⟨sign, hsign, h ▸ heq⟩
  · rintro ⟨sign, hsign, rfl⟩
    exact splitSign_append hsign (by rintro c ⟨⟩; decide)

/-- A text that announces a base is a numeral when digits of the base follow. -/
theorem isNumeral_iff_of_base {size : Nat} {rest : List Char} (h : splitBase? text = some (size, rest)) :
    IsNumeral text ↔ ∃ n, IsBased [] n text := by
  refine ⟨fun hnumeral => ?_, fun ⟨n, hbased⟩ => .based hbased⟩
  cases hnumeral with
  | nothing => cases h
  | based hbased => exact ⟨_, hbased⟩
  | infinity hsign =>
    rw [splitBase?_infinity hsign] at h
    cases h
  | decimal hdecimal =>
    rw [hdecimal.splitBase?] at h
    cases h

theorem isNumeral_iff_of_no_base (hne : text ≠ []) (h : splitBase? text = none) :
    IsNumeral text ↔ (splitSign text).2 = "Infinity".toList ∨ IsDecimal text := by
  rw [splitSign_eq_infinity_iff]
  constructor
  · intro hnumeral
    cases hnumeral with
    | nothing => exact absurd rfl hne
    | based hbased =>
      obtain ⟨size, rest, hsplit⟩ := hbased.exists_splitBase?
      rw [h] at hsplit
      cases hsplit
    | infinity hsign => exact .inl ⟨_, hsign, rfl⟩
    | decimal hdecimal => exact .inr hdecimal
  · rintro (⟨sign, hsign, rfl⟩ | hdecimal)
    · exact .infinity hsign
    · exact .decimal hdecimal

end

/-! ## Numeric texts -/

/-- A base with digits that write a number of more than 64 bits. -/
def IsOversized (text : List Char) : Prop := ∃ n ≥ Nat.pow 2 64, IsBased [] n text

/-- A base and a plus sign in front of digits, which write a number of at most 64 bits. -/
def IsPlusMarked (text : List Char) : Prop := ∃ n < Nat.pow 2 64, IsBased ['+'] n text

theorem exists_based_iff {text rest : List Char} {size : Nat}
    (h : splitBase? text = some (size, rest)) :
    (∃ n < Nat.pow 2 64, IsBased [] n text ∨ IsBased ['+'] n text) ↔
      (IsNumeral text ∧ ¬ IsOversized text) ∨ IsPlusMarked text := by
  rw [isNumeral_iff_of_base h]
  constructor
  · rintro ⟨n, hn, hplain | hplus⟩
    · refine .inl ⟨⟨n, hplain⟩, ?_⟩
      rintro ⟨other, hother, hbased⟩
      have heq := (hplain.unsigned? (.inl rfl) h).symm.trans (hbased.unsigned? (.inl rfl) h)
      rw [Option.some.injEq] at heq
      omega
    · exact .inr ⟨n, hn, hplus⟩
  · rintro (⟨⟨n, hplain⟩, hsize⟩ | ⟨n, hn, hplus⟩)
    · exact ⟨n, Nat.lt_of_not_le fun hle => hsize ⟨n, hle, hplain⟩, .inl hplain⟩
    · exact ⟨n, hn, .inr hplus⟩

theorem numericText?_of_base {text : String} {size : Nat} {rest : List Char}
    (h : splitBase? (trim text.toList) = some (size, rest)) :
    numericText? text = baseLiteral? size rest := by
  have hne : (trim text.toList).isEmpty = false := by
    cases hbody : trim text.toList with
    | nil =>
      rw [hbody] at h
      cases h
    | cons _ _ => rfl
  rw [numericText?]
  simp only [hne, h, Bool.false_eq_true, if_false]

theorem numericText?_of_no_base {text : String} (hne : trim text.toList ≠ [])
    (h : splitBase? (trim text.toList) = none) :
    numericText? text =
      if (splitSign (trim text.toList)).2 = "Infinity".toList then
        some (.infinite (splitSign (trim text.toList)).1)
      else decimalLiteral? (trim text.toList) := by
  have hempty : (trim text.toList).isEmpty = false := List.isEmpty_eq_false_iff.2 hne
  rw [numericText?]
  simp only [hempty, h, Bool.false_eq_true, if_false]

/-- A text is read as a number when it is, without the blanks at its ends, a numeral or nothing, with two
exceptions: a number in a written base may have no more than 64 bits, and a plus sign may stand in front of
its digits. -/
theorem isSome_numericText?_iff (text : String) : (numericText? text).isSome = true ↔
    ∃ body, IsTrimmed text.toList body ∧
      ((IsNumeral body ∧ ¬ IsOversized body) ∨ IsPlusMarked body) := by
  simp only [isTrimmed_iff, exists_eq_left']
  cases hsplit : splitBase? (trim text.toList) with
  | some parts =>
    obtain ⟨size, rest⟩ := parts
    rw [numericText?_of_base hsplit, isSome_baseLiteral?_iff hsplit, exists_based_iff hsplit]
  | none =>
    have hbased : ∀ between n, ¬ IsBased between n (trim text.toList) := by
      intro between n hbased
      obtain ⟨size, rest, hbase⟩ := hbased.exists_splitBase?
      rw [hsplit] at hbase
      cases hbase
    have hsize : ¬ IsOversized (trim text.toList) := fun ⟨n, _, h⟩ => hbased [] n h
    have hplus : ¬ IsPlusMarked (trim text.toList) := fun ⟨n, _, h⟩ => hbased ['+'] n h
    rw [or_iff_left hplus, and_iff_left hsize]
    by_cases hempty : trim text.toList = []
    · rw [hempty, numericText?]
      simp only [hempty, List.isEmpty_nil, if_true]
      exact ⟨fun _ => .nothing, fun _ => rfl⟩
    · rw [numericText?_of_no_base hempty hsplit, isNumeral_iff_of_no_base hempty hsplit]
      split
      · rename_i hinfinity
        exact ⟨fun _ => .inl hinfinity, fun _ => rfl⟩
      · rename_i hfinite
        rw [isSome_decimalLiteral?_iff, or_iff_right hfinite]

example : numericText? "0x10000000000000000" = none := by decide

/-- A sign behind the base is read over, though it is no digit. -/
theorem plusMarked_read : ¬ ((numericText? "0x+1F").isSome = true ↔
    ∃ body, IsTrimmed "0x+1F".toList body ∧ IsNumeral body) := by
  have hread : (numericText? "0x+1F").isSome = true := by decide
  have htrim : trim "0x+1F".toList = ['0', 'x', '+', '1', 'F'] := by decide
  have hsplit : splitBase? ['0', 'x', '+', '1', 'F'] = some (16, ['+', '1', 'F']) := rfl
  simp only [hread, isTrimmed_iff, htrim, exists_eq_left', isNumeral_iff_of_base hsplit, true_iff]
  rintro ⟨n, hbased⟩
  generalize htext : ['0', 'x', '+', '1', 'F'] = text at hbased
  obtain ⟨base, -, -, hdigits⟩ := hbased
  simp only [List.nil_append, List.cons.injEq, true_and] at htext
  obtain ⟨-, rfl⟩ := htext
  exact base.not_isDigit_plus (hdigits '+' (List.mem_cons_self ..))

end ApiContract
