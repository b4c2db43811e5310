import ApiContract.Number.Layout
import ApiContract.Proofs.Number.Digits
import ApiContract.Proofs.Number.Integers

/-! # Texts of floats read back

In every layout the text of a float is a decimal literal that stands for the float. So different floats have
different texts.

* `WritesDecimal`: digits with a point among them or none and an exponent or none, and the numeral that they
  write; `decimalLiteral?_of_writes`: how they are read. `WritesValue` keeps the value of the numeral only.
* `Layout.placePoint_writes`, `Layout.scientific_writes`: both forms write the value of their digits.
* `Layout.decimalLiteral?_render`: the text of a float stands for the float.
* `Binary64.isCanonical_of_decimalLiteral?`: what is read is in the form of floats. -/

set_option autoImplicit false

namespace ApiContract

/-! ## Digits of texts -/

theorem decimalValue_append (digits rest : List Char) :
    decimalValue (digits ++ rest) = decimalValue digits * 10 ^ rest.length + decimalValue rest := by
  induction rest using List.reverseRecOn with
  | nil => simp [decimalValue]
  | append_singleton rest c ih =>
    have hlast : ∀ text : List Char, decimalValue (text ++ [c]) = decimalValue text * 10 + (c.toNat - '0'.toNat) := by
      intro text
      simp [decimalValue]
    rw [← List.append_assoc, hlast, hlast, ih, List.length_append, List.length_singleton]
    ring

theorem decimalValue_replicate (n : Nat) : decimalValue (List.replicate n '0') = 0 := by
  rw [← List.append_nil (List.replicate n '0'), decimalValue_zeros]
  rfl

theorem isDigit_of_mem_zeros {n : Nat} {c : Char} (h : c ∈ List.replicate n '0') : isDigit c = true := by
  rw [List.eq_of_mem_replicate h]
  decide

theorem isDigits_zero : IsDigits ['0'] := ⟨List.cons_ne_nil _ _, fun _ => @isDigit_of_mem_zeros 1 _⟩

/-! ## Literals -/

/-- Digits, a point among them or none, and an exponent or none, with the numeral `digits · 10 ^ exponent` that
they write. -/
inductive WritesDecimal : List Char → Nat → ℤ → Prop where
  | intro {whole fraction behind exponent : List Char} {k : ℤ} (hwhole : IsDigits whole)
    (hfraction : ∀ c ∈ fraction, isDigit c = true)
    (hbehind : (behind = [] ∧ fraction = []) ∨ behind = '.' :: fraction) (hexponent : IsExponent exponent)
    (hk : literalExponent? exponent = some k) :
    WritesDecimal (whole ++ (behind ++ exponent)) (decimalValue (whole ++ fraction)) (k - fraction.length)

/-- The text writes a numeral of the value. -/
def WritesValue (text : List Char) (value : ℚ) : Prop := ∃ n e, WritesDecimal text n e ∧ (n : ℚ) * 10 ^ e = value

theorem writesValue_point {whole fraction : List Char} (hwhole : IsDigits whole)
    (hfraction : ∀ c ∈ fraction, isDigit c = true) : WritesValue (whole ++ '.' :: fraction)
      (decimalValue (whole ++ fraction) * 10 ^ (-(fraction.length : ℤ))) := by
  have hwrites := WritesDecimal.intro hwhole hfraction (.inr rfl) .absent rfl
  rw [List.append_nil, zero_sub] at hwrites
  exact ⟨_, _, hwrites, rfl⟩

theorem writesValue_whole {whole : List Char} (hwhole : IsDigits whole) :
    WritesValue whole (decimalValue whole) := by
  have hwrites := @WritesDecimal.intro _ [] _ _ _ hwhole (List.forall_mem_nil _) (.inl ⟨rfl, rfl⟩) .absent rfl
  rw [List.append_nil, List.append_nil] at hwrites
  exact ⟨_, _, hwrites, by simp⟩

section

variable {text : List Char} {n : Nat} {e : ℤ} {negative : Bool} {x : Binary64}

theorem splitSign_signed (h : ∀ c ∈ text.head?, isDigit c = true) (negative : Bool) :
    splitSign ((if negative then ['-'] else []) ++ text) = (negative, text) := by
  cases negative with
  | true => rfl
  | false =>
    rw [if_neg Bool.false_ne_true, List.nil_append]
    unfold splitSign
    split
    · exact absurd (h _ rfl) (by decide)
    · exact absurd (h _ rfl) (by decide)
    · rfl

/-- A literal is read as the float of its numeral. -/
theorem decimalLiteral?_of_writes (h : WritesDecimal text n e) (hx : Binary64.ofDecimal? negative n e = some x) :
    decimalLiteral? ((if negative then ['-'] else []) ++ text) = some (.finite x) := by
  obtain @⟨whole, fraction, behind, exponent, k, hwhole, hfraction, hbehind, hexponent, hk⟩ := h
  have hdigit : ∀ c ∈ exponent.head?, isDigit c = false := fun c hc => (head?_exponent hexponent c hc).1
  have hfirst : ∀ c ∈ (whole ++ (behind ++ exponent)).head?, isDigit c = true := by
    obtain ⟨first, others, rfl⟩ := List.exists_cons_of_ne_nil hwhole.1
    rintro c ⟨⟩
    exact hwhole.2 _ (List.mem_cons_self ..)
  have hstop : ∀ c ∈ (behind ++ exponent).head?, isDigit c = false := by
    rcases hbehind with ⟨rfl, -⟩ | rfl
    · exact hdigit
    · rintro c ⟨⟩
      rfl
  have hparts : literalFraction (behind ++ exponent) = (fraction, exponent) := by
    rcases hbehind with ⟨rfl, rfl⟩ | rfl
    · refine literalFraction_of_no_point ?_
      rintro rest rfl
      exact (head?_exponent hexponent '.' rfl).2 rfl
    · obtain ⟨htake, hdrop⟩ := takeWhile_exact hfraction hdigit
      rw [List.cons_append, literalFraction, htake, hdrop]
  obtain ⟨htake, hdrop⟩ := takeWhile_exact hwhole.2 hstop
  simp only [decimalLiteral?, splitSign_signed hfirst, htake, hdrop, hparts, hk, Option.map_some, hx]
  rw [if_neg]
  simp [hwhole.1]

end

/-! ## Layouts -/

namespace Layout

section

variable {digits : List Char} {point : ℤ}

theorem isDigits_append_zeros (h : IsDigits digits) (k : Nat) : IsDigits (digits ++ List.replicate k '0') := by
  refine ⟨fun hempty => h.1 (List.append_eq_nil_iff.1 hempty).1, fun c hc => ?_⟩
  rcases List.mem_append.1 hc with hc | hc
  · exact h.2 c hc
  · exact isDigit_of_mem_zeros hc

/-- A point, `k` zeros and the digits. -/
theorem zeros_before_writes (h : IsDigits digits) (k : Nat) :
    WritesValue ('0' :: '.' :: (List.replicate k '0' ++ digits))
      (decimalValue digits * 10 ^ (-(k : ℤ) - digits.length)) := by
  have hfraction : ∀ c ∈ List.replicate k '0' ++ digits, isDigit c = true := by
    intro c hc
    rcases List.mem_append.1 hc with hc | hc
    · exact isDigit_of_mem_zeros hc
    · exact h.2 c hc
  have hlength : -(k : ℤ) - digits.length = -((List.replicate k '0' ++ digits).length : ℤ) := by
    rw [List.length_append, List.length_replicate]
    push_cast
    ring
  have hvalue : decimalValue (['0'] ++ (List.replicate k '0' ++ digits)) = decimalValue digits := by
    rw [show ['0'] = List.replicate 1 '0' from rfl, decimalValue_zeros, decimalValue_zeros]
  rw [hlength, ← hvalue]
  exact writesValue_point isDigits_zero hfraction

/-- The digits, `k` zeros and a point or none. -/
theorem zeros_behind_writes (h : IsDigits digits) (k : Nat) (pointZero : Bool) :
    WritesValue (digits ++ List.replicate k '0' ++ (if pointZero then ['.', '0'] else []))
      (decimalValue digits * 10 ^ (k : ℤ)) := by
  have hwhole := isDigits_append_zeros h k
  have hvalue : (decimalValue (digits ++ List.replicate k '0') : ℚ) = decimalValue digits * 10 ^ (k : ℤ) := by
    rw [decimalValue_append, decimalValue_replicate, List.length_replicate, zpow_natCast]
    push_cast
    ring
  rw [← hvalue]
  cases pointZero with
  | true =>
    have hwrites := writesValue_point hwhole isDigits_zero.2
    rw [decimalValue_append, show decimalValue ['0'] = 0 by decide, List.length_singleton] at hwrites
    push_cast at hwrites
    rwa [add_zero, mul_assoc, zpow_neg_one, mul_inv_cancel₀ (by norm_num), mul_one] at hwrites
  | false =>
    rw [if_neg Bool.false_ne_true, List.append_nil]
    exact writesValue_whole hwhole

/-- The digits with a point behind `k` of them. -/
theorem point_inside_writes (h : IsDigits digits) {k : Nat} (hpos : 0 < k) (hlt : k < digits.length) :
    WritesValue (digits.take k ++ '.' :: digits.drop k) (decimalValue digits * 10 ^ ((k : ℤ) - digits.length)) := by
  have hwhole : IsDigits (digits.take k) := by
    refine ⟨fun hempty => ?_, fun c hc => h.2 c (List.mem_of_mem_take hc)⟩
    rcases List.take_eq_nil_iff.1 hempty with hzero | hnil
    · exact hpos.ne' hzero
    · exact h.1 hnil
  have hfraction : ∀ c ∈ digits.drop k, isDigit c = true := fun c hc => h.2 c (List.mem_of_mem_drop hc)
  have hwrites := writesValue_point hwhole hfraction
  rwa [List.take_append_drop, List.length_drop, Nat.cast_sub hlt.le, neg_sub] at hwrites

/-- With its point at a place, a numeral keeps its value. -/
theorem placePoint_writes (h : IsDigits digits) (point : ℤ) (pointZero : Bool) :
    WritesValue (placePoint digits point pointZero) (decimalValue digits * 10 ^ (point - digits.length)) := by
  unfold placePoint
  split
  · next hpoint =>
    obtain ⟨k, hk⟩ := Int.eq_ofNat_of_zero_le (show 0 ≤ -point by omega)
    obtain rfl : point = -(k : ℤ) := by omega
    rw [neg_neg, Int.toNat_natCast]
    exact zeros_before_writes h k
  · next hpoint =>
    obtain ⟨k, rfl⟩ := Int.eq_ofNat_of_zero_le (show 0 ≤ point by omega)
    simp only [Int.toNat_natCast]
    split
    · next hlength =>
      rw [← Nat.cast_sub hlength]
      exact zeros_behind_writes h _ pointZero
    · next hlength => exact point_inside_writes h (by omega) (by omega)

/-- The exponent of a scientific form, with its sign. -/
theorem literalExponent?_signed (exponent : ℤ) (plusSign : Bool) :
    IsExponent ('e' :: ((if exponent < 0 then ['-'] else if plusSign then ['+'] else []) ++
        Nat.toDigits 10 exponent.natAbs)) ∧
      literalExponent? ('e' :: ((if exponent < 0 then ['-'] else if plusSign then ['+'] else []) ++
        Nat.toDigits 10 exponent.natAbs)) = some exponent := by
  have hdigits := isDigits_toDigits exponent.natAbs
  have hvalue := decimalValue_toDigits exponent.natAbs
  generalize Nat.toDigits 10 exponent.natAbs = digits at hdigits hvalue ⊢
  have hread : ∀ {sign : List Char} {negative : Bool}, splitSign (sign ++ digits) = (negative, digits) →
      literalExponent? ('e' :: (sign ++ digits)) =
        some (if negative then -(exponent.natAbs : ℤ) else exponent.natAbs) := by
    intro sign negative hsplit
    simp [literalExponent?, hsplit, hdigits.1, hvalue, List.all_eq_true.2 hdigits.2]
  have hplain : splitSign ([] ++ digits) = (false, digits) := splitSign_of_digits hdigits.2 false
  split
  · next hneg =>
    refine ⟨.present (.inl rfl) .minus hdigits, ?_⟩
    rw [hread rfl, if_pos rfl]
    congr 1
    omega
  · next hneg =>
    split
    · refine ⟨.present (.inl rfl) .plus hdigits, ?_⟩
      rw [hread rfl, if_neg Bool.false_ne_true]
      congr 1
      omega
    · refine ⟨.present (.inl rfl) .absent hdigits, ?_⟩
      rw [hread hplain, if_neg Bool.false_ne_true]
      congr 1
      omega

/-- The first digit, the other ones behind a point, and an exponent. -/
theorem scientific_writes (h : IsDigits digits) (exponent : ℤ) (plusSign : Bool) :
    WritesValue (scientific digits exponent plusSign) (decimalValue digits * 10 ^ (exponent + 1 - digits.length)) := by
  obtain ⟨hexponent, hk⟩ := literalExponent?_signed exponent plusSign
  have hone : ∀ {d : Char}, d ∈ digits → IsDigits [d] := fun hd => ⟨by simp, by simpa using h.2 _ hd⟩
  unfold scientific
  match digits with
  | [] => exact absurd rfl h.1
  | [d] =>
    have hwrites := @WritesDecimal.intro _ [] _ _ _ (hone (List.mem_cons_self ..)) (List.forall_mem_nil _)
      (.inl ⟨rfl, rfl⟩) hexponent hk
    exact ⟨_, _, hwrites, by simp⟩
  | d :: second :: rest =>
    have hwrites := @WritesDecimal.intro _ (second :: rest) _ _ _ (hone (List.mem_cons_self ..))
      (fun c hc => h.2 c (List.mem_cons_of_mem d hc)) (.inr rfl) hexponent hk
    refine ⟨_, _, hwrites, ?_⟩
    rw [List.length_cons (a := d), Nat.cast_add_one, add_sub_add_right_eq_sub]
    rfl

variable {x : Binary64}

/-- In every layout the text of a float stands for the float. -/
theorem decimalLiteral?_render (layout : Layout) (hx : x.IsCanonical) :
    decimalLiteral? (layout.render x).toList = some (.finite x) := by
  unfold render
  by_cases hzero : x.isZero = true
  · have hsignificand : x.significand = 0 := by simpa [Binary64.isZero] using hzero
    have hexponent : x.exponent = Binary64.leastExponent := hx.filled.resolve_left (by omega)
    have hvalue : x = Binary64.zero x.negative := by
      cases x
      simp_all [Binary64.zero]
    rw [if_pos hzero, String.toList_ofList, hvalue]
    cases layout.pointZero <;> cases x.negative <;> rfl
  · have hpos : 0 < x.significand := Nat.pos_of_ne_zero (by simpa [Binary64.isZero] using hzero)
    obtain ⟨hdigitsPos, hcontains⟩ := Binary64.contains_shortest hx hpos
    have hdigits := isDigits_toDigits x.shortest.1
    have hdigitsValue := decimalValue_toDigits x.shortest.1
    simp only [if_neg hzero, String.toList_ofList]
    generalize Nat.toDigits 10 x.shortest.1 = digits at hdigits hdigitsValue ⊢
    obtain ⟨n, e, hwrites, hvalue⟩ : WritesValue
        (if layout.isPositional (digits.length + x.shortest.2) then
          placePoint digits (digits.length + x.shortest.2) layout.pointZero
        else scientific digits (digits.length + x.shortest.2 - 1) layout.plusSign)
          (x.shortest.1 * 10 ^ x.shortest.2) := by
      split
      · have hwrites := placePoint_writes hdigits (digits.length + x.shortest.2) layout.pointZero
        rwa [hdigitsValue, add_sub_cancel_left] at hwrites
      · have hwrites := scientific_writes hdigits (digits.length + x.shortest.2 - 1) layout.plusSign
        rwa [hdigitsValue, sub_add_cancel, add_sub_cancel_left] at hwrites
    rw [← hvalue] at hcontains
    have hn : n ≠ 0 := by
      rintro rfl
      have : (0 : ℚ) < x.shortest.1 * 10 ^ x.shortest.2 := by
        have : (0 : ℚ) < x.shortest.1 := by exact_mod_cast hdigitsPos
        positivity
      rw [Nat.cast_zero, zero_mul] at hvalue
      linarith
    exact decimalLiteral?_of_writes hwrites (Binary64.ofDecimal?_of_contains hx hpos hn hcontains)

/-- Different floats have different texts. -/
theorem render_injective (layout : Layout) {x y : Binary64} (hx : x.IsCanonical) (hy : y.IsCanonical)
    (h : layout.render x = layout.render y) : x = y := by
  have hread := decimalLiteral?_render layout hx
  rw [h, decimalLiteral?_render layout hy] at hread
  cases hread
  rfl

/-- A layout that writes a point after integers marks every float by a point or an exponent. -/
theorem exists_mark_of_render {layout : Layout} (hpoint : layout.pointZero = true) (x : Binary64) :
    ∃ c ∈ (layout.render x).toList, c = '.' ∨ c = 'e' := by
  unfold render
  by_cases hzero : x.isZero = true
  · exact ⟨'.', by simp [hzero, hpoint], .inl rfl⟩
  · simp only [if_neg hzero, String.toList_ofList, hpoint]
    generalize (if x.negative = true then ['-'] else []) = sign
    split
    · refine ⟨'.', List.mem_append_right _ ?_, .inl rfl⟩
      unfold placePoint
      split
      · simp
      · simp only
        split <;> simp
    · exact ⟨'e', List.mem_append_right _ (by simp [scientific]), .inr rfl⟩

end

end Layout

/-! ## What is read -/

namespace Binary64

variable {negative : Bool} {x : Binary64}

theorem isCanonical_of_ofDecimal? {digits : Nat} {exponent : ℤ} (h : ofDecimal? negative digits exponent = some x) :
    x.IsCanonical := by
  rw [ofDecimal?] at h
  split at h
  · obtain rfl := Option.some.inj h
    exact isCanonical_zero negative
  · split at h
    · cases h
    · split at h
      · obtain rfl := Option.some.inj h
        exact isCanonical_zero negative
      · split at h
        · exact isCanonical_of_ofRatio? Nat.one_pos h
        · exact isCanonical_of_ofRatio? (Nat.pow_pos (by decide)) h

/-- The float of a literal is in the form of floats. -/
theorem isCanonical_of_decimalLiteral? {text : List Char} (h : decimalLiteral? text = some (.finite x)) :
    x.IsCanonical := by
  simp only [decimalLiteral?] at h
  split at h
  · cases h
  · obtain ⟨exponent, -, hfloat⟩ := Option.map_eq_some_iff.1 h
    split at hfloat
    · next y hy =>
      obtain rfl := Extended.finite.inj hfloat
      exact isCanonical_of_ofDecimal? hy
    · cases hfloat

end Binary64

end ApiContract
