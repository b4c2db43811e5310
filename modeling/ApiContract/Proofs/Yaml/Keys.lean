import ApiContract.Proofs.Number.ReadingBack
import ApiContract.Yaml.Value

/-! # Texts of keys

A key has a text when it is a text, a flag or a number. Two keys with one text are the same key unless one of
them is a text and the other one is not: the texts of flags and of numbers are all different.

* `Value.IsUnwritable`: the keys without a text.
* `integerText_injective`, `Layout.render_injective`: numbers of one kind with one text.
* `Value.KeyKind`: flags and numbers that are not finite are words, other numbers are literals;
  `Value.KeyKind.unique`: which of them, the text tells.
* `Value.eq_of_keyText?`: two keys with one text. -/

set_option autoImplicit false

namespace ApiContract

/-! ## Integers -/

theorem isDecimal_integerText (n : ℤ) : IsDecimal (integerText n).toList := by
  have hdecimal : ∀ {sign : List Char}, IsSign sign → IsDecimal (sign ++ Nat.toDigits 10 n.natAbs) := by
    intro sign hsign
    have h := IsDecimal.intro hsign (.whole (isDigits_toDigits n.natAbs)) .absent
    rwa [List.append_nil] at h
  rw [toList_integerText]
  split
  · exact hdecimal .minus
  · exact hdecimal .absent

theorem no_mark_of_integerText {n : ℤ} {c : Char} (h : c ∈ (integerText n).toList) : c ≠ '.' ∧ c ≠ 'e' := by
  rw [toList_integerText, List.mem_append] at h
  rcases h with h | h
  · split at h
    · rw [List.mem_singleton.1 h]
      decide
    · cases h
  · have hdigit := isDigit_of_mem_toDigits h
    constructor
    · rintro rfl
      exact absurd hdigit (by decide)
    · rintro rfl
      exact absurd hdigit (by decide)

theorem integerText_injective : Function.Injective integerText := by
  intro m n h
  have hsplit : ∀ k : ℤ, splitSign (integerText k).toList = (decide (k < 0), Nat.toDigits 10 k.natAbs) := by
    intro k
    have hsigned := splitSign_of_digits (isDigits_toDigits k.natAbs).2 (decide (k < 0))
    rw [toList_integerText]
    simpa using hsigned
  have hparts := hsplit m
  rw [h, hsplit n, Prod.mk.injEq] at hparts
  have hsize := congrArg decimalValue hparts.2
  rw [decimalValue_toDigits, decimalValue_toDigits] at hsize
  have hsign : n < 0 ↔ m < 0 := decide_eq_decide.1 hparts.1
  omega

namespace Yaml.Value

variable {a b key : Value} {text : String}

/-! ## Keys -/

/-- Null, collections and tagged values. As keys they have no text. -/
inductive IsUnwritable : Value → Prop where
  | null : IsUnwritable .null
  | sequence (items : List Value) : IsUnwritable (.sequence items)
  | mapping (entries : List (Value × Value)) : IsUnwritable (.mapping entries)
  | tagged (tag : String) (value : Value) : IsUnwritable (.tagged tag value)

/-- A value is a text. -/
inductive IsText : Value → Prop where
  | string (s : String) : IsText (.string s)

/-- A float is in the form of floats; any other value is. -/
def IsCanonical (value : Value) : Prop := ∀ x, value = .float x → x.IsCanonical

theorem keyText?_eq_none_iff : key.keyText? = none ↔ key.IsUnwritable := by
  constructor
  · intro h
    cases key with
    | null => exact .null
    | sequence items => exact .sequence items
    | mapping entries => exact .mapping entries
    | tagged tag value => exact .tagged tag value
    | _ => cases h
  · rintro (_ | _ | _ | _) <;> rfl

/-- A key with a text is the same as itself. -/
theorem same_self (h : key.keyText? = some text) : key.same key = true := by
  cases key with
  | null | sequence | mapping | tagged => cases h
  | float x => simp [same, sameFloat]
  | _ => simp [same]

/-! ## Kinds of texts -/

/-- Flags and numbers that are not finite, with their texts. -/
def words : List (Value × String) :=
  [(.bool true, "true"), (.bool false, "false"), (.infinite true, "-.inf"), (.infinite false, ".inf"),
    (.notANumber, ".nan")]

theorem words_unique : ∀ first ∈ words, ∀ second ∈ words, first.2 = second.2 → first.1 = second.1 := by
  simp [words]

theorem decimalLiteral?_word : ∀ word ∈ words, decimalLiteral? word.2.toList = none := by
  simp only [words, List.forall_mem_cons]
  exact ⟨rfl, rfl, rfl, rfl, rfl, nofun⟩

/-- What the text of a flag or of a number is: a word, or the literal of an integer or of a float. -/
inductive KeyKind (text : String) : Value → Prop where
  | word {key : Value} (h : (key, text) ∈ words) : KeyKind text key
  | integer (n : ℤ) (h : integerText n = text) : KeyKind text (.integer n)
  | float {x : Binary64} (hx : x.IsCanonical) (h : Layout.plainExponent.render x = text) : KeyKind text (.float x)

theorem keyKind (hkey : key.IsCanonical) (hstring : ¬ key.IsText) (h : key.keyText? = some text) :
    KeyKind text key := by
  cases key with
  | null | sequence | mapping | tagged => cases h
  | string s => exact absurd (.string s) hstring
  | bool flag => cases flag <;> cases h <;> exact .word (by simp [words])
  | integer n => exact .integer n (Option.some.inj h)
  | float x => exact .float (hkey x rfl) (Option.some.inj h)
  | infinite negative => cases negative <;> cases h <;> exact .word (by simp [words])
  | notANumber => cases h; exact .word (by simp [words])

/-- Words are no literals, and of the literals those of floats have a point or an exponent. -/
theorem KeyKind.unique (ha : KeyKind text a) (hb : KeyKind text b) : a = b := by
  have hword : ∀ {key : Value}, (key, text) ∈ words → ¬ IsDecimal text.toList := by
    intro key hkey hdecimal
    have hread := isSome_decimalLiteral?_iff.2 hdecimal
    rw [decimalLiteral?_word _ hkey] at hread
    cases hread
  have hinteger : ∀ {n : ℤ}, integerText n = text → IsDecimal text.toList := fun h => h ▸ isDecimal_integerText _
  have hfloat : ∀ {x : Binary64}, x.IsCanonical → Layout.plainExponent.render x = text → IsDecimal text.toList := by
    rintro x hx rfl
    exact isSome_decimalLiteral?_iff.1 (by rw [Layout.decimalLiteral?_render _ hx]; rfl)
  have hmark : ∀ {n : ℤ} {x : Binary64}, integerText n = text → Layout.plainExponent.render x ≠ text := by
    rintro n x rfl h
    obtain ⟨c, hc, hmarked⟩ := Layout.exists_mark_of_render (show Layout.plainExponent.pointZero = true from rfl) x
    rw [h] at hc
    exact hmarked.elim (no_mark_of_integerText hc).1 (no_mark_of_integerText hc).2
  cases ha with
  | word ha =>
    cases hb with
    | word hb => exact words_unique _ ha _ hb rfl
    | integer n hb => exact absurd (hinteger hb) (hword ha)
    | float hx hb => exact absurd (hfloat hx hb) (hword ha)
  | integer n ha =>
    cases hb with
    | word hb => exact absurd (hinteger ha) (hword hb)
    | integer m hb => rw [integerText_injective (ha.trans hb.symm)]
    | float hx hb => exact absurd hb (hmark ha)
  | float hx ha =>
    cases hb with
    | word hb => exact absurd (hfloat hx ha) (hword hb)
    | integer n hb => exact absurd ha (hmark hb)
    | float hy hb => rw [Layout.render_injective _ hx hy (ha.trans hb.symm)]

/-- Two keys with one text are the same key, unless one is a text and the other one is not. -/
theorem eq_of_keyText? (hkeyA : a.IsCanonical) (hkeyB : b.IsCanonical) (ha : a.keyText? = some text)
    (hb : b.keyText? = some text) (h : a.IsText ↔ b.IsText) : a = b := by
  by_cases hstring : a.IsText
  · obtain ⟨s⟩ := hstring
    obtain ⟨t⟩ := h.1 ⟨s⟩
    rw [keyText?] at ha hb
    rw [Option.some.inj ha, Option.some.inj hb]
  · exact (keyKind hkeyA hstring ha).unique (keyKind hkeyB (fun h' => hstring (h.2 h')) hb)

end Yaml.Value

end ApiContract
