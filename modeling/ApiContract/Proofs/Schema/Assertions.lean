import ApiContract.Schema.Assertion

/-! # The meaning of assertions

What the keywords that look at an instance alone ask of it, apart from the messages they give.

* `Assertion.Holds`: the meaning of one keyword. A keyword that is no assertion, or whose value or
  instance is of another kind than it speaks of, asks for nothing.
* `Assertion.failures_eq_nil_iff`: there are no messages exactly if the keyword holds. -/

set_option autoImplicit false

namespace ApiContract

namespace Assertion

/-- What an assertion asks of an instance. -/
def Holds (keyword : String) (value inst : Json) : Prop :=
  match keyword, value, inst with
  | "type", _, _ => ∃ type : SchemaType, type.name ∈ typeNames value ∧ type.holds inst = true
  | "enum", .array values, _ => ∃ v ∈ values, v.sameValue inst = true
  | "const", _, _ => isConstant value inst = true
  | "minimum", .number limit, .number n => n.lessValue limit = false
  | "maximum", .number limit, .number n => limit.lessValue n = false
  | "exclusiveMinimum", .number limit, .number n => limit.lessValue n = true
  | "exclusiveMaximum", .number limit, .number n => n.lessValue limit = true
  | "multipleOf", .number m, .number n => isMultiple n m = true
  | "minLength", _, .string s => ∀ limit, countLimit? value = some limit → limit ≤ s.length
  | "maxLength", _, .string s => ∀ limit, countLimit? value = some limit → s.length ≤ limit
  | "minItems", _, .array items => ∀ limit, countLimit? value = some limit → limit ≤ items.length
  | "maxItems", _, .array items => ∀ limit, countLimit? value = some limit → items.length ≤ limit
  | "minProperties", _, .object fields =>
    ∀ limit, countLimit? value = some limit → limit ≤ fields.length
  | "maxProperties", _, .object fields =>
    ∀ limit, countLimit? value = some limit → fields.length ≤ limit
  | "uniqueItems", .bool true, .array items => Json.allDistinct items = true
  | "required", .array names, .object fields =>
    ∀ name, .string name ∈ names → Fields.hasKey fields name = true
  | "pattern", .string pattern, .string s => matchesPattern pattern s = true
  | "format", .string name, .string s =>
    ∀ format, Format.ofName? name = some format → format.holds s = true
  | _, _, _ => True

/-- The keywords that look at an instance alone. -/
def keywords : List String :=
  ["type", "enum", "const", "minimum", "maximum", "exclusiveMinimum", "exclusiveMaximum",
    "multipleOf", "minLength", "maxLength", "minItems", "maxItems", "minProperties",
    "maxProperties", "uniqueItems", "required", "pattern", "format"]

section

variable {keyword : String} {value inst : Json}

/-! ## Keyword by keyword -/

theorem hasTypeOf_iff {names : List String} :
    hasTypeOf names inst = true ↔ ∃ type : SchemaType, type.name ∈ names ∧ type.holds inst = true := by
  simp only [hasTypeOf, List.any_eq_true, Bool.and_eq_true, List.contains_iff_mem]
  constructor
  · rintro ⟨type, -, htype⟩
    exact ⟨type, htype⟩
  · rintro ⟨type, htype⟩
    exact ⟨type, by cases type <;> simp [SchemaType.all], htype⟩

theorem belowLimit_eq_nil_iff {limit : Json} {count : Nat} {message : Nat → String} :
    belowLimit limit count message = [] ↔ ∀ n, countLimit? limit = some n → n ≤ count := by
  unfold belowLimit
  cases countLimit? limit with
  | none => simp
  | some n =>
    by_cases h : count < n
    · simp [h]
    · simp [h, Nat.not_lt.1 h]

theorem aboveLimit_eq_nil_iff {limit : Json} {count : Nat} {message : Nat → String} :
    aboveLimit limit count message = [] ↔ ∀ n, countLimit? limit = some n → count ≤ n := by
  unfold aboveLimit
  cases countLimit? limit with
  | none => simp
  | some n =>
    by_cases h : n < count
    · simp [h]
    · simp [h, Nat.not_lt.1 h]

theorem missingNames_eq_nil_iff {names : List Json} {fields : Fields} :
    missingNames names fields = [] ↔ ∀ name, .string name ∈ names → fields.hasKey name = true := by
  simp only [missingNames, List.filter_eq_nil_iff, List.mem_filterMap, Bool.not_eq_false,
    Bool.not_eq_true', forall_exists_index, and_imp]
  constructor
  · intro h name hname
    exact h name (.string name) hname rfl
  · intro h name item hitem hstring
    cases item with
    | string text =>
      cases hstring
      exact h name hitem
    | _ => cases hstring

theorem type_iff : assertionFailures "type" value inst = [] ↔ Holds "type" value inst := by
  show (if hasTypeOf (typeNames value) inst then [] else [_]) = [] ↔
    ∃ type : SchemaType, type.name ∈ typeNames value ∧ type.holds inst = true
  rw [← hasTypeOf_iff]
  cases hasTypeOf (typeNames value) inst <;> simp

theorem enum_iff : assertionFailures "enum" value inst = [] ↔ Holds "enum" value inst := by
  cases value with
  | array values =>
    show (if values.any (·.sameValue inst) then [] else [_]) = [] ↔
      ∃ v ∈ values, v.sameValue inst = true
    rw [← List.any_eq_true]
    cases values.any (·.sameValue inst) <;> simp
  | _ => exact iff_of_true rfl trivial

theorem const_iff : assertionFailures "const" value inst = [] ↔ Holds "const" value inst := by
  show (if isConstant value inst then [] else [_]) = [] ↔ isConstant value inst = true
  cases isConstant value inst <;> simp

theorem minimum_iff : assertionFailures "minimum" value inst = [] ↔ Holds "minimum" value inst := by
  cases inst with
  | number n =>
    cases value with
    | number limit =>
      show (if n.lessValue limit then [_] else []) = [] ↔ n.lessValue limit = false
      cases n.lessValue limit <;> simp
    | _ => exact iff_of_true rfl trivial
  | _ => cases value <;> exact iff_of_true rfl trivial

theorem maximum_iff : assertionFailures "maximum" value inst = [] ↔ Holds "maximum" value inst := by
  cases inst with
  | number n =>
    cases value with
    | number limit =>
      show (if limit.lessValue n then [_] else []) = [] ↔ limit.lessValue n = false
      cases limit.lessValue n <;> simp
    | _ => exact iff_of_true rfl trivial
  | _ => cases value <;> exact iff_of_true rfl trivial

theorem exclusiveMinimum_iff :
    assertionFailures "exclusiveMinimum" value inst = [] ↔ Holds "exclusiveMinimum" value inst := by
  cases inst with
  | number n =>
    cases value with
    | number limit =>
      show (if limit.lessValue n then [] else [_]) = [] ↔ limit.lessValue n = true
      cases limit.lessValue n <;> simp
    | _ => exact iff_of_true rfl trivial
  | _ => cases value <;> exact iff_of_true rfl trivial

theorem exclusiveMaximum_iff :
    assertionFailures "exclusiveMaximum" value inst = [] ↔ Holds "exclusiveMaximum" value inst := by
  cases inst with
  | number n =>
    cases value with
    | number limit =>
      show (if n.lessValue limit then [] else [_]) = [] ↔ n.lessValue limit = true
      cases n.lessValue limit <;> simp
    | _ => exact iff_of_true rfl trivial
  | _ => cases value <;> exact iff_of_true rfl trivial

theorem multipleOf_iff :
    assertionFailures "multipleOf" value inst = [] ↔ Holds "multipleOf" value inst := by
  cases inst with
  | number n =>
    cases value with
    | number m =>
      show (if isMultiple n m then [] else [_]) = [] ↔ isMultiple n m = true
      cases isMultiple n m <;> simp
    | _ => exact iff_of_true rfl trivial
  | _ => cases value <;> exact iff_of_true rfl trivial

theorem minLength_iff :
    assertionFailures "minLength" value inst = [] ↔ Holds "minLength" value inst := by
  cases inst with
  | string s => exact belowLimit_eq_nil_iff
  | _ => exact iff_of_true rfl trivial

theorem maxLength_iff :
    assertionFailures "maxLength" value inst = [] ↔ Holds "maxLength" value inst := by
  cases inst with
  | string s => exact aboveLimit_eq_nil_iff
  | _ => exact iff_of_true rfl trivial

theorem minItems_iff :
    assertionFailures "minItems" value inst = [] ↔ Holds "minItems" value inst := by
  cases inst with
  | array items => exact belowLimit_eq_nil_iff
  | _ => exact iff_of_true rfl trivial

theorem maxItems_iff :
    assertionFailures "maxItems" value inst = [] ↔ Holds "maxItems" value inst := by
  cases inst with
  | array items => exact aboveLimit_eq_nil_iff
  | _ => exact iff_of_true rfl trivial

theorem minProperties_iff :
    assertionFailures "minProperties" value inst = [] ↔ Holds "minProperties" value inst := by
  cases inst with
  | object fields => exact belowLimit_eq_nil_iff
  | _ => exact iff_of_true rfl trivial

theorem maxProperties_iff :
    assertionFailures "maxProperties" value inst = [] ↔ Holds "maxProperties" value inst := by
  cases inst with
  | object fields => exact aboveLimit_eq_nil_iff
  | _ => exact iff_of_true rfl trivial

theorem uniqueItems_iff :
    assertionFailures "uniqueItems" value inst = [] ↔ Holds "uniqueItems" value inst := by
  cases inst with
  | array items =>
    cases value with
    | bool flag =>
      cases flag with
      | false => exact iff_of_true rfl trivial
      | true =>
        show (if Json.allDistinct items then [] else [_]) = [] ↔ Json.allDistinct items = true
        cases Json.allDistinct items <;> simp
    | _ => exact iff_of_true rfl trivial
  | _ =>
    cases value with
    | bool flag => cases flag <;> exact iff_of_true rfl trivial
    | _ => exact iff_of_true rfl trivial

theorem required_iff :
    assertionFailures "required" value inst = [] ↔ Holds "required" value inst := by
  cases inst with
  | object fields =>
    cases value with
    | array names =>
      show (missingNames names fields).map requiredMessage = [] ↔ _
      rw [List.map_eq_nil_iff, missingNames_eq_nil_iff]
      exact Iff.rfl
    | _ => exact iff_of_true rfl trivial
  | _ => cases value <;> exact iff_of_true rfl trivial

theorem pattern_iff : assertionFailures "pattern" value inst = [] ↔ Holds "pattern" value inst := by
  cases inst with
  | string s =>
    cases value with
    | string pattern =>
      show (if matchesPattern pattern s then [] else [_]) = [] ↔ matchesPattern pattern s = true
      cases matchesPattern pattern s <;> simp
    | _ => exact iff_of_true rfl trivial
  | _ => cases value <;> exact iff_of_true rfl trivial

theorem format_iff : assertionFailures "format" value inst = [] ↔ Holds "format" value inst := by
  cases inst with
  | string s =>
    cases value with
    | string name =>
      cases hname : Format.ofName? name with
      | none => simp [assertionFailures, Holds, hname]
      | some format => cases hs : format.holds s <;> simp [assertionFailures, Holds, hname, hs]
    | _ => exact iff_of_true rfl trivial
  | _ => cases value <;> exact iff_of_true rfl trivial

/-! ## All keywords -/

theorem failures_of_not_mem (h : keyword ∉ keywords) : assertionFailures keyword value inst = [] := by
  unfold assertionFailures
  split <;> first | rfl | exact absurd (by simp [keywords]) h

theorem holds_of_not_mem (h : keyword ∉ keywords) : Holds keyword value inst := by
  unfold Holds
  split <;> trivial

theorem failures_eq_nil_iff : assertionFailures keyword value inst = [] ↔ Holds keyword value inst := by
  by_cases h : keyword ∈ keywords
  · simp only [keywords, List.mem_cons, List.not_mem_nil, or_false] at h
    rcases h with rfl | rfl | rfl | rfl | rfl | rfl | rfl | rfl | rfl | rfl | rfl | rfl | rfl | rfl |
      rfl | rfl | rfl | rfl
    · exact type_iff
    · exact enum_iff
    · exact const_iff
    · exact minimum_iff
    · exact maximum_iff
    · exact exclusiveMinimum_iff
    · exact exclusiveMaximum_iff
    · exact multipleOf_iff
    · exact minLength_iff
    · exact maxLength_iff
    · exact minItems_iff
    · exact maxItems_iff
    · exact minProperties_iff
    · exact maxProperties_iff
    · exact uniqueItems_iff
    · exact required_iff
    · exact pattern_iff
    · exact format_iff
  · exact iff_of_true (failures_of_not_mem h) (holds_of_not_mem h)

end

end Assertion

end ApiContract
