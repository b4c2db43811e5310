import ApiContract.Proofs.Date.Moments
import ApiContract.Proofs.Json.Frame

/-! # Values without native dates

Conversion goes into the parts of what is no native date. It leaves none behind, makes none out of other
objects, and changes nothing else.

* `NativeDate.HasDate`, `NativeDate.IsDate`: the moments that there is a date for, and the objects that hold
  one and nothing else.
* `NativeDate.isDate_iff_exists_text`: the objects that are turned into texts.
* `NativeDate.isDate_convertFields_iff`: conversion of its fields makes no object a date, and keeps none
  from being one.
* `NativeDate.convert_of_dateless`: a value without dates stays as it is.
* `NativeDate.convert_completes`: no date is left, a second conversion changes nothing, and what is no date
  keeps its form. -/

set_option autoImplicit false

namespace ApiContract

/-! ## The last second -/

theorem daysOfMonths_add_lt {year month day : Nat} (hmonth : 1 ≤ month ∧ month ≤ 12)
    (hday : 1 ≤ day ∧ day ≤ daysOfMonth year month) :
    daysOfMonths year (month - 1) + (day - 1) < daysOfYear year := by
  obtain ⟨hlow, hhigh⟩ := hmonth
  rw [← daysOfMonths_february]
  cases hleap : isLeapYear year <;> interval_cases month <;>
    simp [daysOfMonths, daysOfMonth, hleap] at hday ⊢ <;> omega

theorem daysBeforeYear_mono {first second : Nat} (h : first ≤ second) :
    daysBeforeYear first ≤ daysBeforeYear second := by
  induction h with
  | refl => exact Nat.le_refl _
  | step _ ih => exact ih.trans (Nat.le_add_right _ _)

/-- The years up to one are those of the days before the next. -/
theorem Civil.IsValid.year_le_iff {date : Civil} (h : date.IsValid) {year : Nat} :
    date.year ≤ year ↔ date.dayNumber < daysBeforeYear (year + 1) := by
  have hin := daysOfMonths_add_lt h.month h.day
  have hnext : daysBeforeYear (date.year + 1) = daysBeforeYear date.year + daysOfYear date.year := rfl
  unfold Civil.dayNumber
  constructor
  · intro hle
    have := daysBeforeYear_mono (Nat.add_le_add_right hle 1)
    omega
  · intro hlt
    by_contra hnot
    have hle : year + 1 ≤ date.year := Nat.lt_of_not_le hnot
    have := daysBeforeYear_mono hle
    omega

namespace NativeDate

/-- The last second of the last year with dates. -/
def lastSecond : Nat := 8210266876799

/-- The last second by the days before the year behind the last one. Of that count only the closed form is
used: the years are too many to be counted one by one. -/
theorem lt_days_iff {days seconds : Nat}
    (hdays : days + lastYear / 100 = 365 * lastYear + 366 + lastYear / 4 + lastYear / 400) :
    Civil.epochOffset + 60 + seconds / 86400 < days ↔ seconds ≤ lastSecond := by
  simp only [lastYear, lastSecond, Civil.epochOffset] at hdays ⊢
  omega

theorem year_le_lastYear_iff {seconds : Nat} :
    (Civil.ofDays (seconds / 86400)).year ≤ lastYear ↔ seconds ≤ lastSecond := by
  have hstart : Civil.dayNumber ⟨1970, 1, 1⟩ = Civil.epochOffset + 60 := by decide +kernel
  rw [(Civil.isValid_ofDays _).year_le_iff, Civil.dayNumber_ofDays, hstart]
  exact lt_days_iff (daysBeforeYear_succ lastYear)

/-! ## Native dates -/

/-- There is a date for the moment that many seconds and nanoseconds after the start of 1970. A leap second
has a thousand milliseconds more, and is the last second of a minute. -/
structure HasDate (seconds nanoseconds : Nat) : Prop where
  seconds_le : seconds ≤ lastSecond
  nanoseconds_lt : nanoseconds < 2000000000
  leap : 1000000000 ≤ nanoseconds → seconds % 60 = 59

/-- An object of two fields, the seconds and the nanoseconds of a moment that there is a date for. -/
inductive IsDate : Json → Prop where
  | intro {fields : Fields} {seconds nanoseconds : Nat} (htwo : fields.length = 2)
    (hseconds : fields.get? "secs_since_epoch" = some (.ofNat seconds))
    (hnanoseconds : fields.get? "nanos_since_epoch" = some (.ofNat nanoseconds))
    (hdate : HasDate seconds nanoseconds) : IsDate (.object fields)

section

variable {seconds nanoseconds limit n : Nat} {value part : Json} {fields : Fields} {text : String}

theorem hasDate_iff : HasDate seconds nanoseconds ↔ ∃ text, render? seconds nanoseconds = some text := by
  rw [← Option.isSome_iff_exists, render?]
  have hyear := @year_le_lastYear_iff seconds
  constructor
  · rintro ⟨hseconds, hnanoseconds, hleap⟩
    have hlast := hyear.2 hseconds
    rw [if_neg]
    · rfl
    · simp only [Bool.or_eq_true, Bool.and_eq_true, decide_eq_true_eq, bne_iff_ne]
      omega
  · intro h
    split at h
    · cases h
    · rename_i hnone
      simp only [Bool.or_eq_true, Bool.and_eq_true, decide_eq_true_eq, bne_iff_ne] at hnone
      exact ⟨hyear.1 (by omega), by omega, by omega⟩

theorem natural?_eq_some_iff : natural? limit value = some n ↔ value = .ofNat n ∧ n < limit := by
  constructor
  · intro h
    unfold natural? at h
    split at h
    · rename_i m
      split at h
      · rename_i hrange
        cases h
        obtain ⟨k, rfl⟩ := Int.eq_ofNat_of_zero_le hrange.1
        exact ⟨rfl, by omega⟩
      · cases h
    · cases h
  · rintro ⟨rfl, hlt⟩
    rw [Json.ofNat, natural?, if_pos ⟨Int.natCast_nonneg n, Int.ofNat_lt.2 hlt⟩]
    rfl

theorem length_of_ofFields? (h : ofFields? fields = some text) : fields.length = 2 := by
  rw [ofFields?, Option.ite_none_left_eq_some] at h
  exact Decidable.not_not.1 h.1

theorem ofFields?_of_length (h : fields.length = 2) : ofFields? fields =
    (fields.get? "secs_since_epoch").bind fun seconds => (fields.get? "nanos_since_epoch").bind fun nanoseconds =>
      (natural? (Nat.pow 2 63) seconds).bind fun s => (natural? (Nat.pow 2 32) nanoseconds).bind (render? s) := by
  unfold ofFields?
  -- the limits are too large to be looked into
  generalize Nat.pow 2 63 = secondsLimit, Nat.pow 2 32 = nanosecondsLimit, render? = render
  rw [if_neg (not_not_intro h)]
  cases fields.get? "secs_since_epoch" with
  | none => rfl
  | some seconds =>
    cases fields.get? "nanos_since_epoch" with
    | none => rfl
    | some nanoseconds =>
      simp only [Option.bind_some]
      cases natural? secondsLimit seconds with
      | none => rfl
      | some s => cases natural? nanosecondsLimit nanoseconds <;> rfl

theorem IsDate.exists_text (h : IsDate (.object fields)) : ∃ text, ofFields? fields = some text := by
  obtain ⟨htwo, hseconds, hnanoseconds, hdate⟩ := h
  obtain ⟨text, htext⟩ := hasDate_iff.1 hdate
  have hsecondsLimit : lastSecond < Nat.pow 2 63 := by decide
  have hnanosecondsLimit : 2000000000 < Nat.pow 2 32 := by decide
  have hs := natural?_eq_some_iff.2 ⟨rfl, Nat.lt_of_le_of_lt hdate.seconds_le hsecondsLimit⟩
  have hn := natural?_eq_some_iff.2 ⟨rfl, Nat.lt_trans hdate.nanoseconds_lt hnanosecondsLimit⟩
  rw [ofFields?_of_length htwo, hseconds, hnanoseconds, Option.bind_some, Option.bind_some, hs, hn,
    Option.bind_some, Option.bind_some]
  exact ⟨text, htext⟩

/-- The native dates are the objects that have a text. -/
theorem isDate_iff_exists_text : IsDate (.object fields) ↔ ∃ text, ofFields? fields = some text := by
  refine ⟨IsDate.exists_text, ?_⟩
  rintro ⟨text, htext⟩
  obtain ⟨seconds, nanoseconds, _, _, _, _, hsget, hnget, hs, hn, hrender⟩ := render?_of_ofFields? htext
  rw [(natural?_eq_some_iff.1 hs).1] at hsget
  rw [(natural?_eq_some_iff.1 hn).1] at hnget
  exact .intro (length_of_ofFields? htext) hsget hnget (hasDate_iff.2 ⟨text, hrender⟩)

/-! ## Conversion -/

theorem convertItems_eq_map (items : List Json) : convertItems items = items.map convert := by
  induction items with
  | nil => rfl
  | cons item rest ih => rw [convertItems, List.map_cons, ih]

theorem convertFields_eq_map (fields : Fields) :
    convertFields fields = fields.map fun field => (field.1, convert field.2) := by
  induction fields with
  | nil => rfl
  | cons field rest ih => rw [convertFields, List.map_cons, ih]

theorem convert_of_isDate (h : IsDate (.object fields)) :
    ∃ text, ofFields? fields = some text ∧ convert (.object fields) = .string text := by
  obtain ⟨text, htext⟩ := isDate_iff_exists_text.1 h
  exact ⟨text, htext, by rw [convert, htext]⟩

theorem convert_of_not_isDate (h : ¬ IsDate (.object fields)) :
    convert (.object fields) = .object (convertFields fields) := by
  have hnone : ofFields? fields = none :=
    Option.eq_none_iff_forall_ne_some.2 fun text htext => h (isDate_iff_exists_text.2 ⟨text, htext⟩)
  rw [convert, hnone]

theorem convert_array (items : List Json) : convert (.array items) = .array (items.map convert) := by
  rw [convert, convertItems_eq_map]

/-- Conversion makes texts, but no numbers. -/
theorem convert_eq_ofNat_iff : convert value = .ofNat n ↔ value = .ofNat n := by
  cases value with
  | object fields =>
    refine iff_of_false (fun h => ?_) (fun h => by cases h)
    by_cases hdate : IsDate (.object fields)
    · obtain ⟨text, -, htext⟩ := convert_of_isDate hdate
      cases htext.symm.trans h
    · cases (convert_of_not_isDate hdate).symm.trans h
  | array items =>
    rw [convert]
    exact iff_of_false (fun h => by cases h) (fun h => by cases h)
  | _ => exact Iff.rfl

/-- An object is a native date whether or not its fields have been converted. -/
theorem isDate_convertFields_iff : IsDate (.object (convertFields fields)) ↔ IsDate (.object fields) := by
  have hget : ∀ key n, (convertFields fields).get? key = some (.ofNat n) ↔
      fields.get? key = some (.ofNat n) := by
    intro key n
    rw [convertFields_eq_map, Fields.get?_map fun _ => convert, Option.map_eq_some_iff]
    constructor
    · rintro ⟨value, hvalue, hconvert⟩
      rw [hvalue, convert_eq_ofNat_iff.1 hconvert]
    · exact fun h => ⟨_, h, convert_eq_ofNat_iff.2 rfl⟩
  have hlength : (convertFields fields).length = fields.length := by
    rw [convertFields_eq_map, List.length_map]
  constructor
  · rintro ⟨htwo, hseconds, hnanoseconds, hdate⟩
    exact ⟨hlength ▸ htwo, (hget _ _).1 hseconds, (hget _ _).1 hnanoseconds, hdate⟩
  · rintro ⟨htwo, hseconds, hnanoseconds, hdate⟩
    exact ⟨hlength.trans htwo, (hget _ _).2 hseconds, (hget _ _).2 hnanoseconds, hdate⟩

/-! ## Dates that are left -/

theorem not_isDate_of_plain (h : value.fields? = none) : ¬ IsDate value := by
  rintro ⟨⟩
  cases h

/-- No native date is left, at whatever depth. -/
theorem not_isDate_of_leads_convert {steps : List String} (h : (convert value).Leads steps part) :
    ¬ IsDate part := by
  induction value using Json.partsInduction generalizing steps part with
  | object fields ih =>
    by_cases hdate : IsDate (.object fields)
    · obtain ⟨text, -, htext⟩ := convert_of_isDate hdate
      rw [htext] at h
      cases h with
      | here => exact not_isDate_of_plain rfl
    · rw [convert_of_not_isDate hdate] at h
      cases h with
      | here => exact fun hpart => hdate (isDate_convertFields_iff.1 hpart)
      | member hmem h =>
        rw [convertFields_eq_map] at hmem
        obtain ⟨field, hfield, heq⟩ := List.mem_map.1 hmem
        cases heq
        exact ih field hfield h
  | array items ih =>
    rw [convert_array] at h
    cases h with
    | here => exact not_isDate_of_plain rfl
    | item hitem h =>
      obtain ⟨item, hmem, rfl⟩ := List.mem_map.1 (List.mem_of_getElem? hitem)
      exact ih item hmem h
  | plain value hobject hlist =>
    cases value with
    | object fields => exact absurd rfl (hobject fields)
    | array items => exact absurd rfl (hlist items)
    | _ =>
      cases h with
      | here => exact not_isDate_of_plain rfl

/-- A value without native dates stays as it is. -/
theorem convert_of_dateless (h : ∀ steps part, value.Leads steps part → ¬ IsDate part) :
    convert value = value := by
  induction value using Json.partsInduction with
  | object fields ih =>
    rw [convert_of_not_isDate (h [] _ (.here _)), convertFields_eq_map]
    have hsame : fields.map (fun field => (field.1, convert field.2)) = fields.map id := by
      refine List.map_congr_left fun field hfield => Prod.ext rfl ?_
      exact ih field hfield fun steps part hpart => h (field.1 :: steps) part (.member hfield hpart)
    rw [hsame, List.map_id]
  | array items ih =>
    have hsame : items.map convert = items.map id := by
      refine List.map_congr_left fun item hitem => ?_
      obtain ⟨i, hi⟩ := List.mem_iff_getElem?.1 hitem
      exact ih item hitem fun steps part hpart => h (naturalText i :: steps) part (.item hi hpart)
    rw [convert_array, hsame, List.map_id]
  | plain value hobject hlist =>
    cases value with
    | object fields => exact absurd rfl (hobject fields)
    | array items => exact absurd rfl (hlist items)
    | _ => rfl

theorem convert_convert (value : Json) : convert (convert value) = convert value :=
  convert_of_dateless fun _ _ => not_isDate_of_leads_convert

/-! ## What stays -/

/-- No native date stands around the place that the steps lead to. -/
def IsOutside (value : Json) (steps : List String) : Prop :=
  ∀ before behind part, steps = before ++ behind → behind ≠ [] → value.Leads before part → ¬ IsDate part

/-- What a node becomes: a native date its text, any other one a node of the same form. -/
inductive Converts : Json → Json → Prop where
  | date {fields : Fields} {text : String} (hdate : IsDate (.object fields))
    (htext : ofFields? fields = some text) : Converts (.object fields) (.string text)
  | other {node result : Json} (hdate : ¬ IsDate node) (hform : node.SameForm result) : Converts node result

theorem IsOutside.member {name : String} {steps : List String} (hmem : (name, value) ∈ fields)
    (h : IsOutside (.object fields) (name :: steps)) : IsOutside value steps :=
  fun before behind part heq hbehind hpart =>
    h (name :: before) behind part (by rw [heq, List.cons_append]) hbehind (.member hmem hpart)

theorem IsOutside.item {items : List Json} {i : Nat} {steps : List String} (hitem : items[i]? = some value)
    (h : IsOutside (.array items) (naturalText i :: steps)) : IsOutside value steps :=
  fun before behind part heq hbehind hpart =>
    h (naturalText i :: before) behind part (by rw [heq, List.cons_append]) hbehind (.item hitem hpart)

theorem converts_convert (node : Json) : Converts node (convert node) := by
  cases node with
  | object fields =>
    by_cases hdate : IsDate (.object fields)
    · obtain ⟨text, htext, hconvert⟩ := convert_of_isDate hdate
      rw [hconvert]
      exact .date hdate htext
    · rw [convert_of_not_isDate hdate, convertFields_eq_map]
      exact .other hdate (.object (by rw [List.map_map]; rfl))
  | array items =>
    rw [convert_array]
    exact .other (not_isDate_of_plain rfl) (.array (List.length_map _))
  | _ => exact .other (not_isDate_of_plain rfl) (.plain rfl rfl)

/-- A node that is not within a native date is converted in its place. -/
theorem leads_convert {steps : List String} {node : Json} (h : value.Leads steps node)
    (houtside : IsOutside value steps) : (convert value).Leads steps (convert node) := by
  induction h with
  | here value => exact .here _
  | @member fields name value part steps hmem _ ih =>
    have hnot : ¬ IsDate (.object fields) := houtside [] _ _ rfl (by simp) (.here _)
    rw [convert_of_not_isDate hnot, convertFields_eq_map]
    exact .member (List.mem_map.2 ⟨_, hmem, rfl⟩) (ih (houtside.member hmem))
  | @item items i value part steps hitem _ ih =>
    rw [convert_array]
    exact .item (by rw [List.getElem?_map, hitem]; rfl) (ih (houtside.item hitem))

end

/-- Conversion leaves no native date, converts nothing a second time, and keeps what it need not change: of
the nodes that are not within a native date, such a date becomes its text, and any other one keeps its place
and its form. -/
theorem convert_completes (value : Json) :
    (∀ steps part, (convert value).Leads steps part → ¬ IsDate part) ∧
      convert (convert value) = convert value ∧
      ∀ steps node, value.Leads steps node → IsOutside value steps →
        ∃ result, (convert value).Leads steps result ∧ Converts node result :=
  ⟨fun _ _ => not_isDate_of_leads_convert, convert_convert value,
    fun _ node h houtside => ⟨convert node, leads_convert h houtside, converts_convert node⟩⟩

/-- Half a day into the last of February 2020. -/
def leapDay : Json :=
  .object [("nanos_since_epoch", .ofNat 123456789), ("secs_since_epoch", .ofNat 1582979405)]

/-- An object with the names of a native date. Its seconds are a native date, so it is none itself. -/
def datedSeconds : Json := .object [("nanos_since_epoch", .ofNat 0), ("secs_since_epoch", leapDay)]

/-- Neither before nor after its seconds have been converted is the object a date. -/
theorem convert_completes_datedSeconds :
    datedSeconds.Leads ["secs_since_epoch"] leapDay ∧ IsOutside datedSeconds ["secs_since_epoch"] ∧
      (∀ steps part, (convert datedSeconds).Leads steps part → ¬ IsDate part) ∧
      ∃ result, (convert datedSeconds).Leads ["secs_since_epoch"] result ∧ Converts leapDay result := by
  have hleads : datedSeconds.Leads ["secs_since_epoch"] leapDay := .of_get? rfl
  have hnot : ¬ IsDate datedSeconds := by
    rintro ⟨-, hseconds, -, -⟩
    cases hseconds
  have houtside : IsOutside datedSeconds ["secs_since_epoch"] := by
    intro before behind part heq hbehind hpart
    cases before with
    | nil =>
      cases hpart
      exact hnot
    | cons step rest =>
      rw [List.cons_append, List.cons.injEq] at heq
      exact absurd (List.append_eq_nil_iff.1 heq.2.symm).2 hbehind
  obtain ⟨hnone, -, hkept⟩ := convert_completes datedSeconds
  exact ⟨hleads, houtside, hnone, hkept _ _ hleads houtside⟩

end NativeDate

end ApiContract
