import ApiContract.Proofs.Date.Calendar
import ApiContract.Proofs.Json.Pointers
import ApiContract.Proofs.Number.Numerals

/-! # Moments that are written and read

A native date is written as a date of the calendar and a time of day. Read back, the text gives the moment,
up to the nanoseconds within a millisecond.

* `Moment`, `Moment.IsValid`, `Moment.sinceEpoch`: a date with a time of day, and its count.
* `Moment.IsWritten`: a text of a moment, by its parts; `Moment.read?` reads such texts.
* `fixedDigits?_padded`, `isYear_yearText`: padded numbers are read back.
* `Moment.read?_of_isWritten`: no other moment has the text.
* `Moment.isWritten_text`: padded numbers, put together.
* `NativeDate.convert_reads_back`: the text of a native date. -/

set_option autoImplicit false

namespace ApiContract

/-- A date and a time of day. -/
structure Moment where
  date : Civil
  hour : Nat
  minute : Nat
  second : Nat
  millisecond : Nat
deriving DecidableEq, Repr

instance (date : Civil) : Decidable date.IsValid :=
  decidable_of_iff ((1 ≤ date.month ∧ date.month ≤ 12) ∧ 1 ≤ date.day ∧
    date.day ≤ daysOfMonth date.year date.month) ⟨fun h => ⟨h.1, h.2⟩, fun h => ⟨h.month, h.day⟩⟩

namespace Moment

structure IsValid (moment : Moment) : Prop where
  date : moment.date.IsValid
  hour : moment.hour < 24
  minute : moment.minute < 60
  second : moment.second < 60
  millisecond : moment.millisecond < 1000

instance (moment : Moment) : Decidable moment.IsValid :=
  decidable_of_iff (moment.date.IsValid ∧ moment.hour < 24 ∧ moment.minute < 60 ∧ moment.second < 60 ∧
      moment.millisecond < 1000)
    ⟨fun ⟨h1, h2, h3, h4, h5⟩ => ⟨h1, h2, h3, h4, h5⟩, fun ⟨h1, h2, h3, h4, h5⟩ => ⟨h1, h2, h3, h4, h5⟩⟩

/-- The milliseconds since the start of 1970. -/
def sinceEpoch (moment : Moment) : Int :=
  ((moment.date.dayNumber : Int) - Civil.dayNumber ⟨1970, 1, 1⟩) * 86400000 +
    ((moment.hour * 60 + moment.minute) * 60 + moment.second) * 1000 + moment.millisecond

end Moment

/-! ## Texts of moments -/

/-- The text of a year: four digits up to 9999, a plus sign and all digits above. -/
inductive IsYear : List Char → Nat → Prop where
  | four {text : List Char} {year : Nat} (h : fixedDigits? 4 text = some year) : IsYear text year
  | signed {digits : List Char} {year : Nat} (hyear : 9999 < year)
    (hzero : digits.head? ≠ some '0') (h : fixedDigits? digits.length digits = some year) :
    IsYear ('+' :: digits) year

def readYear? : List Char → Option Nat
  | '+' :: digits =>
    if digits.head? = some '0' then none
    else (fixedDigits? digits.length digits).filter (9999 < ·)
  | text => fixedDigits? 4 text

namespace Moment

/-- A text like `2020-01-01T00:00:00.123Z`, with the numbers of a moment. -/
structure IsWritten (moment : Moment) (text : String) : Prop where
  parts : ∃ year month day hour minute second fraction : List Char,
    text.toList = year ++ '-' :: (month ++ '-' :: (day ++ 'T' :: (hour ++ ':' :: (minute ++ ':' ::
      (second ++ '.' :: (fraction ++ ['Z'])))))) ∧
    IsYear year moment.date.year ∧ fixedDigits? 2 month = some moment.date.month ∧
    fixedDigits? 2 day = some moment.date.day ∧ fixedDigits? 2 hour = some moment.hour ∧
    fixedDigits? 2 minute = some moment.minute ∧ fixedDigits? 2 second = some moment.second ∧
    fixedDigits? 3 fraction = some moment.millisecond

/-- The moment of a text, if it is valid. -/
def read? (text : String) : Option Moment :=
  match text.toList.splitOn 'T' with
  | [date, time] =>
    match date.splitOn '-', time.splitOn ':' with
    | [year, month, day], [hour, minute, rest] =>
      match rest.splitOn '.' with
      | [second, fraction] => do
        let date : Civil := ⟨← readYear? year, ← fixedDigits? 2 month, ← fixedDigits? 2 day⟩
        let moment : Moment := ⟨date, ← fixedDigits? 2 hour, ← fixedDigits? 2 minute,
          ← fixedDigits? 2 second, ← fixedDigits? 3 fraction.dropLast⟩
        if fraction.getLast? = some 'Z' ∧ moment.IsValid then some moment else none
      | _ => none
    | _, _ => none
  | _ => none

end Moment

/-! ## Digits -/

section

variable {width n : Nat} {text : List Char}

theorem fixedDigits?_eq_some_iff : fixedDigits? width text = some n ↔
    text.length = width ∧ (∀ c ∈ text, isDigit c = true) ∧ decimalValue text = n := by
  simp only [fixedDigits?, Option.ite_none_right_eq_some, Bool.and_eq_true, decide_eq_true_eq, List.all_eq_true,
    Option.some.injEq, and_assoc]

theorem fixedDigits?_padded (hwidth : 0 < width) (h : n < 10 ^ width) :
    fixedDigits? width (NativeDate.padded width n).toList = some n := by
  have hlength : (Nat.toDigits 10 n).length ≤ width := (Nat.length_toDigits_le_iff (by decide) hwidth).2 h
  rw [NativeDate.padded, String.toList_ofList, fixedDigits?_eq_some_iff]
  refine ⟨by simp; omega, fun c hc => ?_, by rw [decimalValue_zeros, decimalValue_toDigits]⟩
  rcases List.mem_append.1 hc with hc | hc
  · rw [List.eq_of_mem_replicate hc]
    rfl
  · exact isDigit_of_mem_toDigits hc

theorem head?_toDigits_ne_zero (h : 0 < n) : (Nat.toDigits 10 n).head? ≠ some '0' := by
  induction n using Nat.strongRecOn with
  | ind n ih =>
    by_cases hsmall : n < 10
    · rw [Nat.toDigits_of_lt_base hsmall]
      interval_cases n <;> decide
    · have hrest := ih (n / 10) (by omega) (by omega)
      rw [Nat.toDigits_of_base_le (by decide) (by omega), List.head?_append]
      cases hhead : (Nat.toDigits 10 (n / 10)).head? with
      | none => exact absurd (List.head?_eq_none_iff.1 hhead) Nat.toDigits_ne_nil
      | some c => rwa [hhead] at hrest

theorem isYear_yearText (year : Nat) : IsYear (NativeDate.yearText year).toList year := by
  unfold NativeDate.yearText
  split
  · exact .four (fixedDigits?_padded (by decide) (by omega))
  · have htext : ("+" ++ naturalText year).toList = '+' :: Nat.toDigits 10 year := by
      simp [naturalText]
    rw [htext]
    refine .signed (by omega) (head?_toDigits_ne_zero (by omega)) ?_
    exact fixedDigits?_eq_some_iff.2 ⟨rfl, fun c => isDigit_of_mem_toDigits, decimalValue_toDigits year⟩

theorem readYear?_of_isYear {year : Nat} (h : IsYear text year) : readYear? text = some year := by
  cases h with
  | four h =>
    unfold readYear?
    split
    · rename_i digits
      have := (fixedDigits?_eq_some_iff.1 h).2.1 '+' (List.mem_cons_self ..)
      cases this
    · exact h
  | signed hyear hzero h => simp only [readYear?, hzero, if_false, h, Option.filter_some,
      decide_eq_true hyear, if_true]

end

/-! ## Reading back -/

section

variable {mark : Char} {front middle back text : List Char} {width n : Nat}

theorem splitOn_two (hfront : mark ∉ front) (hback : mark ∉ back) :
    (front ++ mark :: back).splitOn mark = [front, back] := by
  rw [List.splitOn_append_cons_self, List.splitOn_eq_singleton hfront, List.splitOn_eq_singleton hback]
  rfl

theorem splitOn_three (hfront : mark ∉ front) (hmiddle : mark ∉ middle) (hback : mark ∉ back) :
    (front ++ mark :: (middle ++ mark :: back)).splitOn mark = [front, middle, back] := by
  rw [List.splitOn_append_cons_self, List.splitOn_eq_singleton hfront, splitOn_two hmiddle hback]
  rfl

theorem not_mem_of_fixedDigits? (h : fixedDigits? width text = some n) (hmark : isDigit mark = false) :
    mark ∉ text := by
  intro hmem
  rw [(fixedDigits?_eq_some_iff.1 h).2.1 mark hmem] at hmark
  cases hmark

theorem not_mem_of_isYear {year : Nat} (h : IsYear text year) (hmark : isDigit mark = false)
    (hplus : mark ≠ '+') : mark ∉ text := by
  cases h with
  | four h => exact not_mem_of_fixedDigits? h hmark
  | signed _ _ h => simp [hplus, not_mem_of_fixedDigits? h hmark]

end

/-- A text of a moment is read as this moment. -/
theorem Moment.read?_of_isWritten {moment : Moment} {text : String} (hvalid : moment.IsValid)
    (h : moment.IsWritten text) : Moment.read? text = some moment := by
  obtain ⟨year, month, day, hour, minute, second, fraction, htext, hyear, hmonth, hday, hhour, hminute,
    hsecond, hfraction⟩ := h.parts
  have hnone : ∀ (mark : Char), isDigit mark = false → mark ≠ '+' →
      mark ∉ year ∧ mark ∉ month ∧ mark ∉ day ∧ mark ∉ hour ∧ mark ∉ minute ∧ mark ∉ second ∧ mark ∉ fraction :=
    fun mark hmark hplus => ⟨not_mem_of_isYear hyear hmark hplus, not_mem_of_fixedDigits? hmonth hmark,
      not_mem_of_fixedDigits? hday hmark, not_mem_of_fixedDigits? hhour hmark,
      not_mem_of_fixedDigits? hminute hmark, not_mem_of_fixedDigits? hsecond hmark,
      not_mem_of_fixedDigits? hfraction hmark⟩
  have hmoment : text.toList.splitOn 'T' = [year ++ '-' :: (month ++ '-' :: day),
      hour ++ ':' :: (minute ++ ':' :: (second ++ '.' :: (fraction ++ ['Z'])))] := by
    have happend : text.toList = (year ++ '-' :: (month ++ '-' :: day)) ++
        'T' :: (hour ++ ':' :: (minute ++ ':' :: (second ++ '.' :: (fraction ++ ['Z'])))) := by
      simp [htext]
    have hmark := hnone 'T' rfl (by decide)
    rw [happend, splitOn_two] <;> simp [hmark]
  have hdate : (year ++ '-' :: (month ++ '-' :: day)).splitOn '-' = [year, month, day] := by
    have hmark := hnone '-' rfl (by decide)
    exact splitOn_three hmark.1 hmark.2.1 hmark.2.2.1
  have htime : (hour ++ ':' :: (minute ++ ':' :: (second ++ '.' :: (fraction ++ ['Z'])))).splitOn ':' =
      [hour, minute, second ++ '.' :: (fraction ++ ['Z'])] := by
    have hmark := hnone ':' rfl (by decide)
    apply splitOn_three <;> simp [hmark]
  have hrest : (second ++ '.' :: (fraction ++ ['Z'])).splitOn '.' = [second, fraction ++ ['Z']] := by
    have hmark := hnone '.' rfl (by decide)
    apply splitOn_two <;> simp [hmark]
  simp [Moment.read?, hmoment, hdate, htime, hrest, readYear?_of_isYear hyear, hmonth, hday, hhour,
    hminute, hsecond, hfraction, hvalid]

/-! ## Writing -/

theorem daysOfMonth_le (year month : Nat) : daysOfMonth year month ≤ 31 := by
  unfold daysOfMonth
  split_ifs <;> decide

namespace Moment

/-- The text of a moment, its numbers padded. -/
def text (moment : Moment) : String :=
  NativeDate.yearText moment.date.year ++ "-" ++ NativeDate.padded 2 moment.date.month ++ "-" ++
    NativeDate.padded 2 moment.date.day ++ "T" ++ NativeDate.padded 2 moment.hour ++ ":" ++
    NativeDate.padded 2 moment.minute ++ ":" ++ NativeDate.padded 2 moment.second ++ "." ++
    NativeDate.padded 3 moment.millisecond ++ "Z"

theorem isWritten_text {moment : Moment} (h : moment.IsValid) : moment.IsWritten moment.text := by
  have hmonth := h.date.month
  have hday := h.date.day
  have hlast := daysOfMonth_le moment.date.year moment.date.month
  have hhour := h.hour
  have hminute := h.minute
  have hsecond := h.second
  refine ⟨_, _, _, _, _, _, _, ?_, isYear_yearText _, fixedDigits?_padded (by decide) (by omega),
    fixedDigits?_padded (by decide) (by omega), fixedDigits?_padded (by decide) (by omega),
    fixedDigits?_padded (by decide) (by omega), fixedDigits?_padded (by decide) (by omega),
    fixedDigits?_padded (by decide) h.millisecond⟩
  simp [text]

end Moment

/-! ## Native dates -/

namespace NativeDate

/-- The moment that many seconds and nanoseconds after the start of 1970. -/
def momentOf (seconds nanoseconds : Nat) : Moment :=
  ⟨Civil.ofDays (seconds / 86400), seconds % 86400 / 3600, seconds % 86400 / 60 % 60, seconds % 86400 % 60,
    nanoseconds / 1000000⟩

variable {seconds nanoseconds : Nat} {text : String}

theorem isValid_momentOf (h : nanoseconds < 1000000000) : (momentOf seconds nanoseconds).IsValid where
  date := Civil.isValid_ofDays _
  hour := by simp only [momentOf]; omega
  minute := by simp only [momentOf]; omega
  second := by simp only [momentOf]; omega
  millisecond := by simp only [momentOf]; omega

theorem sinceEpoch_momentOf (seconds nanoseconds : Nat) :
    (momentOf seconds nanoseconds).sinceEpoch = seconds * 1000 + nanoseconds / 1000000 := by
  simp only [Moment.sinceEpoch, momentOf, Civil.dayNumber_ofDays]
  push_cast
  omega

/-- There is no leap second, so nothing is carried over from the nanoseconds. -/
theorem eq_text_of_render? (h : nanoseconds < 1000000000) (hrender : render? seconds nanoseconds = some text) :
    text = (momentOf seconds nanoseconds).text := by
  rw [render?, Option.ite_none_left_eq_some] at hrender
  have hcarry : nanoseconds / 1000000000 = 0 := Nat.div_eq_of_lt h
  have hwhole : nanoseconds % 1000000000 = nanoseconds := Nat.mod_eq_of_lt h
  rw [hcarry, hwhole] at hrender
  exact (Option.some.inj hrender.2).symm

theorem natural?_ofNat {limit n m : Nat} (h : natural? limit (.ofNat n) = some m) : m = n := by
  simp only [natural?, Json.ofNat] at h
  split at h
  · simpa using h.symm
  · cases h

theorem render?_of_ofFields? {fields : Fields} (h : ofFields? fields = some text) :
    ∃ seconds nanoseconds secondsGiven nanosecondsGiven secondsLimit nanosecondsLimit,
      fields.get? "secs_since_epoch" = some secondsGiven ∧
      fields.get? "nanos_since_epoch" = some nanosecondsGiven ∧
      natural? secondsLimit secondsGiven = some seconds ∧
      natural? nanosecondsLimit nanosecondsGiven = some nanoseconds ∧
        render? seconds nanoseconds = some text := by
  unfold ofFields? at h
  -- the limits are too large to be looked into
  generalize Nat.pow 2 63 = secondsLimit, Nat.pow 2 32 = nanosecondsLimit at h
  split at h
  · cases h
  · split at h
    · rename_i secondsGiven nanosecondsGiven hseconds hnanoseconds
      split at h
      · rename_i s n hs hn
        exact ⟨s, n, secondsGiven, nanosecondsGiven, secondsLimit, nanosecondsLimit, hseconds, hnanoseconds,
          hs, hn, h⟩
      · cases h
    · cases h

theorem render?_of_convert {fields : Fields} (hseconds : fields.get? "secs_since_epoch" = some (.ofNat seconds))
    (hnanoseconds : fields.get? "nanos_since_epoch" = some (.ofNat nanoseconds))
    (h : convert (.object fields) = .string text) : render? seconds nanoseconds = some text := by
  rw [convert] at h
  split at h
  · rename_i given hgiven
    obtain ⟨s, n, _, _, _, _, hsget, hnget, hs, hn, hrender⟩ := render?_of_ofFields? hgiven
    rw [hseconds] at hsget
    rw [hnanoseconds] at hnget
    cases hsget
    cases hnget
    rw [natural?_ofNat hs, natural?_ofNat hn] at hrender
    rwa [← Json.string.inj h]
  · cases h

/-- A native date becomes a text of the date and the time of day of its moment. Read back, the text gives
the milliseconds since the start of 1970. -/
theorem convert_reads_back {fields : Fields} (hseconds : fields.get? "secs_since_epoch" = some (.ofNat seconds))
    (hnanoseconds : fields.get? "nanos_since_epoch" = some (.ofNat nanoseconds)) (h : nanoseconds < 1000000000)
    (htext : convert (.object fields) = .string text) :
    ∃ moment : Moment, moment.IsWritten text ∧ moment.IsValid ∧ Moment.read? text = some moment ∧
      moment.sinceEpoch = seconds * 1000 + nanoseconds / 1000000 := by
  have hvalid : (momentOf seconds nanoseconds).IsValid := isValid_momentOf h
  have hwritten := Moment.isWritten_text hvalid
  rw [← eq_text_of_render? h (render?_of_convert hseconds hnanoseconds htext)] at hwritten
  exact ⟨momentOf seconds nanoseconds, hwritten, hvalid, Moment.read?_of_isWritten hvalid hwritten,
    sinceEpoch_momentOf seconds nanoseconds⟩

theorem convert_reads_back_of_leap_day : ∃ moment : Moment,
    moment.IsWritten "2020-02-29T12:30:05.123Z" ∧ moment.IsValid ∧
      Moment.read? "2020-02-29T12:30:05.123Z" = some moment ∧
      moment.sinceEpoch = (1582979405 : Nat) * 1000 + (123456789 : Nat) / 1000000 :=
  have hfields : ofFields? [("nanos_since_epoch", .ofNat 123456789), ("secs_since_epoch", .ofNat 1582979405)] =
      some "2020-02-29T12:30:05.123Z" := by decide +kernel
  convert_reads_back rfl rfl (by decide) (by rw [convert, hfields])

end NativeDate

end ApiContract
