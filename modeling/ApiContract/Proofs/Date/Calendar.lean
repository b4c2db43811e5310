import ApiContract.Format.Moment
import ApiContract.NativeDate
import Mathlib.Tactic.IntervalCases

/-! # Days of the calendar

The proleptic Gregorian calendar, by the lengths of its years and months: a date is counted from the first
of January of the year 0. The date of a day is found the other way round, with years that start in March.

* `daysBeforeYear`, `daysBeforeMonth`, `Civil.dayNumber`: the count of a date.
* `Civil.IsValid`: a date that the calendar has.
* `daysBeforeYear_succ`: the years before, in closed form.
* `MarchDay`: a day by century, leap cycle, year and day of a year that starts in March.
* `Civil.dayNumber_ofDays`, `Civil.isValid_ofDays`: the date of a day has the count of the day. -/

set_option autoImplicit false

namespace ApiContract

/-! ## Counting -/

def daysOfYear (year : Nat) : Nat := if isLeapYear year then 366 else 365

/-- The days of the years before one, from the year 0 on. -/
def daysBeforeYear : Nat → Nat
  | 0 => 0
  | year + 1 => daysBeforeYear year + daysOfYear year

/-- The days of the first months of a year. -/
def daysOfMonths (year : Nat) : Nat → Nat
  | 0 => 0
  | months + 1 => daysOfMonths year months + daysOfMonth year (months + 1)

namespace Civil

/-- The days before a date, from the first of January of the year 0 on. -/
def dayNumber (date : Civil) : Nat :=
  daysBeforeYear date.year + daysOfMonths date.year (date.month - 1) + (date.day - 1)

/-- The calendar has the date. -/
structure IsValid (date : Civil) : Prop where
  month : 1 ≤ date.month ∧ date.month ≤ 12
  day : 1 ≤ date.day ∧ date.day ≤ daysOfMonth date.year date.month

end Civil

/-! ## Years -/

theorem isLeapYear_iff {year : Nat} :
    isLeapYear year = true ↔ 4 ∣ year ∧ (100 ∣ year → 400 ∣ year) := by
  simp only [isLeapYear, Bool.and_eq_true, Bool.or_eq_true, beq_iff_eq, bne_iff_ne, Nat.dvd_iff_mod_eq_zero]
  omega

/-- Every fourth year has a day more, but of the centuries only every fourth. -/
theorem daysBeforeYear_succ (year : Nat) :
    daysBeforeYear (year + 1) + year / 100 = 365 * year + 366 + year / 4 + year / 400 := by
  induction year with
  | zero => rfl
  | succ year ih =>
    have hyear := @isLeapYear_iff (year + 1)
    rw [daysBeforeYear, daysOfYear]
    split
    · have := hyear.1 ‹_›
      omega
    · have := mt hyear.2 ‹_›
      omega

/-! ## Years that start in March -/

/-- A day within four centuries that start in March: the century, the leap cycle of four years in it, the
year of the cycle, and the day of the year. A year of 366 days is the last one of a cycle, and the last one
of a century only in the last century. -/
structure MarchDay where
  century : Nat
  leapCycle : Nat
  year : Nat
  day : Nat
  century_lt : century < 4 := by omega
  leapCycle_lt : leapCycle < 25 := by omega
  year_lt : year < 4 := by omega
  day_le : day ≤ 365 := by omega
  leap : day = 365 → year = 3 ∧ (leapCycle = 24 → century = 3) := by omega

namespace MarchDay

/-- The days before it. -/
def number (d : MarchDay) : Nat := 36524 * d.century + 1461 * d.leapCycle + 365 * d.year + d.day

def yearNumber (d : MarchDay) : Nat := 100 * d.century + 4 * d.leapCycle + d.year

theorem exists_number {n : Nat} (h : n < 146097) : ∃ d : MarchDay, d.number = n := by
  obtain ⟨c, r, hc, hr, hrest, rfl⟩ : ∃ c r, c < 4 ∧ r ≤ 36524 ∧ (c < 3 → r < 36524) ∧ n = 36524 * c + r := by
    by_cases hlast : n < 3 * 36524
    · exact ⟨n / 36524, n % 36524, by omega, by omega, by omega, by omega⟩
    · exact ⟨3, n - 3 * 36524, by omega, by omega, by omega, by omega⟩
  obtain ⟨q, t, hq, ht, rfl⟩ : ∃ q t, q < 25 ∧ t < 1461 ∧ r = 1461 * q + t :=
    ⟨r / 1461, r % 1461, by omega, by omega, by omega⟩
  by_cases hlast : t < 1095
  · exact ⟨⟨c, q, t / 365, t % 365, hc, hq, by omega, by omega, by omega⟩, by simp only [number]; omega⟩
  · exact ⟨⟨c, q, 3, t - 1095, hc, hq, by omega, by omega, by omega⟩, by simp only [number]; omega⟩

/-- The days of a cycle that are taken off before the rest is divided by 365 are the leap days before. -/
theorem yearNumber_eq (d : MarchDay) :
    (d.number - d.number / 1460 + d.number / 36524 - d.number / 146096) / 365 = d.yearNumber := by
  obtain ⟨c, q, y, i, hc, hq, hy, hi, hleap⟩ := d
  simp only [number, yearNumber]
  generalize hD : 36524 * c + 1461 * q + 365 * y + i = D
  -- one leap day more is taken off towards the end of a cycle
  obtain ⟨e, he⟩ : ∃ e, e = (24 * c + q + 365 * y + i) / 1460 := ⟨_, rfl⟩
  have hlow : 1460 * e ≤ 24 * c + q + 365 * y + i := by
    rw [he]
    exact Nat.mul_div_le _ _
  have hhigh : 24 * c + q + 365 * y + i < 1460 * e + 1460 := by
    rw [he]
    exact Nat.lt_mul_div_succ _ (by decide)
  have hcycles : D / 1460 = 25 * c + q + e := by
    have hsplit : D = 1460 * (25 * c + q) + (24 * c + q + 365 * y + i) := by omega
    rw [hsplit, Nat.mul_add_div (by decide), he]
  clear he
  by_cases hlast : i = 365 ∧ q = 24
  · obtain ⟨rfl, rfl⟩ := hlast
    obtain ⟨rfl, hcentury⟩ := hleap rfl
    cases hcentury rfl
    cases hD
    rfl
  · have hcenturies : D / 36524 = c := Nat.div_eq_of_lt_le (by omega) (by omega)
    have hnone : D / 146096 = 0 := Nat.div_eq_of_lt (by omega)
    have hrest : D - D / 1460 + D / 36524 - D / 146096 = 365 * (100 * c + 4 * q + y) + (i - e) := by
      rw [hcycles, hcenturies, hnone]
      omega
    rw [hrest, Nat.mul_add_div (by decide), Nat.div_eq_of_lt (by omega), Nat.add_zero]

end MarchDay

/-! ## Months -/

theorem daysOfMonths_february (year : Nat) : daysOfMonths year 2 + 306 = daysOfYear year := by
  simp only [daysOfMonths, daysOfMonth, daysOfYear]
  cases isLeapYear year <;> rfl

/-- The days of the first months of a year that starts in March. -/
def daysFromMarch (months : Nat) : Nat := (153 * months + 2) / 5

section

variable {year m i : Nat}

theorem daysOfMonths_fromMarch (h : m < 10) :
    daysOfMonths year (m + 2) + 306 = daysOfYear year + daysFromMarch m ∧
      daysFromMarch m + daysOfMonth year (m + 3) = daysFromMarch (m + 1) := by
  rw [← daysOfMonths_february]
  interval_cases m <;> simp [daysOfMonths, daysOfMonth, daysFromMarch]

theorem daysOfMonths_untilMarch (h : 10 ≤ m) (hm : m ≤ 11) :
    daysOfMonths year (m - 10) + 306 = daysFromMarch m ∧
      (m = 10 → daysFromMarch m + daysOfMonth year (m - 9) = daysFromMarch (m + 1)) ∧
      (m = 11 → daysFromMarch m + daysOfMonth year (m - 9) = daysOfYear year) := by
  interval_cases m
  · simp [daysOfMonths, daysOfMonth, daysFromMarch]
  · simp only [daysOfMonths, daysOfMonth, daysFromMarch, daysOfYear]
    cases isLeapYear year <;> simp

/-- The month in which a day of a year that starts in March is. -/
theorem month_of_day (hi : i ≤ 365) : (5 * i + 2) / 153 ≤ 11 ∧ daysFromMarch ((5 * i + 2) / 153) ≤ i ∧
    i < daysFromMarch ((5 * i + 2) / 153 + 1) := by
  simp only [daysFromMarch]
  refine ⟨by omega, by omega, by omega⟩

end

/-! ## Dates of days -/

namespace MarchDay

variable (d : MarchDay) (cycle : Nat)

/-- The year that ends with the February of the day, or the one that starts in the January before it. -/
def civilYear : Nat := d.yearNumber + 400 * cycle

theorem day_lt : d.day < daysOfYear (d.civilYear cycle + 1) := by
  by_cases hlast : d.day = 365
  · obtain ⟨hyear, hcentury⟩ := d.leap hlast
    have hleap : isLeapYear (d.civilYear cycle + 1) = true := by
      have := d.leapCycle_lt
      rw [isLeapYear_iff, civilYear, yearNumber]
      omega
    rw [daysOfYear, if_pos hleap]
    omega
  · have := d.day_le
    unfold daysOfYear
    split <;> omega

theorem daysBeforeYear_civilYear :
    daysBeforeYear (d.civilYear cycle + 1) + d.day = 146097 * cycle + d.number + 366 := by
  obtain ⟨c, q, y, i, hc, hq, hy, hi, hleap⟩ := d
  have hyears := daysBeforeYear_succ (100 * c + 4 * q + y + 400 * cycle)
  have hcycles : (100 * c + 4 * q + y + 400 * cycle) / 4 = 25 * c + q + 100 * cycle := by omega
  have hcenturies : (100 * c + 4 * q + y + 400 * cycle) / 100 = c + 4 * cycle := by omega
  have hrounds : (100 * c + 4 * q + y + 400 * cycle) / 400 = cycle := by omega
  rw [hcycles, hcenturies, hrounds] at hyears
  simp only [civilYear, yearNumber, number]
  omega

/-- The date of a day, from the month of the year that starts in March. -/
def civil : Civil :=
  let month := (5 * d.day + 2) / 153
  let day := d.day - daysFromMarch month + 1
  if month < 10 then ⟨d.civilYear cycle, month + 3, day⟩ else ⟨d.civilYear cycle + 1, month - 9, day⟩

theorem dayNumber_civil : (d.civil cycle).dayNumber = 146097 * cycle + d.number + 60 := by
  have hyears := d.daysBeforeYear_civilYear cycle
  obtain ⟨hm, hlow, -⟩ := month_of_day d.day_le
  simp only [civil]
  generalize (5 * d.day + 2) / 153 = m at hm hlow
  split
  · obtain ⟨hmonths, -⟩ := @daysOfMonths_fromMarch (d.civilYear cycle) m ‹_›
    simp only [Civil.dayNumber, Nat.add_sub_cancel]
    rw [daysBeforeYear] at hyears
    have hmonth : m + 3 - 1 = m + 2 := rfl
    rw [hmonth]
    omega
  · obtain ⟨hmonths, -⟩ :=
      @daysOfMonths_untilMarch (d.civilYear cycle + 1) m (by omega) hm
    have hmonth : m - 9 - 1 = m - 10 := by omega
    simp only [Civil.dayNumber, Nat.add_sub_cancel, hmonth]
    omega

theorem isValid_civil : (d.civil cycle).IsValid := by
  obtain ⟨hm, hlow, hhigh⟩ := month_of_day d.day_le
  have hday := d.day_lt cycle
  simp only [civil]
  generalize (5 * d.day + 2) / 153 = m at hm hlow hhigh
  split
  · obtain ⟨-, hlength⟩ := @daysOfMonths_fromMarch (d.civilYear cycle) m ‹_›
    exact ⟨by dsimp only; omega, by dsimp only; omega⟩
  · obtain ⟨-, hten, heleven⟩ :=
      @daysOfMonths_untilMarch (d.civilYear cycle + 1) m (by omega) hm
    refine ⟨by dsimp only; omega, by dsimp only; omega, ?_⟩
    dsimp only
    rcases Nat.lt_or_eq_of_le hm with hlt | rfl
    · obtain rfl : m = 10 := by omega
      have := hten rfl
      omega
    · have := heleven rfl
      omega

end MarchDay

namespace Civil

theorem exists_marchDay (days : Nat) : ∃ (d : MarchDay) (cycle : Nat),
    days + epochOffset = 146097 * cycle + d.number ∧ ofDays days = d.civil cycle := by
  obtain ⟨d, hd⟩ := MarchDay.exists_number (Nat.mod_lt (days + epochOffset) (by decide : 0 < 146097))
  refine ⟨d, (days + epochOffset) / 146097, by rw [hd, Nat.div_add_mod], ?_⟩
  have hinYear : d.number - (365 * d.yearNumber + d.yearNumber / 4 - d.yearNumber / 100) = d.day := by
    obtain ⟨c, q, y, i, hc, hq, hy, hi, hleap⟩ := d
    have hcycles : (100 * c + 4 * q + y) / 4 = 25 * c + q := by omega
    have hcenturies : (100 * c + 4 * q + y) / 100 = c := by omega
    simp only [MarchDay.number, MarchDay.yearNumber, hcycles, hcenturies]
    omega
  obtain ⟨hm, -⟩ := month_of_day d.day_le
  simp only [ofDays, ← hd, d.yearNumber_eq, hinYear, MarchDay.civil, MarchDay.civilYear, daysFromMarch]
  split
  · rw [if_neg (by omega)]
  · rw [if_pos (by omega)]

/-- The date of a day that is counted from the start of 1970. -/
theorem dayNumber_ofDays (days : Nat) : (ofDays days).dayNumber = dayNumber ⟨1970, 1, 1⟩ + days := by
  obtain ⟨d, cycle, hdays, hdate⟩ := exists_marchDay days
  have hstart : dayNumber ⟨1970, 1, 1⟩ = epochOffset + 60 := by decide +kernel
  rw [hdate, d.dayNumber_civil, hstart]
  omega

theorem isValid_ofDays (days : Nat) : (ofDays days).IsValid := by
  obtain ⟨d, cycle, -, hdate⟩ := exists_marchDay days
  rw [hdate]
  exact d.isValid_civil cycle

end Civil

end ApiContract
