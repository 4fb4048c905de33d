import Mathlib.Tactic

/-!
# The Gregorian calendar

Dates and day numbers, counted from 1970-01-01, the calendar extended to all years. A date carries
the proof that its month has that day.

* `number_ofNumber`: the date of a day number has that number.
* `number_lt_iff`: **the numbers are in the order of the dates.**
-/

namespace Calendar

def Leap (y : ℤ) : Prop := y % 4 = 0 ∧ (y % 100 ≠ 0 ∨ y % 400 = 0)

instance (y : ℤ) : Decidable (Leap y) := by
  unfold Leap
  infer_instance

/-- The number of days of a month. -/
def monthLength (y m : ℤ) : ℤ :=
  if m = 2 then if Leap y then 29 else 28
  else if m = 4 ∨ m = 6 ∨ m = 9 ∨ m = 11 then 30 else 31

/-- A year, month and day that the calendar has. -/
def Valid (y m d : ℤ) : Prop := 1 ≤ m ∧ m ≤ 12 ∧ 1 ≤ d ∧ d ≤ monthLength y m

instance (y m d : ℤ) : Decidable (Valid y m d) := by
  unfold Valid
  infer_instance

structure Date where
  year : ℤ
  month : ℤ
  day : ℤ
  valid : Valid year month day

theorem monthLength_range (y m : ℤ) : 28 ≤ monthLength y m ∧ monthLength y m ≤ 31 := by
  unfold monthLength
  split_ifs <;> omega

/-- The range of a month and of a day, whatever the year. -/
theorem Valid.range {y m d : ℤ} (h : Valid y m d) : (1 ≤ m ∧ m ≤ 12) ∧ 1 ≤ d ∧ d ≤ 31 := by
  obtain ⟨hm1, hm12, hd1, hd⟩ := h
  have hlen := (monthLength_range y m).2
  exact ⟨⟨hm1, hm12⟩, hd1, hd.trans hlen⟩

theorem february_le (y : ℤ) : monthLength y 2 ≤ 29 := by
  unfold monthLength
  split_ifs <;> omega

/-! ## Day numbers -/

/-- The months are counted from March, so that the leap day ends a year. -/
def marchMonth (m : ℤ) : ℤ := if m ≤ 2 then m + 9 else m - 3

/-- The year that began in March. -/
def marchYear (y m : ℤ) : ℤ := if m ≤ 2 then y - 1 else y

/-- The days from 1970-01-01 to the first of March of a year. -/
def yearStart (y : ℤ) : ℤ := 365 * y + y / 4 - y / 100 + y / 400 - 719468

/-- The days from the first of March to the first of a month. -/
def monthStart (mp : ℤ) : ℤ := (153 * mp + 2) / 5

/-- The number of a date. -/
def Date.number (x : Date) : ℤ :=
  yearStart (marchYear x.year x.month) + monthStart (marchMonth x.month) + (x.day - 1)

theorem yearStart_mono {y z : ℤ} (h : y ≤ z) : yearStart y ≤ yearStart z := by
  unfold yearStart
  omega

theorem yearStart_succ (y : ℤ) :
    yearStart (y + 1) = yearStart y + monthStart 11 + monthLength (y + 1) 2 := by
  unfold yearStart monthStart monthLength Leap
  split_ifs <;> omega

theorem monthStart_mono {a b : ℤ} (h : a ≤ b) : monthStart a ≤ monthStart b := by
  unfold monthStart
  omega

/-- A month but February ends where the next one starts. -/
theorem monthStart_succ (y : ℤ) {m : ℤ} (h1 : 1 ≤ m) (h12 : m ≤ 12) (h2 : m ≠ 2) :
    monthStart (marchMonth m + 1) = monthStart (marchMonth m) + monthLength y m := by
  unfold monthStart marchMonth monthLength
  interval_cases m <;> first | contradiction | rfl

variable {x y : Date}

theorem Date.marchMonth_range (x : Date) : 0 ≤ marchMonth x.month ∧ marchMonth x.month ≤ 11 := by
  obtain ⟨h1, h12, -, -⟩ := x.valid
  unfold marchMonth
  split_ifs <;> omega

/-- A date is before the end of its month. -/
theorem Date.number_lt_month (x : Date) (h : x.month ≠ 2) :
    x.number < yearStart (marchYear x.year x.month) + monthStart (marchMonth x.month + 1) := by
  obtain ⟨h1, h12, -, hd⟩ := x.valid
  have hnext := monthStart_succ x.year h1 h12 h
  unfold Date.number
  omega

/-- A date is before the end of its year. -/
theorem Date.number_lt_year (x : Date) : x.number < yearStart (marchYear x.year x.month + 1) := by
  obtain ⟨h1, h12, -, hd⟩ := x.valid
  have hsucc := yearStart_succ (marchYear x.year x.month)
  by_cases h : x.month = 2
  · have hyear : marchYear x.year x.month + 1 = x.year := by
      unfold marchYear
      omega
    have hmonth : marchMonth x.month = 11 := by rw [h]; rfl
    rw [hyear, ← h] at hsucc
    rw [hyear, hsucc, Date.number, hmonth]
    omega
  · have hlt := x.number_lt_month h
    have hmonth : monthStart (marchMonth x.month + 1) ≤ monthStart 11 := by
      refine monthStart_mono ?_
      unfold marchMonth
      split_ifs <;> omega
    have hlen := (monthLength_range (marchYear x.year x.month + 1) 2).1
    omega

theorem Date.le_number (x : Date) :
    yearStart (marchYear x.year x.month) + monthStart (marchMonth x.month) ≤ x.number := by
  obtain ⟨-, -, hd, -⟩ := x.valid
  unfold Date.number
  omega

/-! ## The order -/

/-- The order of the dates. -/
def Date.Before (x y : Date) : Prop :=
  x.year < y.year ∨ x.year = y.year ∧ (x.month < y.month ∨ x.month = y.month ∧ x.day < y.day)

theorem Date.number_lt (h : x.Before y) : x.number < y.number := by
  obtain ⟨hx1, hx12, -, -⟩ := x.valid
  obtain ⟨hy1, hy12, -, -⟩ := y.valid
  have hle := y.le_number
  have hstart : 0 ≤ monthStart (marchMonth y.month) := monthStart_mono y.marchMonth_range.1
  have hyear : marchYear x.year x.month ≤ marchYear y.year y.month := by
    unfold Date.Before at h
    unfold marchYear
    omega
  rcases lt_or_eq_of_le hyear with hlt | heq
  · have hmono : yearStart (marchYear x.year x.month + 1) ≤ yearStart (marchYear y.year y.month) :=
      yearStart_mono hlt
    have hend := x.number_lt_year
    omega
  · have hmonth : marchMonth x.month ≤ marchMonth y.month := by
      unfold Date.Before at h
      unfold marchYear at heq
      unfold marchMonth
      omega
    rcases lt_or_eq_of_le hmonth with hlt | heq'
    · -- February is the last month
      have h2 : x.month ≠ 2 := by
        intro h2
        have hrange := y.marchMonth_range
        rw [h2] at hlt
        unfold marchMonth at hlt hrange
        omega
      have hmono : monthStart (marchMonth x.month + 1) ≤ monthStart (marchMonth y.month) :=
        monthStart_mono hlt
      have hend := x.number_lt_month h2
      rw [heq] at hend
      omega
    · have hday : x.day < y.day := by
        unfold Date.Before at h
        unfold marchYear at heq
        unfold marchMonth at heq'
        omega
      rw [Date.number, Date.number, heq, heq']
      omega

/-- **The numbers are in the order of the dates.** -/
theorem number_lt_iff : x.number < y.number ↔ x.Before y := by
  refine ⟨fun h => ?_, Date.number_lt⟩
  by_contra hno
  have hafter : y.Before x ∨ x.year = y.year ∧ x.month = y.month ∧ x.day = y.day := by
    unfold Date.Before at hno ⊢
    omega
  rcases hafter with hlt | ⟨hy, hm, hd⟩
  · exact lt_asymm h (Date.number_lt hlt)
  · rw [Date.number, Date.number, hy, hm, hd] at h
    exact lt_irrefl _ h

/-! ## The date of a number -/

/-- The year of an era of 400 years that a day of it falls into. -/
def yearOfEra (doe : ℤ) : ℤ := (doe - doe / 1460 + doe / 36524 - doe / 146096) / 365

/-- The day of its year. -/
def dayOfYear (doe : ℤ) : ℤ := doe - (365 * yearOfEra doe + yearOfEra doe / 4 - yearOfEra doe / 100)

/-- A day of an era: the `s`-th of the `q`-th of the `k`-th four years of its `c`-th century. The last
day of four years is a leap day, as is that of the era. -/
theorem exists_cycles {doe : ℤ} (h0 : 0 ≤ doe) (h : doe < 146097) : ∃ c k q s : ℤ,
    doe = 36524 * c + 1461 * k + 365 * q + s ∧ 0 ≤ c ∧ c ≤ 3 ∧ 0 ≤ k ∧ k ≤ 24 ∧ 0 ≤ q ∧ q ≤ 3 ∧
      0 ≤ s ∧ s ≤ 365 ∧ (s = 365 → q = 3 ∧ (k = 24 → c = 3)) := by
  obtain ⟨c, hc⟩ : ∃ c, c = min (doe / 36524) 3 := ⟨_, rfl⟩
  obtain ⟨k, hk⟩ : ∃ k, k = (doe - 36524 * c) / 1461 := ⟨_, rfl⟩
  obtain ⟨q, hq⟩ : ∃ q, q = min ((doe - 36524 * c - 1461 * k) / 365) 3 := ⟨_, rfl⟩
  refine ⟨c, k, q, doe - 36524 * c - 1461 * k - 365 * q, ?_⟩
  omega

/-- The year of a day, by the cycles. -/
theorem yearOfEra_cycles {c k q s : ℤ} (hc0 : 0 ≤ c) (hc : c ≤ 3) (hk0 : 0 ≤ k) (hk : k ≤ 24)
    (hq0 : 0 ≤ q) (hq : q ≤ 3) (hs0 : 0 ≤ s) (hs : s ≤ 365)
    (hlast : s = 365 → q = 3 ∧ (k = 24 → c = 3)) :
    yearOfEra (36524 * c + 1461 * k + 365 * q + s) = 100 * c + 4 * k + q := by
  set doe := 36524 * c + 1461 * k + 365 * q + s with hdoe
  have hcentury : doe / 36524 - doe / 146096 = c := by interval_cases c <;> omega
  -- the leap days before it, but one too many when the leap day is near
  obtain ⟨u, hu⟩ : ∃ u, doe / 1460 = 25 * c + k + u := ⟨doe / 1460 - 25 * c - k, by omega⟩
  have hulo : 1460 * u ≤ 24 * c + k + 365 * q + s := by omega
  have huhi : 24 * c + k + 365 * q + s < 1460 * u + 1460 := by omega
  have hrest : doe - doe / 1460 + doe / 36524 - doe / 146096 =
      365 * (100 * c + 4 * k + q) + (s - u) := by
    omega
  have hlo : 0 ≤ s - u := by omega
  have hhi : s - u < 365 := by omega
  rw [yearOfEra, hrest]
  omega

theorem yearOfEra_range {doe : ℤ} (h0 : 0 ≤ doe) (h : doe < 146097) :
    0 ≤ yearOfEra doe ∧ yearOfEra doe < 400 := by
  unfold yearOfEra
  omega

/-- The day of the year, by the cycles. -/
theorem dayOfYear_range {doe : ℤ} (h0 : 0 ≤ doe) (h : doe < 146097) :
    0 ≤ dayOfYear doe ∧ dayOfYear doe < 337 + monthLength (yearOfEra doe + 1) 2 := by
  obtain ⟨c, k, q, s, hdoe, hc0, hc, hk0, hk, hq0, hq, hs0, hs, hlast⟩ := exists_cycles h0 h
  have hyear := yearOfEra_cycles hc0 hc hk0 hk hq0 hq hs0 hs hlast
  rw [← hdoe] at hyear
  have hday : dayOfYear doe = s := by
    have hfours : (100 * c + 4 * k + q) / 4 = 25 * c + k := by omega
    have hcentury : (100 * c + 4 * k + q) / 100 = c := by omega
    rw [dayOfYear, hyear, hfours, hcentury]
    omega
  rw [hday, hyear]
  refine ⟨hs0, ?_⟩
  by_cases h365 : s = 365
  · -- a leap day ends its four years, unless the century ends there and not the era
    obtain ⟨rfl, hend⟩ := hlast h365
    have hleap : Leap (100 * c + 4 * k + 3 + 1) := by
      unfold Leap
      omega
    have hlen : monthLength (100 * c + 4 * k + 3 + 1) 2 = 29 := by
      rw [monthLength, if_pos rfl, if_pos hleap]
    omega
  · have hlen := (monthLength_range (100 * c + 4 * k + q + 1) 2).1
    omega

/-- The month of a day of the year, counted from March. -/
def monthOfDay (doy : ℤ) : ℤ := (5 * doy + 2) / 153

/-- The month by its number in the year. -/
def monthNumber (mp : ℤ) : ℤ := if mp < 10 then mp + 3 else mp - 9

theorem monthOfDay_range {doy : ℤ} (h0 : 0 ≤ doy) (h : doy < 366) :
    0 ≤ monthOfDay doy ∧ monthOfDay doy ≤ 11 := by
  unfold monthOfDay
  omega

theorem marchMonth_monthNumber {mp : ℤ} (h0 : 0 ≤ mp) (h : mp ≤ 11) :
    marchMonth (monthNumber mp) = mp := by
  unfold marchMonth monthNumber
  split_ifs <;> omega

/-- A day of the year is a day of its month. -/
theorem valid_of_dayOfYear {y doy : ℤ} (h0 : 0 ≤ doy) (h : doy < 337 + monthLength (y + 1) 2) :
    Valid (y + if monthNumber (monthOfDay doy) ≤ 2 then 1 else 0) (monthNumber (monthOfDay doy))
      (doy - monthStart (monthOfDay doy) + 1) := by
  have hfeb := february_le (y + 1)
  obtain ⟨hmp0, hmp⟩ := monthOfDay_range h0 (by omega)
  obtain ⟨mp, hdef⟩ : ∃ mp, monthOfDay doy = mp := ⟨_, rfl⟩
  rw [hdef] at hmp0 hmp ⊢
  unfold monthOfDay at hdef
  unfold Valid monthStart monthNumber
  by_cases hlast : mp = 11
  · subst hlast
    refine ⟨by omega, by omega, by omega, ?_⟩
    have hday : doy - 337 + 1 ≤ monthLength (y + 1) 2 := by omega
    simpa using hday
  · unfold monthLength
    interval_cases mp <;> simp <;> omega

/-- The date of a day number. -/
def Date.ofNumber (n : ℤ) : Date :=
  let era := (n + 719468) / 146097
  let doe := (n + 719468) % 146097
  let month := monthNumber (monthOfDay (dayOfYear doe))
  { year := yearOfEra doe + era * 400 + if month ≤ 2 then 1 else 0
    month := month
    day := dayOfYear doe - monthStart (monthOfDay (dayOfYear doe)) + 1
    valid := by
      obtain ⟨h0, h⟩ := dayOfYear_range (show 0 ≤ (n + 719468) % 146097 by omega) (by omega)
      have hlen : monthLength (yearOfEra ((n + 719468) % 146097) + 1) 2 =
          monthLength (yearOfEra ((n + 719468) % 146097) + (n + 719468) / 146097 * 400 + 1) 2 := by
        unfold monthLength Leap
        split_ifs <;> omega
      rw [hlen] at h
      exact valid_of_dayOfYear h0 h }

/-- **The date of a day number has that number.** -/
theorem number_ofNumber (n : ℤ) : (Date.ofNumber n).number = n := by
  set doe := (n + 719468) % 146097 with hdoe
  set year := yearOfEra doe + (n + 719468) / 146097 * 400 with hyear
  set mp := monthOfDay (dayOfYear doe) with hmp
  have hdoe0 : 0 ≤ doe := by omega
  have hdoe1 : doe < 146097 := by omega
  obtain ⟨h0, h⟩ := dayOfYear_range hdoe0 hdoe1
  obtain ⟨hy0, hy⟩ := yearOfEra_range hdoe0 hdoe1
  have hfeb := february_le (yearOfEra doe + 1)
  obtain ⟨hmp0, hmp11⟩ := monthOfDay_range h0 (by omega)
  have hmarch : marchYear (year + if monthNumber mp ≤ 2 then 1 else 0) (monthNumber mp) = year := by
    unfold marchYear
    split_ifs <;> omega
  have hstart : yearStart year = n - dayOfYear doe := by
    unfold yearStart dayOfYear
    omega
  calc (Date.ofNumber n).number
      = yearStart (marchYear (year + if monthNumber mp ≤ 2 then 1 else 0) (monthNumber mp)) +
          monthStart (marchMonth (monthNumber mp)) + (dayOfYear doe - monthStart mp + 1 - 1) := rfl
    _ = yearStart year + monthStart mp + (dayOfYear doe - monthStart mp + 1 - 1) := by
        rw [hmarch, marchMonth_monthNumber hmp0 hmp11]
    _ = n := by omega

/-- The first day of a year. -/
def newYear (y : ℤ) : Date := ⟨y, 1, 1, by unfold Valid monthLength; simp⟩

/-- A day is in an earlier year exactly when it is before New Year. -/
theorem year_lt_iff {n y : ℤ} : (Date.ofNumber n).year < y ↔ n < (newYear y).number := by
  obtain ⟨hm, -, hd, -⟩ := (Date.ofNumber n).valid
  have hlt := number_lt_iff (x := Date.ofNumber n) (y := newYear y)
  rw [number_ofNumber] at hlt
  rw [hlt]
  simp only [Date.Before, newYear]
  omega

end Calendar
