import Mathlib.Tactic.IntervalCases
import Mathlib.Tactic.Lemma
import Stencil.Calendar

/-!
# The calendar

Day numbers count the days of the Gregorian calendar. Main statement: `Date.ofDays_succ`, the date of
the next number is the next date; with `Date.ofDays_zero` this gives all dates. The years of four
digits are those of `Date.year_ofDays`.
-/

namespace Stencil

namespace Date

/-- Every fourth year, save the centuries that are not the fourth. -/
def IsLeap (year : Int) : Prop := year % 4 = 0 ∧ (year % 100 ≠ 0 ∨ year % 400 = 0)

instance (year : Int) : Decidable (IsLeap year) := inferInstanceAs (Decidable (_ ∧ _))

/-- How many days a month has. -/
def monthLength (year : Int) (month : Nat) : Nat :=
  if month = 2 then (if IsLeap year then 29 else 28)
  else if month ∈ [4, 6, 9, 11] then 30 else 31

/-- The day after a date. -/
def next (d : Date) : Date :=
  if d.day < monthLength d.year d.month then { d with day := d.day + 1 }
  else if d.month < 12 then ⟨d.year, d.month + 1, 1⟩
  else ⟨d.year + 1, 1, 1⟩

/-- The day `day` of the year `year` of an era of 400 years, both counted from zero. The year begins in
March, so that a leap day is the last of its year. -/
structure OfEra (year day : Nat) : Prop where
  year_lt : year < 400
  day_le : day ≤ 365
  leap : day = 365 → year % 4 = 3 ∧ (year % 100 ≠ 99 ∨ year = 399)

/-- How many days of an era lie before the year. -/
def before (year : Nat) : Nat := 365 * year + year / 4 - year / 100

/-- The date of a day of an era. -/
def ofMarch (era : Int) (year day : Nat) : Date :=
  let shiftedMonth := (5 * day + 2) / 153
  let month := if shiftedMonth < 10 then shiftedMonth + 3 else shiftedMonth - 9
  ⟨year + era * 400 + (if month ≤ 2 then 1 else 0), month, day - (153 * shiftedMonth + 2) / 5 + 1⟩

variable {year day : Nat}

/-- The days of an era are numbered without a gap. -/
lemma exists_ofEra {n : Nat} (h : n < 146097) :
    ∃ year day, OfEra year day ∧ n = before year + day ∧
      (n - n / 1460 + n / 36524 - n / 146096) / 365 = year := by
  obtain ⟨year, hyear⟩ : ∃ year, (n - n / 1460 + n / 36524 - n / 146096) / 365 = year := ⟨_, rfl⟩
  refine ⟨year, n - before year, ?_⟩
  have hbounds : before year ≤ n ∧ n - before year ≤ 365 ∧ year < 400 ∧
      (n - before year = 365 → year % 4 = 3 ∧ (year % 100 ≠ 99 ∨ year = 399)) := by
    obtain rfl | hlast : n = 146096 ∨ n < 146096 := by omega
    · subst hyear
      decide
    -- the century of the day is that of its year
    have hcentury : n / 36524 ≤ 3 := by omega
    have hera : n / 146096 = 0 := by omega
    rw [hera] at hyear
    clear hera
    unfold before
    generalize hc : n / 36524 = c at *
    generalize hd : year / 100 = d at *
    obtain rfl : d = c := by interval_cases c <;> omega
    interval_cases d <;> omega
  obtain ⟨hbefore, hday, hlt, hleap⟩ := hbounds
  exact ⟨⟨hlt, hday, hleap⟩, by omega, hyear⟩

lemma before_mono : Monotone before := by
  refine monotone_nat_of_le_succ fun year => ?_
  unfold before
  omega

/-- A day comes before those of all later years of its era. -/
lemma OfEra.lt_before (h : OfEra year day) {later : Nat} (hlater : year < later) (hlt : later < 400) :
    before year + day < before later := by
  refine Nat.lt_of_lt_of_le ?_ (before_mono hlater)
  obtain ⟨-, hday, hleap⟩ := h
  unfold before
  by_cases hlast : day = 365
  · have := hleap hlast
    omega
  · omega

lemma OfEra.unique (h : OfEra year day) {year' day' : Nat} (h' : OfEra year' day')
    (heq : before year + day = before year' + day') : year = year' := by
  rcases Nat.lt_trichotomy year year' with hlt | rfl | hlt
  · have := h.lt_before hlt h'.year_lt
    omega
  · rfl
  · have := h'.lt_before hlt h.year_lt
    omega

/-- A number of days from the start of an era on is that day of the era. -/
lemma ofDays_eq (h : OfEra year day) {era days : Int}
    (hdays : days + 719468 = 146097 * era + (before year + day : Nat)) :
    ofDays days = ofMarch era year day := by
  have hlt : before year + day < 146097 := by
    obtain ⟨hyear, hday, -⟩ := h
    unfold before
    omega
  have hera : (days + 719468) / 146097 = era := by omega
  have hofEra : ((days + 719468) % 146097).toNat = before year + day := by omega
  obtain ⟨year', day', h', heq, hyear⟩ := exists_ofEra hlt
  obtain rfl := h.unique h' heq
  rw [ofDays, hofEra, hera, hyear]
  change ofMarch era year (before year + day - before year) = _
  rw [Nat.add_sub_cancel_left]

lemma exists_ofMarch (days : Int) : ∃ era year day, OfEra year day ∧
    days + 719468 = 146097 * era + (before year + day : Nat) ∧ ofDays days = ofMarch era year day := by
  obtain ⟨year, day, h, hn, -⟩ := exists_ofEra (n := ((days + 719468) % 146097).toNat) (by omega)
  have hdays : days + 719468 = 146097 * ((days + 719468) / 146097) + (before year + day : Nat) := by
    omega
  exact ⟨_, year, day, h, hdays, ofDays_eq h hdays⟩

/-- How many days of a year that begins in March lie before a month, by the number of the month. -/
def beforeMonth (m : Nat) : Nat := (153 * m + 2) / 5

lemma ofMarch_eq {m : Nat} (era : Int) (hday : day ≤ 365) (hm : (5 * day + 2) / 153 = m) :
    ofMarch era year day =
      ⟨year + era * 400 + (if m < 10 then 0 else 1), if m < 10 then m + 3 else m - 9,
        day - beforeMonth m + 1⟩ := by
  unfold ofMarch
  rw [hm]
  by_cases hlt : m < 10
  · have hmonth : ¬ m + 3 ≤ 2 := by omega
    simp only [if_pos hlt, if_neg hmonth]
    rfl
  · have hmonth : m - 9 ≤ 2 := by omega
    simp only [if_neg hlt, if_pos hmonth]
    rfl

lemma ofMarch_zero (era : Int) (year : Nat) : ofMarch era year 0 = ⟨year + era * 400, 3, 1⟩ := by
  simp [ofMarch]

/-- The months but the last are as long as the days before them say. -/
lemma monthLength_eq {m : Nat} (y : Int) (hm : m < 11) :
    monthLength y (if m < 10 then m + 3 else m - 9) = beforeMonth (m + 1) - beforeMonth m := by
  interval_cases m <;> rfl

/-- The last month has its 29th day only in a leap year. -/
lemma OfEra.lt_monthLength (h : OfEra year (day + 1)) (era : Int) :
    day - beforeMonth 11 + 1 < monthLength (year + era * 400 + 1) 2 := by
  obtain ⟨-, hle, hleap⟩ := h
  unfold monthLength beforeMonth
  by_cases hlong : IsLeap (year + era * 400 + 1)
  · rw [if_pos rfl, if_pos hlong]
    omega
  · rw [if_pos rfl, if_neg hlong]
    unfold IsLeap at hlong
    omega

/-- Within a year of an era, the day after a date is the next one. -/
lemma next_ofMarch (era : Int) (h : OfEra year (day + 1)) :
    (ofMarch era year day).next = ofMarch era year (day + 1) := by
  have hle := h.day_le
  obtain ⟨m, hm⟩ : ∃ m, (5 * day + 2) / 153 = m := ⟨_, rfl⟩
  obtain ⟨m', hm'⟩ : ∃ m', (5 * (day + 1) + 2) / 153 = m' := ⟨_, rfl⟩
  rw [ofMarch_eq era (Nat.le_of_succ_le hle) hm, ofMarch_eq era hle hm', next]
  dsimp only
  obtain hlt | rfl : m < 11 ∨ m = 11 := by omega
  · rw [monthLength_eq _ hlt]
    unfold beforeMonth
    obtain rfl | rfl : m' = m ∨ m' = m + 1 := by omega
    · rw [if_pos (by omega), Date.mk.injEq]
      omega
    · rw [if_neg (by omega)]
      obtain hlt | rfl | rfl : m < 9 ∨ m = 9 ∨ m = 10 := by omega
      · have hmonth : m + 3 < 12 := by omega
        have hafter : m + 1 < 10 := by omega
        simp only [if_pos (Nat.lt_of_succ_lt hafter), if_pos hmonth, if_pos hafter, Date.mk.injEq,
          true_and]
        omega
      · change Date.mk (year + era * 400 + 0 + 1) 1 1 = ⟨year + era * 400 + 1, 1, _⟩
        rw [Date.mk.injEq]
        omega
      · change Date.mk (year + era * 400 + 1) 2 1 = ⟨year + era * 400 + 1, 2, _⟩
        rw [Date.mk.injEq]
        omega
  · obtain rfl : m' = 11 := by omega
    change (if day - beforeMonth 11 + 1 < monthLength (year + era * 400 + 1) 2 then _ else _) = _
    rw [if_pos (h.lt_monthLength era), Date.mk.injEq]
    unfold beforeMonth
    omega

/-- A year of an era ends on its 366th day, or on the 365th if it is not that long. -/
lemma OfEra.last (h : OfEra year day) (hday : ¬ OfEra year (day + 1)) :
    day = 365 ∨ day = 364 ∧ ¬ (year % 4 = 3 ∧ (year % 100 ≠ 99 ∨ year = 399)) := by
  obtain ⟨hyear, hle, -⟩ := h
  by_contra hlast
  exact hday ⟨hyear, by omega, by omega⟩

/-- The day after the last of a year of an era is the first of March. -/
lemma next_ofMarch_last (h : OfEra year day) (era : Int) (hday : ¬ OfEra year (day + 1)) :
    (ofMarch era year day).next = ⟨year + era * 400 + 1, 3, 1⟩ := by
  have hlast := h.last hday
  have hlength : ¬ day - beforeMonth 11 + 1 < monthLength (year + era * 400 + 1) 2 := by
    have hyear := h.year_lt
    unfold monthLength beforeMonth
    by_cases hlong : IsLeap (year + era * 400 + 1)
    · rw [if_pos rfl, if_pos hlong]
      unfold IsLeap at hlong
      omega
    · rw [if_pos rfl, if_neg hlong]
      omega
  rw [ofMarch_eq (m := 11) era h.day_le (by omega), next]
  change (if day - beforeMonth 11 + 1 < monthLength (year + era * 400 + 1) 2 then _ else _) = _
  rw [if_neg hlength]
  rfl

/-- Day zero is the first of 1970. -/
theorem ofDays_zero : ofDays 0 = ⟨1970, 1, 1⟩ := rfl

/-- The date of the next number of days is the day after. -/
theorem ofDays_succ (days : Int) : ofDays (days + 1) = (ofDays days).next := by
  obtain ⟨era, year, day, h, hdays, hdate⟩ := exists_ofMarch days
  rw [hdate]
  by_cases hday : OfEra year (day + 1)
  · rw [next_ofMarch era hday]
    exact ofDays_eq hday (by omega)
  · rw [next_ofMarch_last h era hday]
    have hlast := h.last hday
    obtain ⟨hyear, -, hleap⟩ := h
    obtain hlt | rfl : year < 399 ∨ year = 399 := by omega
    · have hfirst : OfEra (year + 1) 0 := ⟨by omega, Nat.zero_le _, nofun⟩
      have hbefore : before (year + 1) = before year + day + 1 := by
        unfold before
        omega
      have hnext : days + 1 + 719468 = 146097 * era + (before (year + 1) + 0 : Nat) := by omega
      rw [ofDays_eq hfirst hnext, ofMarch_zero, Date.mk.injEq]
      omega
    · have hfirst : OfEra 0 0 := ⟨by decide, Nat.zero_le _, nofun⟩
      have hbefore : before 399 + day + 1 = before 0 + 146097 := by
        unfold before
        omega
      have hnext : days + 1 + 719468 = 146097 * (era + 1) + (before 0 + 0 : Nat) := by omega
      rw [ofDays_eq hfirst hnext, ofMarch_zero, Date.mk.injEq]
      omega

/-- The years that four digits hold, from the first of the year 0 to the last of the year 9999. -/
lemma year_ofDays (days : Int) :
    0 ≤ (ofDays days).year ∧ (ofDays days).year ≤ 9999 ↔ -719528 ≤ days ∧ days < 2932897 := by
  obtain ⟨era, year, day, h, hdays, hdate⟩ := exists_ofMarch days
  obtain ⟨m, hm⟩ : ∃ m, (5 * day + 2) / 153 = m := ⟨_, rfl⟩
  rw [hdate, ofMarch_eq era h.day_le hm]
  obtain ⟨hyear, hle, hleap⟩ := h
  have hcentury : year / 100 ≤ 3 := by omega
  unfold before at hdays
  dsimp only
  generalize hc : year / 100 = c at *
  obtain hera | rfl | hera | rfl | hera :
    era < -1 ∨ era = -1 ∨ 0 ≤ era ∧ era < 24 ∨ era = 24 ∨ 24 < era := by omega
  all_goals split <;> omega

end Date

end Stencil
