import Mathlib.Tactic.Lemma
import Stencil.Context
import Stencil.Proofs.Calendar
import Stencil.Proofs.Number.Digits
import Stencil.Proofs.Number.Rounding

/-!
# The forms of an instant

The ISO text of an instant is cut at fixed places, which fit a year of four digits. Main statement:
`Instant.resolve_datetime`. The seconds are the quotient of two numbers, rounded down; by
`Instant.floor?_div` the rounding of that quotient never matters.
-/

namespace Stencil

lemma Text.slice_eq {s before t after : Text} {start stop : Nat} (h : s = before ++ t ++ after)
    (hstart : before.length = start) (hstop : start + t.length = stop) : slice s start stop = t := by
  subst hstart hstop
  rw [h, slice, List.append_assoc, List.drop_left, Nat.add_sub_cancel_left, List.take_left]

namespace Date

/-- Months and days have two digits, and so far from 1970 years have six at most. -/
lemma bounds {days : Int} (h : days.natAbs ≤ 100000001) :
    (ofDays days).month < 10 ^ 2 ∧ (ofDays days).day < 10 ^ 2 ∧ (ofDays days).year.natAbs < 10 ^ 6 := by
  obtain ⟨era, year, day, hday, hdays, hdate⟩ := exists_ofMarch days
  obtain ⟨m, hm⟩ : ∃ m, (5 * day + 2) / 153 = m := ⟨_, rfl⟩
  rw [hdate, ofMarch_eq era hday.day_le hm]
  obtain ⟨hyear, hle, -⟩ := hday
  have hbefore : before year + day ≤ 146097 := by
    unfold before
    omega
  unfold beforeMonth
  dsimp only
  refine ⟨?_, by omega, ?_⟩
  · split <;> omega
  · split <;> omega

/-- Whether four digits write the year. -/
lemma length_yearText (d : Date) (h : d.year.natAbs < 10 ^ 6) :
    d.yearText.length = if 0 ≤ d.year ∧ d.year ≤ 9999 then 4 else 7 := by
  rw [yearText]
  split
  · next hyear => exact Text.length_padded (by decide) (by omega)
  · rw [List.length_append, Text.length_padded (by decide) h]
    split <;> rfl

end Date

namespace Number

/-- The largest integer that is not above a finite number. -/
def floor? : Number → Option Int
  | .finite s m => some (signed s m.units / one)
  | _ => none

/-- The quotient of two integers of the exact range. -/
lemma div_toNumber (i j : Whole) (hj : 0 < j.toInt) :
    i.toNumber.div j.toNumber = ofRatio (i.toInt < 0) (i.toInt.natAbs * one) j.toInt.natAbs := by
  obtain ⟨m, hm, hi⟩ := i.toNumber_eq
  obtain ⟨k, hk, hdivisor⟩ := j.toNumber_eq
  have hsign : decide (j.toInt < 0) = false := decide_eq_false (Int.not_lt.2 (Int.le_of_lt hj))
  have hne : j.toInt.natAbs * one ≠ 0 :=
    Nat.mul_ne_zero (Int.natAbs_ne_zero.2 (Int.ne_of_gt hj)) one_pos.ne'
  rw [hi, hdivisor, div, hm, hk, if_neg hne, ofRatio_mul_right _ _ _ one_pos, hsign, Bool.bne_false]

end Number

namespace Magnitude

open Number (one)

/-- The quotients of a clock in seconds are small, so that rounding moves them by less than
a thousandth. -/
lemma spacing_thousandths {n low : Nat} (h : n ≤ 8640000000000000) :
    spacing (n * (1024 * Nat.pow 2 low) / 1000) ≤ low := by
  have hunit := pow_two_pos low
  have hlt : n * (1024 * Nat.pow 2 low) / 1000 < Nat.pow 2 (53 + low) := by
    have hpow : Nat.pow 2 (53 + low) = 9007199254740992 * Nat.pow 2 low := Nat.pow_add 2 53 low
    have hmul : n * (1024 * Nat.pow 2 low) ≤ 8640000000000000 * (1024 * Nat.pow 2 low) :=
      Nat.mul_le_mul_right _ h
    rw [Nat.div_lt_iff_lt_mul (by decide), hpow]
    omega
  rcases Nat.eq_zero_or_pos (n * (1024 * Nat.pow 2 low) / 1000) with hzero | hpos
  · rw [hzero]
    exact Nat.zero_le low
  · have := (Nat.log2_lt hpos.ne').2 hlt
    rw [spacing]
    omega

/-- A quotient of thousandths that is no integer is not rounded to one, and not beyond. -/
lemma rounded_thousandths {n : Nat} (h : n ≤ 8640000000000000) (hn : n % 1000 ≠ 0) :
    n / 1000 * one < rounded (n * one) 1000 ∧ rounded (n * one) 1000 < (n / 1000 + 1) * one := by
  obtain ⟨low, hlow⟩ : ∃ low, 1074 = 10 + low := ⟨1064, rfl⟩
  have hkilo : Nat.pow 2 (10 + low) = 1024 * Nat.pow 2 low := Nat.pow_add 2 10 low
  unfold one
  generalize 1074 = bits at hlow ⊢
  rw [hlow, hkilo]
  obtain ⟨hle, hge⟩ := rounded_within (n * (1024 * Nat.pow 2 low)) (by decide) (spacing_thousandths h)
  have hunit := pow_two_pos low
  generalize Nat.pow 2 low = unit at hle hge hunit ⊢
  have hsum (k : Nat) : n * k = 1000 * (n / 1000 * k) + n % 1000 * k := by
    rw [← Nat.mul_assoc, ← Nat.add_mul, Nat.div_add_mod]
  have hfirst (k : Nat) : k ≤ n % 1000 * k := Nat.le_mul_of_pos_left k (Nat.pos_of_ne_zero hn)
  have hlast (k : Nat) : n % 1000 * k ≤ 999 * k :=
    Nat.mul_le_mul_right k (Nat.le_of_lt_succ (Nat.mod_lt n (by decide)))
  have := hsum (1024 * unit)
  have := hfirst (1024 * unit)
  have := hlast (1024 * unit)
  have hsucc : (n / 1000 + 1) * (1024 * unit) = n / 1000 * (1024 * unit) + 1024 * unit :=
    Nat.succ_mul _ _
  omega

/-- The seconds of a clock lie between the same integers after rounding. -/
lemma exists_thousandths (s : Bool) {n : Nat} (h : n ≤ 8640000000000000) :
    ∃ m : Magnitude, Number.ofRatio s (n * one) 1000 = .finite s m ∧
      (m.units = n / 1000 * one ∧ n % 1000 = 0 ∨
        n / 1000 * one < m.units ∧ m.units < (n / 1000 + 1) * one ∧ n % 1000 ≠ 0) := by
  have hlimit : n / 1000 + 1 ≤ exactLimit := by
    unfold exactLimit
    omega
  by_cases hn : n % 1000 = 0
  · obtain ⟨m, hm, hnumber⟩ := Number.ofRatio_mul_one s (Nat.le_of_succ_le hlimit)
    refine ⟨m, ?_, .inl ⟨hm, hn⟩⟩
    have hmul : n * one = n / 1000 * one * 1000 := by
      rw [Nat.mul_right_comm, Nat.div_mul_cancel (Nat.dvd_of_mod_eq_zero hn)]
    have hratio := Number.ofRatio_mul_right s (n / 1000 * one) 1 (k := 1000) (by decide)
    rw [hmul, ← hnumber, ← hratio, Nat.one_mul]
  · obtain ⟨hlow, hhigh⟩ := rounded_thousandths h hn
    have hbound : rounded (n * one) 1000 < bound := by
      refine Nat.lt_trans hhigh ?_
      rw [← rounded_mul_one hlimit]
      exact rounded_one_lt hlimit
    rw [Number.ofRatio, round?, dif_pos ⟨by decide, hbound⟩]
    exact ⟨_, rfl, .inr ⟨hlow, hhigh, hn⟩⟩

end Magnitude

namespace Instant

/-- Whole seconds are the quotient of two numbers, rounded down. -/
theorem floor?_div (t : Instant) :
    ((Number.ofInt t.milliseconds).div (.ofInt 1000)).floor? = some t.seconds.toInt := by
  have hlimit : t.milliseconds.natAbs ≤ exactLimit := Nat.le_trans t.bounded (by decide)
  have hratio : (Number.ofInt t.milliseconds).div (.ofInt 1000) =
      .ofRatio (t.milliseconds < 0) (t.milliseconds.natAbs * Number.one) 1000 :=
    Number.div_toNumber ⟨t.milliseconds, hlimit⟩ ⟨1000, by decide⟩ (by decide)
  obtain ⟨m, hnumber, hm⟩ := Magnitude.exists_thousandths (t.milliseconds < 0) t.bounded
  have hone : (0 : Int) < Number.one := Int.natCast_pos.2 Number.one_pos
  rw [hratio, hnumber, Number.floor?, Option.some_inj, Int.ediv_eq_iff_of_pos hone]
  have hseconds : t.seconds.toInt = t.milliseconds / 1000 := rfl
  by_cases hneg : t.milliseconds < 0
  · rw [decide_eq_true hneg, Number.signed, if_pos rfl, hseconds]
    rcases hm with ⟨hm, hn⟩ | ⟨hlow, hhigh, hn⟩
    · have hfloor : t.milliseconds / 1000 = -(t.milliseconds.natAbs / 1000 : Nat) := by omega
      rw [hfloor, hm, Int.neg_mul, Int.natCast_mul]
      omega
    · have hfloor : t.milliseconds / 1000 = -(t.milliseconds.natAbs / 1000 + 1 : Nat) := by omega
      rw [Nat.succ_mul] at hhigh
      rw [hfloor, Int.neg_mul, ← Int.natCast_mul, Nat.succ_mul]
      omega
  · have hfloor : t.milliseconds / 1000 = (t.milliseconds.natAbs / 1000 : Nat) := by omega
    rw [decide_eq_false hneg, Number.signed, if_neg Bool.false_ne_true, hseconds, hfloor,
      ← Int.natCast_mul]
    rw [Nat.succ_mul] at hm
    omega

/-- Hours, minutes and seconds of two digits. -/
def clock (h m s : Nat) : Text :=
  Text.padded 2 h ++ ":" ++ Text.padded 2 m ++ ":" ++ Text.padded 2 s

/-- The cuts of a text whose eleventh unit is a separator. -/
lemma slice_iso {iso date mark time after : Text} (h : iso = date ++ mark ++ time ++ after)
    (hdate : date.length = 10) (hmark : mark.length = 1) (htime : time.length = 8) :
    iso.slice 0 10 = date ∧ iso.slice 11 19 = time ∧ iso.slice 0 19 = date ++ mark ++ time := by
  refine ⟨?_, ?_, ?_⟩
  · refine Text.slice_eq (show iso = [] ++ date ++ (mark ++ time ++ after) from ?_) ?_ ?_
    · simp only [h, List.nil_append, List.append_assoc]
    · rfl
    · rw [hdate]
  · apply Text.slice_eq h
    · rw [List.length_append, hdate, hmark]
    · rw [htime]
  · refine Text.slice_eq (show iso = [] ++ (date ++ mark ++ time) ++ after from ?_) ?_ ?_
    · rw [h, List.nil_append]
    · rfl
    · rw [List.length_append, List.length_append, hdate, hmark, htime]

section

variable (t : Instant)

/-- The instants of the years that four digits hold. -/
lemma year_iff : (0 ≤ t.date.year ∧ t.date.year ≤ 9999) ↔
    -62167219200000 ≤ t.milliseconds ∧ t.milliseconds < 253402300800000 := by
  refine (Date.year_ofDays _).trans ?_
  unfold dayLength
  omega

lemma ofDay_eq : (t.ofDay : Int) = t.milliseconds % 86400000 ∧ t.ofDay < 86400000 := by
  unfold ofDay dayLength
  omega

lemma length_date : (Text.padded 2 t.date.month).length = 2 ∧ (Text.padded 2 t.date.day).length = 2 ∧
    t.date.yearText.length = if 0 ≤ t.date.year ∧ t.date.year ≤ 9999 then 4 else 7 := by
  have hbounded := t.bounded
  have hdays : (t.milliseconds / dayLength).natAbs ≤ 100000001 := by
    unfold dayLength
    omega
  obtain ⟨hmonth, hday, hyear⟩ := Date.bounds hdays
  exact ⟨Text.length_padded (by decide) hmonth, Text.length_padded (by decide) hday,
    Date.length_yearText t.date hyear⟩

lemma length_clock : (Text.padded 2 (t.ofDay / 3600000)).length = 2 ∧
    (Text.padded 2 (t.ofDay / 60000 % 60)).length = 2 ∧
      (Text.padded 2 (t.ofDay / 1000 % 60)).length = 2 := by
  have hofDay := t.ofDay_eq.2
  refine ⟨?_, ?_, ?_⟩ <;> exact Text.length_padded (by decide) (by omega)

lemma length_marks : ("-" : Text).length = 1 ∧ ("T" : Text).length = 1 ∧ (":" : Text).length = 1 :=
  ⟨rfl, rfl, rfl⟩

/-- The cuts are the date and the time if four digits hold the year. -/
lemma slice_iso_of_year (hyear : 0 ≤ t.date.year ∧ t.date.year ≤ 9999) :
    t.iso.slice 0 10 = t.date.text ∧ t.iso.slice 11 19 = t.clockText ∧
      t.iso.slice 0 19 = t.date.text ++ "T" ++ t.clockText := by
  obtain ⟨hmonth, hday, hwidth⟩ := t.length_date
  obtain ⟨hh, hm, hs⟩ := t.length_clock
  obtain ⟨hdash, hletter, hcolon⟩ := length_marks
  rw [if_pos hyear] at hwidth
  have hiso : t.iso = t.date.text ++ "T" ++ t.clockText ++
      ("." ++ Text.padded 3 (t.ofDay % 1000) ++ "Z") := by
    simp only [iso, List.append_assoc]
  refine slice_iso hiso ?_ hletter ?_
  · simp only [Date.text, List.length_append, hwidth, hdash, hmonth, hday]
  · simp only [clockText, List.length_append, hh, hm, hs, hcolon]

/-- The cuts come three units too early if the year has a sign and six digits. -/
lemma slice_iso_of_not_year (hyear : ¬ (0 ≤ t.date.year ∧ t.date.year ≤ 9999)) :
    let date := t.date.yearText ++ "-" ++ Text.padded 2 t.date.month
    let time := Text.padded 2 t.date.day ++ "T" ++ Text.padded 2 (t.ofDay / 3600000) ++ ":" ++
      Text.padded 2 (t.ofDay / 60000 % 60)
    t.iso.slice 0 10 = date ∧ t.iso.slice 11 19 = time ∧ t.iso.slice 0 19 = date ++ "-" ++ time := by
  intro date time
  obtain ⟨hmonth, hday, hwidth⟩ := t.length_date
  obtain ⟨hh, hm, -⟩ := t.length_clock
  obtain ⟨hdash, hletter, hcolon⟩ := length_marks
  rw [if_neg hyear] at hwidth
  have hiso : t.iso = date ++ "-" ++ time ++ (":" ++ Text.padded 2 (t.ofDay / 1000 % 60) ++ "." ++
      Text.padded 3 (t.ofDay % 1000) ++ "Z") := by
    simp only [iso, Date.text, clockText, date, time, List.append_assoc]
  refine slice_iso hiso ?_ hdash ?_
  · simp only [date, List.length_append, hwidth, hdash, hmonth]
  · simp only [time, List.length_append, hh, hm, hletter, hcolon, hday]

end

/-- The forms of an instant. The ISO text and the seconds are right at every instant. The other texts
are cut from it, and are its date and its time exactly if its year has four digits; with a sign and six
digits, the cuts come three units too early. -/
theorem resolve_datetime (t : Instant) :
    ∃ (day : Int) (h m s ms : Nat) (seconds : Whole) (iso date time : Text),
      (h < 24 ∧ m < 60 ∧ s < 60 ∧ ms < 1000) ∧
      t.milliseconds = day * 86400000 + (((h * 60 + m) * 60 + s) * 1000 + ms : Nat) ∧
      (seconds.toInt * 1000 ≤ t.milliseconds ∧ t.milliseconds < (seconds.toInt + 1) * 1000) ∧
      (Context.atInstant t).resolve .system "datetime" = .ok (.object
        [("now", .string ((Date.ofDays day).text ++ "T" ++ clock h m s ++ "." ++ Text.padded 3 ms ++ "Z")),
          ("timestamp", .integer seconds), ("iso", .string iso), ("date", .string date),
          ("time", .string time)]) ∧
      if -62167219200000 ≤ t.milliseconds ∧ t.milliseconds < 253402300800000 then
        iso = date ++ "T" ++ time ++ "Z" ∧ date = (Date.ofDays day).text ∧ time = clock h m s
      else
        iso = date ++ "-" ++ time ++ "Z" ∧
          date = (Date.ofDays day).yearText ++ "-" ++ Text.padded 2 (Date.ofDays day).month ∧
          time = Text.padded 2 (Date.ofDays day).day ++ "T" ++ Text.padded 2 h ++ ":" ++
            Text.padded 2 m := by
  obtain ⟨hofDay, hlt⟩ := t.ofDay_eq
  refine ⟨t.milliseconds / dayLength, t.ofDay / 3600000, t.ofDay / 60000 % 60, t.ofDay / 1000 % 60,
    t.ofDay % 1000, t.seconds, _, _, _, ?_, ?_, ?_, rfl, ?_⟩
  · omega
  · unfold dayLength
    omega
  · change t.milliseconds / 1000 * 1000 ≤ _ ∧ _ < (t.milliseconds / 1000 + 1) * 1000
    omega
  · split
    · next hin =>
      obtain ⟨hdate, htime, hiso⟩ := t.slice_iso_of_year (t.year_iff.2 hin)
      rw [hdate, htime, hiso]
      exact ⟨rfl, rfl, rfl⟩
    · next hout =>
      obtain ⟨hdate, htime, hiso⟩ := t.slice_iso_of_not_year (mt t.year_iff.1 hout)
      rw [hdate, htime, hiso]
      exact ⟨rfl, rfl, rfl⟩

/-- The first instant of the year 10000: its texts do not fit together. -/
theorem resolve_datetime_ten_thousand :
    let resolve (path : Text) :=
      (Context.atInstant ⟨253402300800000, by decide⟩).resolve .system path
    resolve "datetime.now" = .ok (.string "+010000-01-01T00:00:00.000Z") ∧
      resolve "datetime.date" = .ok (.string "+010000-01") ∧
      resolve "datetime.time" = .ok (.string "01T00:00") ∧
      resolve "datetime.iso" = .ok (.string "+010000-01-01T00:00Z") ∧
      ∀ ms : Text, ("+010000-01-01T00:00:00.000Z" : Text) ≠
        "+010000-01" ++ "T" ++ "01T00:00" ++ "." ++ ms ++ "Z" := by
  refine ⟨rfl, rfl, rfl, rfl, fun ms h => ?_⟩
  have hunit : some (CodeUnit.ofBasic '-') = some (CodeUnit.ofBasic 'T') := congrArg (·[10]?) h
  exact absurd hunit (by decide)

end Instant

end Stencil
