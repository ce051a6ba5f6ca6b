import FaninMcp.Foundation.GregorianCalendar
import FaninMcp.Foundation.RustText

/-!
# Timestamps

The time a cache was written is spelled out by arithmetic of its own, with years
that begin in March and eras of 400 years. Operations on `i64` are modelled with
the values they overflow at, and casts with the values they change.
-/

set_option autoImplicit false

namespace FaninMcp.Timestamps
open Foundation.RustText Foundation.GregorianCalendar

section Arithmetic

/-- A value of an `i64`, or nothing when it is out of range. -/
def inI64 (x : ℤ) : Option ℤ := if -2^63 ≤ x ∧ x < 2^63 then some x else none

def add (a b : ℤ) : Option ℤ := inI64 (a + b)

def sub (a b : ℤ) : Option ℤ := inI64 (a - b)

def mul (a b : ℤ) : Option ℤ := inI64 (a * b)

def div (a b : ℤ) : Option ℤ := if b = 0 then none else inI64 (a.tdiv b)

/-- `as u32`, where it keeps the value. -/
def asU32 (x : ℤ) : Option ℕ := if 0 ≤ x ∧ x < 2^32 then some x.toNat else none

theorem inI64_some {x : ℤ} (h : -2^63 ≤ x ∧ x < 2^63) : inI64 x = some x := if_pos h

theorem add_some {a b c : ℤ} (h : a + b = c) (hc : -2^63 ≤ c ∧ c < 2^63) : add a b = some c := by
  rw [add, h, inI64_some hc]

theorem sub_some {a b c : ℤ} (h : a - b = c) (hc : -2^63 ≤ c ∧ c < 2^63) : sub a b = some c := by
  rw [sub, h, inI64_some hc]

theorem mul_some {a b c : ℤ} (h : a * b = c) (hc : -2^63 ≤ c ∧ c < 2^63) : mul a b = some c := by
  rw [mul, h, inI64_some hc]

theorem div_some {a b c : ℤ} (hb : b ≠ 0) (h : a.tdiv b = c) (hc : -2^63 ≤ c ∧ c < 2^63) :
    div a b = some c := by
  rw [div, if_neg hb, h, inI64_some hc]

theorem asU32_some {x : ℤ} (h : 0 ≤ x ∧ x < 2^32) : asU32 x = some x.toNat := if_pos h

end Arithmetic

def civilDateFromDays (daysSinceEpoch : ℤ) : Option (ℤ × ℕ × ℕ) := do
  let z ← add daysSinceEpoch 719468
  let era ← div (← (if 0 ≤ z then some z else sub z 146096 : Option ℤ)) 146097
  let doe ← sub z (← mul era 146097)
  let yoe ← div (← sub (← add (← sub doe (← div doe 1460)) (← div doe 36524))
    (← div doe 146096)) 365
  let year ← add yoe (← mul era 400)
  let doy ← sub doe (← sub (← add (← mul 365 yoe) (← div yoe 4)) (← div yoe 100))
  let mp ← div (← add (← mul 5 doy) 2) 153
  let day ← add (← sub doy (← div (← add (← mul 153 mp) 2) 5)) 1
  let month ← add mp (if mp < 10 then 3 else -9)
  return (← add year (if month ≤ 2 then 1 else 0), ← asU32 month, ← asU32 day)

def zeroPadded (width : ℕ) (n : ℤ) : Text :=
  let sign : Text := if n < 0 then ['-'] else []
  let digits := Nat.toDigits 10 n.natAbs
  sign ++ List.replicate (width - sign.length - digits.length) '0' ++ digits

/-- The text for a time, in seconds of a `u64`. -/
def rfc3339UtcNow (seconds : UInt64) : Option Text := do
  let days := seconds.toNat / 86400
  let secondsOfDay := seconds.toNat % 86400
  let (year, month, day) ← civilDateFromDays (← inI64 days)
  return zeroPadded 4 year ++ ['-'] ++ zeroPadded 2 month ++ ['-'] ++ zeroPadded 2 day ++ ['T'] ++
    zeroPadded 2 (secondsOfDay / 3600 : ℕ) ++ [':'] ++
    zeroPadded 2 (secondsOfDay % 3600 / 60 : ℕ) ++ [':'] ++
    zeroPadded 2 (secondsOfDay % 60 : ℕ) ++ ['Z']

section Era

/-- A day of an era of 400 years, by century, by cycle of four years, by year
and by day. The day before March is there in leap years only. -/
structure EraDay where
  century : ℤ
  cycle : ℤ
  year : ℤ
  day : ℤ
  century_range : 0 ≤ century ∧ century ≤ 3
  cycle_range : 0 ≤ cycle ∧ cycle ≤ 24
  year_range : 0 ≤ year ∧ year ≤ 3
  day_range : 0 ≤ day ∧ day ≤ 365
  last : day = 365 → year = 3 ∧ (cycle = 24 → century = 3)

namespace EraDay

def number (e : EraDay) : ℤ := 36524 * e.century + 1461 * e.cycle + 365 * e.year + e.day

def yearOfEra (e : EraDay) : ℤ := 100 * e.century + 4 * e.cycle + e.year

def month (e : EraDay) : ℤ := (5 * e.day + 2) / 153

def dayOfMonth (e : EraDay) : ℤ := e.day - (153 * e.month + 2) / 5 + 1

theorem exists_number {doe : ℤ} (h : 0 ≤ doe ∧ doe ≤ 146096) : ∃ e : EraDay, e.number = doe := by
  obtain ⟨c, hc⟩ : ∃ c, c = min (doe / 36524) 3 := ⟨_, rfl⟩
  obtain ⟨q, hq⟩ : ∃ q, q = (doe - 36524 * c) / 1461 := ⟨_, rfl⟩
  obtain ⟨a, ha⟩ : ∃ a, a = min ((doe - 36524 * c) % 1461 / 365) 3 := ⟨_, rfl⟩
  refine ⟨⟨c, q, a, doe - 36524 * c - 1461 * q - 365 * a, ?_, ?_, ?_, ?_, ?_⟩, ?_⟩
  · omega
  · omega
  · omega
  · omega
  · omega
  · simp only [number]
    omega

variable (e : EraDay)

theorem number_range : 0 ≤ e.number ∧ e.number ≤ 146096 := by
  obtain ⟨c, q, a, b, hc, hq, ha, hb, hlast⟩ := e
  simp only [number]
  omega

theorem yearOfEra_range : 0 ≤ e.yearOfEra ∧ e.yearOfEra ≤ 399 := by
  obtain ⟨c, q, a, b, hc, hq, ha, hb, hlast⟩ := e
  simp only [yearOfEra]
  omega

theorem number_centuries : e.number / 36524 - e.number / 146096 = e.century := by
  obtain ⟨c, q, a, b, hc, hq, ha, hb, hlast⟩ := e
  simp only [number]
  obtain ⟨r, hr⟩ : ∃ r, r = 1461 * q + 365 * a + b := ⟨_, rfl⟩
  rw [show 36524 * c + 1461 * q + 365 * a + b = 36524 * c + r by omega]
  by_cases hfull : r = 36524
  · have hlastCentury : c = 3 := by omega
    rw [hfull, hlastCentury]
    rfl
  · have hcentury : (36524 * c + r) / 36524 = c := by omega
    have hera : (36524 * c + r) / 146096 = 0 := by omega
    omega

theorem yearOfEra_eq :
    (e.number - e.number / 1460 + e.number / 36524 - e.number / 146096) / 365 = e.yearOfEra := by
  have hcenturies := e.number_centuries
  obtain ⟨c, q, a, b, hc, hq, ha, hb, hlast⟩ := e
  simp only [number, yearOfEra] at hcenturies ⊢
  omega

theorem day_eq :
    e.number - (365 * e.yearOfEra + e.yearOfEra / 4 - e.yearOfEra / 100) = e.day := by
  obtain ⟨c, q, a, b, hc, hq, ha, hb, hlast⟩ := e
  simp only [number, yearOfEra]
  omega

theorem month_range : 0 ≤ e.month ∧ e.month ≤ 11 := by
  obtain ⟨c, q, a, b, hc, hq, ha, hb, hlast⟩ := e
  simp only [month]
  omega

theorem dayOfMonth_range : 1 ≤ e.dayOfMonth ∧ e.dayOfMonth ≤ 31 := by
  obtain ⟨c, q, a, b, hc, hq, ha, hb, hlast⟩ := e
  simp only [dayOfMonth, month]
  omega

/-- The year of the calendar in which the day's year, begun in March, ends. -/
def closingYear (era : ℤ) : ℤ := 400 * era + e.yearOfEra + 1

def date (era : ℤ) : Date :=
  if e.month < 10 then ⟨e.closingYear era - 1, (e.month+3).toNat, e.dayOfMonth.toNat⟩
  else ⟨e.closingYear era, (e.month-9).toNat, e.dayOfMonth.toNat⟩

theorem daysBeforeYear_closing (era : ℤ) :
    daysBeforeYear (e.closingYear era) = 146097 * era + e.number - e.day := by
  have hday := e.day_eq
  have hyear := e.yearOfEra_range
  simp only [daysBeforeYear, closingYear]
  omega

theorem leap_of_last {era : ℤ} (h : e.day = 365) : isLeap (e.closingYear era) = true := by
  obtain ⟨c, q, a, b, hc, hq, ha, hb, hlast⟩ := e
  obtain ⟨rfl, hcycle⟩ := hlast h
  have hlastDay : b = 365 := h
  rw [isLeap_iff]
  simp only [closingYear, yearOfEra]
  omega

theorem march_months : ∀ leap : Bool, ∀ m < 10,
    daysBeforeMonth leap (m+3) = 59 + leap.toNat + (153 * m + 2) / 5 ∧
      monthLength leap (m+3) = (153 * (m+1) + 2) / 5 - (153 * m + 2) / 5 := by
  decide

theorem winter_months : ∀ leap : Bool, ∀ m < 2,
    daysBeforeMonth leap (m+1) = (153 * (m+10) + 2) / 5 - 306 ∧
      monthLength leap (m+1) = if m = 0 then 31 else 28 + leap.toNat := by
  decide

theorem month_cases : ∃ m : ℕ,
    (e.month < 10 ∧ e.month = m ∧ m < 10 ∧ (e.month+3).toNat = m+3) ∨
    (¬ e.month < 10 ∧ e.month = m+10 ∧ m < 2 ∧ (e.month-9).toNat = m+1) := by
  have hrange := e.month_range
  by_cases h : e.month < 10
  · exact ⟨e.month.toNat, Or.inl ⟨h, by omega⟩⟩
  · exact ⟨(e.month-10).toNat, Or.inr ⟨h, by omega⟩⟩

theorem dayNumber_date (era : ℤ) : dayNumber (e.date era) = 146097 * era + e.number - 719468 := by
  have hclosing := e.daysBeforeYear_closing era
  have hday : e.dayOfMonth = e.day - (153 * e.month + 2) / 5 + 1 := rfl
  have hpos := e.dayOfMonth_range
  rw [date]
  obtain ⟨m, ⟨hmarch, hm, hlt, hmonth⟩ | ⟨hwinter, hm, hlt, hmonth⟩⟩ := e.month_cases
  · have hyear := daysBeforeYear_succ (e.closingYear era - 1)
    have hfrom := (march_months (isLeap (e.closingYear era - 1)) m hlt).1
    rw [sub_add_cancel] at hyear
    simp only [if_pos hmarch, dayNumber, Date.dayOfYear, hmonth, hfrom]
    omega
  · have hfrom := (winter_months (isLeap (e.closingYear era)) m hlt).1
    simp only [if_neg hwinter, dayNumber, Date.dayOfYear, hmonth, hfrom]
    omega

theorem date_valid (era : ℤ) : (e.date era).Valid := by
  have hday : e.dayOfMonth = e.day - (153 * e.month + 2) / 5 + 1 := rfl
  have hpos := e.dayOfMonth_range
  have hrange := e.day_range
  have hspan : e.month = (5 * e.day + 2) / 153 := rfl
  rw [date]
  obtain ⟨m, ⟨hmarch, hm, hlt, hmonth⟩ | ⟨hwinter, hm, hlt, hmonth⟩⟩ := e.month_cases
  · have hlength := (march_months (isLeap (e.closingYear era - 1)) m hlt).2
    have hstart : (153 * e.month + 2) / 5 = ((153 * m + 2) / 5 : ℕ) := by omega
    have hend : e.day + 1 ≤ ((153 * (m+1) + 2) / 5 : ℕ) := by omega
    rw [if_pos hmarch, hmonth]
    refine ⟨by simp, show m+3 ≤ 12 by omega, by simp; omega, ?_⟩
    simp only [hlength]
    omega
  · have hlength := (winter_months (isLeap (e.closingYear era)) m hlt).2
    have hleap := @leap_of_last e era
    rw [if_neg hwinter, hmonth]
    refine ⟨by simp, show m+1 ≤ 12 by omega, by simp; omega, ?_⟩
    simp only [hlength]
    split_ifs with hm0
    · omega
    · by_cases hlast : e.day = 365
      · rw [hleap hlast, Bool.toNat_true]
        omega
      · omega

end EraDay

end Era

section Conversion

theorem era_some {z era number : ℤ} (h : z = 146097 * era + number)
    (hnumber : 0 ≤ number ∧ number ≤ 146096) (hz : -2^63 + 146096 ≤ z ∧ z < 2^63) :
    ∃ n, (if 0 ≤ z then some z else sub z 146096) = some n ∧ div n 146097 = some era := by
  split_ifs with hneg
  · have hdiv : z.tdiv 146097 = era := by
      rw [Int.tdiv_eq_ediv_of_nonneg hneg]
      omega
    exact ⟨z, rfl, div_some (by decide) hdiv (by omega)⟩
  · have hdiv : (z - 146096).tdiv 146097 = era := by
      rw [← neg_sub, Int.neg_tdiv, Int.tdiv_eq_ediv_of_nonneg (by omega)]
      omega
    exact ⟨z - 146096, sub_some rfl (by omega), div_some (by decide) hdiv (by omega)⟩

theorem div_nonneg {a b : ℤ} (hb : 0 < b) (h : 0 ≤ a ∧ a < 2^63) : div a b = some (a / b) := by
  have hle := Int.ediv_le_self b h.1
  have hpos := Int.ediv_nonneg h.1 hb.le
  exact div_some hb.ne' (Int.tdiv_eq_ediv_of_nonneg h.1) (by omega)

theorem step {α β : Type} {x : Option α} {f : α → Option β} {a : α} {r : Option β} (hx : x = some a)
    (hf : f a = r) : x >>= f = r := by
  rw [hx]
  exact hf

def fields (d : Date) : ℤ × ℕ × ℕ := (d.year, d.month, d.day)

theorem civilDateFromDays_date {days era : ℤ} (e : EraDay)
    (h : days + 719468 = 146097 * era + e.number) (hlow : -2^63 ≤ days)
    (hhigh : days + 719468 < 2^63) : civilDateFromDays days = some (fields (e.date era)) := by
  have hnumber := e.number_range
  have hyoe := e.yearOfEra_range
  have hday := e.day_range
  have hmonth := e.month_range
  have hdayOfMonth := e.dayOfMonth_range
  have hz : add days 719468 = some (146097 * era + e.number) := add_some h (by omega)
  obtain ⟨n, hn, hera⟩ := era_some (z := 146097 * era + e.number) rfl hnumber (by omega)
  have hstart : mul era 146097 = some (era * 146097) := mul_some rfl (by omega)
  have hdoe : sub (146097 * era + e.number) (era * 146097) = some e.number :=
    sub_some (by omega) (by omega)
  rw [civilDateFromDays]
  refine step hz (step hn (step hera (step hstart (step hdoe ?_))))
  -- the year of the era
  have hyoe' := (div_nonneg (by decide) (by omega)).trans (congrArg some e.yearOfEra_eq)
  refine step (div_nonneg (by decide) (by omega)) (step (sub_some rfl (by omega)) ?_)
  refine step (div_nonneg (by decide) (by omega)) (step (add_some rfl (by omega)) ?_)
  refine step (div_nonneg (by decide) (by omega)) (step (sub_some rfl (by omega)) (step hyoe' ?_))
  have hyear : e.yearOfEra + era * 400 = e.closingYear era - 1 := by
    simp only [EraDay.closingYear]
    omega
  refine step (mul_some rfl (by omega)) (step (add_some hyear (by omega)) ?_)
  -- the day of the year, from March
  refine step (mul_some rfl (by omega)) (step (div_nonneg (by decide) (by omega)) ?_)
  refine step (add_some rfl (by omega)) (step (div_nonneg (by decide) (by omega)) ?_)
  refine step (sub_some rfl (by omega)) (step (sub_some e.day_eq (by omega)) ?_)
  -- its month, and the day of the month
  have hmonth' : (5 * e.day + 2) / 153 = e.month := rfl
  have hday' : e.day - (153 * e.month + 2) / 5 + 1 = e.dayOfMonth := rfl
  refine step (mul_some rfl (by omega)) (step (add_some rfl (by omega)) ?_)
  refine step (div_nonneg (by decide) (by omega)) ?_
  rw [hmonth']
  refine step (mul_some rfl (by omega)) (step (add_some rfl (by omega)) ?_)
  refine step (div_nonneg (by decide) (by omega)) (step (sub_some rfl (by omega)) ?_)
  refine step (add_some hday' (by omega)) ?_
  rw [fields, EraDay.date]
  by_cases hmarch : e.month < 10
  · rw [if_pos hmarch, if_pos hmarch]
    refine step (add_some rfl (by omega)) ?_
    rw [if_neg (by omega)]
    refine step (add_some (add_zero _) (by omega)) ?_
    exact step (asU32_some (by omega)) (step (asU32_some (by omega)) rfl)
  · rw [if_neg hmarch, if_neg hmarch]
    refine step (add_some rfl (by omega)) ?_
    rw [if_pos (by omega)]
    refine step (add_some (sub_add_cancel _ 1) (by omega)) ?_
    exact step (asU32_some (by omega)) (step (asU32_some (by omega)) rfl)

theorem civilDateFromDays_valid {days : ℤ} (hlow : -2^63 ≤ days) (hhigh : days + 719468 < 2^63) :
    ∃ d : Date, civilDateFromDays days = some (fields d) ∧ d.Valid ∧ dayNumber d = days := by
  obtain ⟨e, he⟩ := @EraDay.exists_number ((days + 719468) % 146097) (by omega)
  have hsum : days + 719468 = 146097 * ((days + 719468) / 146097) + e.number := by omega
  refine ⟨_, civilDateFromDays_date e hsum hlow hhigh, e.date_valid _, ?_⟩
  rw [e.dayNumber_date]
  omega

theorem civilDateFromDays_none {days : ℤ} (h : 2^63 ≤ days + 719468) :
    civilDateFromDays days = none := by
  have hadd : add days 719468 = none := if_neg (by omega)
  rw [civilDateFromDays, hadd]
  rfl

end Conversion

section Reading

def readNumber (text : Text) : Option ℕ :=
  if text ≠ [] ∧ text.all Char.isDigit then some (Nat.ofDigitChars 10 text 0) else none

/-- A date and a time of day in hours, minutes and seconds. -/
structure Timestamp where
  date : Date
  hour : ℕ
  minute : ℕ
  second : ℕ

def readTimestamp (text : Text) : Option Timestamp := do
  let year ← splitOnce ['-'] text
  let month ← splitOnce ['-'] year.2
  let day ← splitOnce ['T'] month.2
  let hour ← splitOnce [':'] day.2
  let minute ← splitOnce [':'] hour.2
  let second ← splitOnce ['Z'] minute.2
  return ⟨⟨← readNumber year.1, ← readNumber month.1, ← readNumber day.1⟩, ← readNumber hour.1,
    ← readNumber minute.1, ← readNumber second.1⟩

structure Timestamp.Valid (t : Timestamp) : Prop where
  date : t.date.Valid
  hour : t.hour < 24
  minute : t.minute < 60
  second : t.second < 60

def Timestamp.instant (t : Timestamp) : ℤ :=
  dayNumber t.date * 86400 + t.hour * 3600 + t.minute * 60 + t.second

variable (width n : ℕ)

theorem zeroPadded_eq : zeroPadded width n =
    List.replicate (width - (Nat.toDigits 10 n).length) '0' ++ Nat.toDigits 10 n := by
  have hsign : ¬ (n : ℤ) < 0 := not_lt.mpr (Int.natCast_nonneg n)
  simp [zeroPadded, hsign]

theorem zeroPadded_digits : (zeroPadded width n).all Char.isDigit = true := by
  rw [zeroPadded_eq, List.all_append, Bool.and_eq_true]
  refine ⟨?_, List.all_eq_true.mpr fun c hc =>
    Nat.isDigit_of_mem_toDigits (by decide) (by decide) hc⟩
  refine List.all_eq_true.mpr fun c hc => ?_
  rw [List.eq_of_mem_replicate hc]
  decide

theorem readNumber_zeroPadded : readNumber (zeroPadded width n) = some n := by
  have hne : zeroPadded width n ≠ [] := by
    rw [zeroPadded_eq]
    simp
  rw [readNumber, if_pos ⟨hne, zeroPadded_digits width n⟩, zeroPadded_eq, Nat.ofDigitChars_append,
    Nat.ofDigitChars_replicate_zero, mul_zero, Nat.ofDigitChars_ten_toDigits]

theorem splitOnce_zeroPadded {d : Char} (hd : d.isDigit = false) (rest : Text) :
    splitOnce [d] (zeroPadded width n ++ [d] ++ rest) = some (zeroPadded width n, rest) := by
  refine splitOnce_append _ rest fun hin => ?_
  rw [List.all_eq_true.mp (zeroPadded_digits width n) d hin] at hd
  cases hd

end Reading

section Exactness

theorem readTimestamp_text {year month day hour minute second : ℕ} :
    readTimestamp (zeroPadded 4 year ++ ['-'] ++ zeroPadded 2 month ++ ['-'] ++ zeroPadded 2 day ++
      ['T'] ++ zeroPadded 2 hour ++ [':'] ++ zeroPadded 2 minute ++ [':'] ++ zeroPadded 2 second ++
      ['Z']) = some ⟨⟨year, month, day⟩, hour, minute, second⟩ := by
  have hsplit : ∀ {d : Char} (width n : ℕ) (rest : Text), d.isDigit = false →
      splitOnce [d] (zeroPadded width n ++ d::rest) = some (zeroPadded width n, rest) := by
    intro d width n rest hd
    simpa using splitOnce_zeroPadded width n hd rest
  simp only [List.append_assoc, List.singleton_append]
  rw [readTimestamp]
  refine step (hsplit 4 year _ rfl) (step (hsplit 2 month _ rfl) (step (hsplit 2 day _ rfl) ?_))
  refine step (hsplit 2 hour _ rfl) (step (hsplit 2 minute _ rfl) (step (hsplit 2 second _ rfl) ?_))
  refine step (readNumber_zeroPadded 4 year) (step (readNumber_zeroPadded 2 month) ?_)
  refine step (readNumber_zeroPadded 2 day) (step (readNumber_zeroPadded 2 hour) ?_)
  exact step (readNumber_zeroPadded 2 minute) (step (readNumber_zeroPadded 2 second) rfl)

theorem date_of_seconds (seconds : UInt64) : ∃ year month day : ℕ,
    civilDateFromDays (seconds.toNat / 86400 : ℕ) = some (fields ⟨year, month, day⟩) ∧
      Date.Valid ⟨year, month, day⟩ ∧
      dayNumber ⟨year, month, day⟩ = (seconds.toNat / 86400 : ℕ) := by
  have hseconds := seconds.toNat_lt
  obtain ⟨⟨year, month, day⟩, hd, hvalid, hnumber⟩ :=
    @civilDateFromDays_valid (seconds.toNat / 86400 : ℕ) (by omega) (by omega)
  obtain ⟨y, rfl⟩ : ∃ y : ℕ, year = y := by
    refine Int.eq_ofNat_of_zero_le (not_lt.mp fun hneg => ?_)
    have hbefore := dayNumber_lt hvalid hneg
    have hzero : daysBeforeYear 0 = -366 := by decide
    omega
  exact ⟨y, month, day, hd, hvalid, hnumber⟩

/-- Every time of a `u64` has its text, which reads as a valid date and time at
that very instant. Every day in reach of the arithmetic has its date, and the
next day the date that follows. -/
theorem timestamps_exact :
    (∀ seconds : UInt64, ∃ text t, rfc3339UtcNow seconds = some text ∧
      readTimestamp text = some t ∧ t.Valid ∧ t.instant = seconds.toNat ∧
      civilDateFromDays (seconds.toNat / 86400 : ℕ) = some (fields t.date)) ∧
    (∀ days : Int64, days.toInt + 719468 < 2^63 →
      ∃ d : Date, civilDateFromDays days.toInt = some (fields d) ∧ d.Valid ∧
        dayNumber d = days.toInt ∧ (days.toInt + 719469 < 2^63 →
          civilDateFromDays (days.toInt + 1) = some (fields d.next))) ∧
    (∀ days : Int64, 2^63 ≤ days.toInt + 719468 → civilDateFromDays days.toInt = none) := by
  refine ⟨fun seconds => ?_, fun days hdays => ?_, fun days hdays => civilDateFromDays_none hdays⟩
  · obtain ⟨year, month, day, hd, hvalid, hnumber⟩ := date_of_seconds seconds
    have hseconds := seconds.toNat_lt
    have htext : rfc3339UtcNow seconds = some (zeroPadded 4 year ++ ['-'] ++ zeroPadded 2 month ++
        ['-'] ++ zeroPadded 2 day ++ ['T'] ++
        zeroPadded 2 (seconds.toNat % 86400 / 3600 : ℕ) ++ [':'] ++
        zeroPadded 2 (seconds.toNat % 86400 % 3600 / 60 : ℕ) ++ [':'] ++
        zeroPadded 2 (seconds.toNat % 86400 % 60 : ℕ) ++ ['Z']) := by
      rw [rfc3339UtcNow]
      exact step (inI64_some (by omega)) (step hd rfl)
    refine ⟨_, _, htext, readTimestamp_text, ⟨hvalid, ?_, ?_, ?_⟩, ?_, hd⟩
    · show seconds.toNat % 86400 / 3600 < 24
      omega
    · show seconds.toNat % 86400 % 3600 / 60 < 60
      omega
    · show seconds.toNat % 86400 % 60 < 60
      omega
    · simp only [Timestamp.instant, hnumber]
      omega
  · have hlow := days.le_toInt
    obtain ⟨d, hd, hvalid, hnumber⟩ := @civilDateFromDays_valid days.toInt (by omega) hdays
    refine ⟨d, hd, hvalid, hnumber, fun hnext => ?_⟩
    obtain ⟨d', hd', hvalid', hnumber'⟩ :=
      @civilDateFromDays_valid (days.toInt + 1) (by omega) (by omega)
    rw [hd', dayNumber_injective hvalid' (next_valid hvalid)
      (by rw [hnumber', dayNumber_next hvalid, hnumber])]

theorem timestamps_exact_epoch : ∃ d : Date, civilDateFromDays 0 = some (fields d) ∧ d.Valid ∧
    dayNumber d = 0 ∧ ((0 : ℤ) + 719469 < 2^63 →
      civilDateFromDays (0 + 1) = some (fields d.next)) :=
  timestamps_exact.2.1 0 (by decide)

example : rfc3339UtcNow 951782400 = some "2000-02-29T00:00:00Z".toList := by decide

end Exactness

end FaninMcp.Timestamps
