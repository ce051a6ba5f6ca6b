import Mathlib.Data.List.Range
import Mathlib.Data.Int.Notation
import Mathlib.Tactic.IntervalCases

/-!
# The Gregorian calendar

Dates in the calendar as it is extended to all years, the day that follows a
date, and the number of a day counted from the first of January 1970. Valid
dates are numbered without gaps, and no two of them have the same number.
-/

set_option autoImplicit false

namespace Foundation.GregorianCalendar

def isLeap (year : ℤ) : Bool :=
  year % 4 = 0 && (year % 100 ≠ 0 || year % 400 = 0)

theorem isLeap_iff {year : ℤ} :
    isLeap year = true ↔ year % 4 = 0 ∧ (year % 100 ≠ 0 ∨ year % 400 = 0) := by
  simp [isLeap]

def monthLength (leap : Bool) (month : ℕ) : ℕ :=
  if month = 2 then 28 + leap.toNat
  else if month = 4 ∨ month = 6 ∨ month = 9 ∨ month = 11 then 30
  else 31

structure Date where
  year : ℤ
  month : ℕ
  day : ℕ
  deriving DecidableEq

structure Date.Valid (d : Date) : Prop where
  month_pos : 1 ≤ d.month
  month_le : d.month ≤ 12
  day_pos : 1 ≤ d.day
  day_le : d.day ≤ monthLength (isLeap d.year) d.month

def Date.next (d : Date) : Date :=
  if d.day < monthLength (isLeap d.year) d.month then ⟨d.year, d.month, d.day+1⟩
  else if d.month < 12 then ⟨d.year, d.month+1, 1⟩
  else ⟨d.year+1, 1, 1⟩

section Numbering

def daysBeforeYear (year : ℤ) : ℤ :=
  365 * (year-1) + (year-1) / 4 - (year-1) / 100 + (year-1) / 400

def daysBeforeMonth (leap : Bool) (month : ℕ) : ℕ :=
  ((List.range' 1 (month-1)).map (monthLength leap)).sum

def Date.dayOfYear (d : Date) : ℕ := daysBeforeMonth (isLeap d.year) d.month + d.day - 1

def dayNumber (d : Date) : ℤ := daysBeforeYear d.year + d.dayOfYear - 719162

example : dayNumber ⟨1970, 1, 1⟩ = 0 := by decide

theorem daysBeforeYear_succ (year : ℤ) :
    daysBeforeYear (year+1) = daysBeforeYear year + 365 + (isLeap year).toNat := by
  by_cases h : isLeap year = true
  · have hleap := isLeap_iff.mp h
    simp only [h, daysBeforeYear, Bool.toNat_true]
    omega
  · have hleap := mt isLeap_iff.mpr h
    simp only [h, daysBeforeYear, Bool.toNat_false]
    omega

theorem daysBeforeYear_mono {a b : ℤ} (h : a ≤ b) : daysBeforeYear a ≤ daysBeforeYear b := by
  have hcenturies : (b-1) / 100 - (a-1) / 100 ≤ b - a := by omega
  simp only [daysBeforeYear]
  omega

theorem monthLength_bounds (leap : Bool) (month : ℕ) :
    1 ≤ monthLength leap month ∧ monthLength leap month ≤ 31 := by
  cases leap <;> rw [monthLength] <;> split_ifs <;> decide

theorem daysBeforeMonth_succ (leap : Bool) {month : ℕ} (h : 1 ≤ month) :
    daysBeforeMonth leap (month+1) = daysBeforeMonth leap month + monthLength leap month := by
  obtain ⟨m, rfl⟩ := Nat.exists_eq_add_of_le' h
  simp [daysBeforeMonth, List.range'_concat, Nat.add_comm]

theorem daysBeforeMonth_mono (leap : Bool) {m n : ℕ} (h : m ≤ n) :
    daysBeforeMonth leap m ≤ daysBeforeMonth leap n := by
  induction n, h using Nat.le_induction with
  | base => exact le_rfl
  | succ n _ ih =>
    rcases Nat.eq_zero_or_pos n with rfl | hn
    · exact ih
    · rw [daysBeforeMonth_succ leap hn]
      omega

theorem daysBeforeMonth_end (leap : Bool) : daysBeforeMonth leap 13 = 365 + leap.toNat := by
  cases leap <;> decide

theorem dayOfYear_month {d : Date} (h : d.Valid) :
    daysBeforeMonth (isLeap d.year) d.month ≤ d.dayOfYear ∧
      d.dayOfYear < daysBeforeMonth (isLeap d.year) (d.month+1) := by
  have hpos := h.day_pos
  have hle := h.day_le
  rw [daysBeforeMonth_succ _ h.month_pos, Date.dayOfYear]
  omega

theorem dayOfYear_lt {d : Date} (h : d.Valid) : d.dayOfYear < 365 + (isLeap d.year).toNat := by
  have hend := daysBeforeMonth_mono (isLeap d.year) (show d.month+1 ≤ 13 from by
    have := h.month_le
    omega)
  rw [daysBeforeMonth_end] at hend
  exact lt_of_lt_of_le (dayOfYear_month h).2 hend

theorem next_valid {d : Date} (h : d.Valid) : d.next.Valid := by
  have hpos := h.month_pos
  have hle := h.month_le
  rw [Date.next]
  split_ifs with hday hmonth
  · exact ⟨hpos, hle, by simp, hday⟩
  · exact ⟨by simp, Nat.succ_le_of_lt hmonth, le_rfl, (monthLength_bounds _ _).1⟩
  · exact ⟨le_rfl, by simp, le_rfl, (monthLength_bounds _ _).1⟩

theorem dayNumber_next {d : Date} (h : d.Valid) : dayNumber d.next = dayNumber d + 1 := by
  have hpos := h.day_pos
  have hle := h.day_le
  rw [Date.next]
  split_ifs with hday hmonth
  · simp only [dayNumber, Date.dayOfYear]
    omega
  · have hsucc := daysBeforeMonth_succ (isLeap d.year) h.month_pos
    simp only [dayNumber, Date.dayOfYear]
    omega
  · have hdecember : d.month = 12 := by
      have := h.month_le
      omega
    have hsucc : daysBeforeMonth (isLeap d.year) 13 = daysBeforeMonth (isLeap d.year) 12 +
        monthLength (isLeap d.year) 12 := daysBeforeMonth_succ _ (by decide)
    have hend := daysBeforeMonth_end (isLeap d.year)
    have hyear := daysBeforeYear_succ d.year
    have hfirst : daysBeforeMonth (isLeap (d.year+1)) 1 = 0 := rfl
    rw [hdecember] at hle hday
    simp only [dayNumber, Date.dayOfYear, hdecember, hfirst]
    omega

theorem dayNumber_lt {d : Date} (h : d.Valid) {year : ℤ} (hyear : d.year < year) :
    dayNumber d < daysBeforeYear year - 719162 := by
  have hmono := daysBeforeYear_mono (show d.year+1 ≤ year from hyear)
  have hbound := dayOfYear_lt h
  rw [daysBeforeYear_succ] at hmono
  simp only [dayNumber]
  omega

theorem dayNumber_injective {d e : Date} (hd : d.Valid) (he : e.Valid)
    (h : dayNumber d = dayNumber e) : d = e := by
  have hyears : ∀ {a b : Date}, a.Valid → dayNumber a = dayNumber b → ¬ a.year < b.year := by
    intro a b ha hab hlt
    have hbefore := dayNumber_lt ha hlt
    simp only [dayNumber] at hab hbefore
    omega
  have hmonths : ∀ {a b : Date}, a.Valid → b.Valid → a.year = b.year → a.dayOfYear = b.dayOfYear →
      ¬ a.month < b.month := by
    intro a b ha hb hyear hday hlt
    have hmono := daysBeforeMonth_mono (isLeap a.year) (show a.month+1 ≤ b.month from hlt)
    have hfrom := (dayOfYear_month hb).1
    have hto := (dayOfYear_month ha).2
    rw [hyear] at hmono hto
    omega
  have hyear : d.year = e.year :=
    le_antisymm (not_lt.mp (hyears he h.symm)) (not_lt.mp (hyears hd h))
  have hdayOfYear : d.dayOfYear = e.dayOfYear := by
    simp only [dayNumber, hyear] at h
    omega
  have hmonth : d.month = e.month :=
    le_antisymm (not_lt.mp (hmonths he hd hyear.symm hdayOfYear.symm))
      (not_lt.mp (hmonths hd he hyear hdayOfYear))
  have hday : d.day = e.day := by
    have hdpos := hd.day_pos
    have hepos := he.day_pos
    simp only [Date.dayOfYear, hyear, hmonth] at hdayOfYear
    omega
  cases d
  cases e
  simp_all

end Numbering

end Foundation.GregorianCalendar
