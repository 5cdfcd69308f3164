import Mathlib.Tactic

/-!
# The proleptic Gregorian calendar

Dates of any year and their numbers: consecutive dates have consecutive numbers.
The years of the numbers begin in March, so that the leap day ends one.
-/

namespace Rustqlite.Foundation

def isLeap (y : Int) : Bool := y % 4 = 0 ∧ (y % 100 ≠ 0 ∨ y % 400 = 0)

def monthLength (y m : Int) : Int :=
  if m = 2 then if isLeap y then 29 else 28
  else if m = 4 ∨ m = 6 ∨ m = 9 ∨ m = 11 then 30
  else 31

structure Date where
  year : Int
  month : Int
  day : Int
  month_pos : 1 ≤ month
  month_le : month ≤ 12
  day_pos : 1 ≤ day
  day_le : day ≤ monthLength year month
  deriving DecidableEq

def marchYear (y m : Int) : Int := if m ≤ 2 then y - 1 else y

def marchMonth (m : Int) : Int := if m ≤ 2 then m + 12 else m

def daysBefore (month : Int) : Int := 306001 * (month + 1) / 10000

def dayNumber (y m d : Int) : Int :=
  365 * marchYear y m + marchYear y m / 4 - marchYear y m / 100 + marchYear y m / 400 +
    daysBefore (marchMonth m) + d + 1720997

theorem isLeap_iff (y : Int) :
    isLeap y = true ↔ y % 4 = 0 ∧ (y % 100 ≠ 0 ∨ y % 400 = 0) := by
  simp [isLeap]

theorem monthLength_le (y m : Int) : monthLength y m ≤ 31 := by
  unfold monthLength
  split_ifs <;> norm_num

theorem le_monthLength (y m : Int) : 28 ≤ monthLength y m := by
  unfold monthLength
  split_ifs <;> norm_num

theorem one_le_monthLength (y m : Int) : 1 ≤ monthLength y m := by
  have := le_monthLength y m
  omega

theorem dayNumber_add (y m d k : Int) : dayNumber y m (d + k) = dayNumber y m d + k := by
  simp only [dayNumber]
  ring

theorem dayNumber_month {y m : Int} (hpos : 1 ≤ m) (hlt : m < 12) :
    dayNumber y (m + 1) 1 = dayNumber y m (monthLength y m) + 1 := by
  have hleap := isLeap_iff y
  obtain rfl | rfl | hother : m = 1 ∨ m = 2 ∨ 2 < m := by omega
  · norm_num [dayNumber, marchYear, marchMonth, daysBefore, monthLength]
    ring
  · cases h : isLeap y <;>
      norm_num [dayNumber, marchYear, marchMonth, daysBefore, monthLength, h] at hleap ⊢ <;> omega
  · have hm : ¬m ≤ 2 := by omega
    have hm' : ¬m + 1 ≤ 2 := by omega
    simp only [dayNumber, marchYear, marchMonth, if_neg hm, if_neg hm']
    have hdays : daysBefore (m + 1) = daysBefore m + monthLength y m := by
      interval_cases m <;> norm_num [daysBefore, monthLength]
    omega

theorem dayNumber_year (y : Int) : dayNumber (y + 1) 1 1 = dayNumber y 12 31 + 1 := by
  norm_num [dayNumber, marchYear, marchMonth, daysBefore]
  ring

def shiftedYear (y m n : Int) : Int := y + (m + n - 1) / 12

def shiftedMonth (m n : Int) : Int := (m + n - 1) % 12 + 1

namespace Date

def number (D : Date) : Int := dayNumber D.year D.month D.day

theorem monthLength_december (y : Int) : monthLength y 12 = 31 := by
  simp [monthLength]

theorem one_le_twelve : (1 : Int) ≤ 12 := by norm_num

def next (D : Date) : Date :=
  if hday : D.day < monthLength D.year D.month then
    { D with day := D.day + 1, day_pos := Int.le_add_one D.day_pos, day_le := hday }
  else if hmonth : D.month < 12 then
    { year := D.year
      month := D.month + 1
      day := 1
      month_pos := Int.le_add_one D.month_pos
      month_le := hmonth
      day_pos := le_rfl
      day_le := one_le_monthLength D.year (D.month + 1) }
  else
    { year := D.year + 1
      month := 1
      day := 1
      month_pos := le_rfl
      month_le := one_le_twelve
      day_pos := le_rfl
      day_le := one_le_monthLength (D.year + 1) 1 }

theorem number_next (D : Date) : D.next.number = D.number + 1 := by
  have hlast : ¬D.day < monthLength D.year D.month → D.day = monthLength D.year D.month := by
    have := D.day_le
    omega
  unfold next
  split
  · exact dayNumber_add D.year D.month D.day 1
  · rename_i hday
    split
    · rename_i hmonth
      rw [number, number, hlast hday]
      exact dayNumber_month D.month_pos hmonth
    · rename_i hmonth
      have hdec : D.month = 12 := by
        have := D.month_le
        omega
      rw [number, number, hlast hday, hdec, monthLength_december]
      exact dayNumber_year D.year

theorem shiftedMonth_pos (m n : Int) : 1 ≤ shiftedMonth m n := by
  unfold shiftedMonth
  omega

theorem shiftedMonth_le (m n : Int) : shiftedMonth m n ≤ 12 := by
  unfold shiftedMonth
  omega

def addMonths (D : Date) (n : Int) : Date where
  year := shiftedYear D.year D.month n
  month := shiftedMonth D.month n
  day := min D.day (monthLength (shiftedYear D.year D.month n) (shiftedMonth D.month n))
  month_pos := shiftedMonth_pos D.month n
  month_le := shiftedMonth_le D.month n
  day_pos := le_min D.day_pos (one_le_monthLength _ _)
  day_le := min_le_right _ _

end Date

end Rustqlite.Foundation
