import Mathlib.Data.Int.Order.Basic
import Mathlib.Data.Prod.Lex
import Mathlib.Tactic.IntervalCases

/-!
# The proleptic Gregorian calendar

A date is a year, a month and a day; `Date.number` counts the days from the first of January
1970, which is day zero. The count is strictly monotone, so a day has one date.
-/

namespace Tributary.Lib.Calendar

/-- Every fourth year, but of the centuries every fourth only. -/
def IsLeap (y : Int) : Prop := y % 4 = 0 ∧ (y % 100 ≠ 0 ∨ y % 400 = 0)

instance : DecidablePred IsLeap := fun y =>
  inferInstanceAs (Decidable (y % 4 = 0 ∧ (y % 100 ≠ 0 ∨ y % 400 = 0)))

def yearLength (y : Int) : Int := if IsLeap y then 366 else 365

/-- The months are counted from one. -/
def monthLength (y : Int) : Nat → Int
  | 2 => if IsLeap y then 29 else 28
  | 4 => 30
  | 6 => 30
  | 9 => 30
  | 11 => 30
  | _ => 31

structure Date where
  year : Int
  month : Nat
  day : Int
deriving DecidableEq, Repr

/-- A date of the calendar. -/
structure Date.Valid (d : Date) : Prop where
  month : 1 ≤ d.month ∧ d.month ≤ 12
  day : 1 ≤ d.day ∧ d.day ≤ monthLength d.year d.month

/-! ## Counting days -/

/-- The days from the first of January 1970 to that of `y`. -/
def yearStart (y : Int) : Int :=
  365 * (y - 1970) + ((y - 1) / 4 - (y - 1) / 100 + (y - 1) / 400) - 477

/-- The days of the year before the month. -/
def monthStart (y : Int) : Nat → Int
  | 0 => 0
  | 1 => 0
  | m + 2 => monthStart y (m + 1) + monthLength y (m + 1)

/-- The days from the first of January 1970. -/
def Date.number (d : Date) : Int := yearStart d.year + monthStart d.year d.month + (d.day - 1)

theorem yearStart_epoch : yearStart 1970 = 0 := by decide

/-- A year begins where the one before it ends. -/
theorem yearStart_succ (y : Int) : yearStart (y + 1) = yearStart y + yearLength y := by
  unfold yearStart yearLength IsLeap
  have h4 : y / 4 = (y - 1) / 4 + if y % 4 = 0 then 1 else 0 := by
    split <;> omega
  have h100 : y / 100 = (y - 1) / 100 + if y % 100 = 0 then 1 else 0 := by
    split <;> omega
  have h400 : y / 400 = (y - 1) / 400 + if y % 400 = 0 then 1 else 0 := by
    split <;> omega
  rw [Int.add_sub_cancel, h4, h100, h400]
  split_ifs <;> omega

theorem monthStart_thirteen (y : Int) : monthStart y 13 = yearLength y := by
  simp only [monthStart, monthLength, yearLength]
  split <;> rfl

/-! ## Order -/

/-- Earlier in the calendar. -/
def Date.Before (d e : Date) : Prop :=
  d.year < e.year ∨ d.year = e.year ∧
    (d.month < e.month ∨ d.month = e.month ∧ d.day < e.day)

variable {d e : Date}

theorem yearLength_pos (y : Int) : 0 < yearLength y := by
  unfold yearLength
  split <;> decide

theorem monthLength_pos (y : Int) (m : Nat) : 0 < monthLength y m := by
  unfold monthLength
  split <;> try decide
  split <;> decide

theorem yearStart_mono {y z : Int} (h : y ≤ z) : yearStart y ≤ yearStart z := by
  obtain ⟨n, rfl⟩ := Int.le.dest h
  induction n with
  | zero => simp
  | succ n ih =>
      have hn := yearStart_succ (y + n)
      have hpos := yearLength_pos (y + n)
      have ih := ih (Int.le_add_of_nonneg_right (Int.natCast_nonneg n))
      rw [Int.natCast_succ, ← Int.add_assoc]
      omega

theorem monthStart_succ {y : Int} {m : Nat} (h : 1 ≤ m) :
    monthStart y (m + 1) = monthStart y m + monthLength y m := by
  obtain ⟨m, rfl⟩ := Nat.exists_eq_add_of_le' h
  rfl

theorem monthStart_mono {y : Int} {m n : Nat} (hm : 1 ≤ m) (h : m ≤ n) :
    monthStart y m ≤ monthStart y n := by
  induction n, h using Nat.le_induction with
  | base => exact Int.le_refl _
  | succ n hn ih =>
      rw [monthStart_succ (hm.trans hn)]
      have := monthLength_pos y n
      omega

/-- A date lies in its month. -/
theorem Date.Valid.number_month (h : d.Valid) :
    yearStart d.year + monthStart d.year d.month ≤ d.number ∧
      d.number < yearStart d.year + monthStart d.year (d.month + 1) := by
  have hday := h.day
  rw [monthStart_succ h.month.1, Date.number]
  omega

/-- A date lies in its year. -/
theorem Date.Valid.number_year (h : d.Valid) :
    yearStart d.year ≤ d.number ∧ d.number < yearStart (d.year + 1) := by
  have hmonth := h.number_month
  have hfirst := monthStart_mono (y := d.year) (Nat.le_refl 1) h.month.1
  have hlast := monthStart_mono (y := d.year) (show 1 ≤ d.month + 1 by omega)
    (show d.month + 1 ≤ 13 by have := h.month.2; omega)
  rw [monthStart_thirteen] at hlast
  rw [yearStart_succ]
  have hzero : monthStart d.year 1 = 0 := rfl
  omega

/-- **The count is strictly monotone.** -/
theorem Date.Before.number_lt (hd : d.Valid) (he : e.Valid) (h : d.Before e) :
    d.number < e.number := by
  rcases h with hyear | ⟨hyear, hmonth | ⟨hmonth, hday⟩⟩
  · have hmono := yearStart_mono (show d.year + 1 ≤ e.year from hyear)
    have := hd.number_year
    have := he.number_year
    omega
  · have hmono := monthStart_mono (y := d.year) (show 1 ≤ d.month + 1 by omega)
      (show d.month + 1 ≤ e.month from hmonth)
    have := hd.number_month
    have := he.number_month
    rw [← hyear] at this
    omega
  · rw [Date.number, Date.number, ← hyear, ← hmonth]
    omega

theorem Date.trichotomy (d e : Date) : d.Before e ∨ d = e ∨ e.Before d := by
  obtain ⟨y, m, a⟩ := d
  obtain ⟨y', m', a'⟩ := e
  simp only [Date.Before, Date.mk.injEq]
  omega

theorem Date.before_iff (hd : d.Valid) (he : e.Valid) : d.Before e ↔ d.number < e.number := by
  refine ⟨fun h => h.number_lt hd he, fun h => ?_⟩
  rcases Date.trichotomy d e with hbefore | rfl | hafter
  · exact hbefore
  · exact absurd h (Int.lt_irrefl _)
  · exact absurd (hafter.number_lt he hd) (by omega)

/-- A day has one date. -/
theorem Date.number_inj (hd : d.Valid) (he : e.Valid) (h : d.number = e.number) : d = e := by
  rcases Date.trichotomy d e with hbefore | rfl | hafter
  · exact absurd (hbefore.number_lt hd he) (by omega)
  · rfl
  · exact absurd (hafter.number_lt he hd) (by omega)

/-! ## Years that begin in March -/

/-- The day before the first of March. -/
theorem yearStart_march (y : Int) : yearStart y + monthStart y 3 = yearStart (y + 1) - 306 := by
  rw [yearStart_succ]
  simp only [monthStart, monthLength, yearLength]
  split <;> omega

end Tributary.Lib.Calendar
