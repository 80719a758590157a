import Mathlib.Algebra.GroupWithZero.Nat
import Mathlib.Data.List.Basic
import Mathlib.Logic.Function.Basic

namespace Calendar

/-- The stretch that a number falls into when stretches of these lengths lie one behind the other,
and how far into it. -/
def locate : List Nat → Nat → Nat × Nat
  | [], d => (0, d)
  | n :: lengths, d =>
    if d < n then (0, d) else ((locate lengths (d - n)).1 + 1, (locate lengths (d - n)).2)

theorem locate_sum (lengths : List Nat) (d : Nat) :
    (lengths.take (locate lengths d).1).sum + (locate lengths d).2 = d := by
  induction lengths generalizing d with
  | nil => exact Nat.zero_add d
  | cons n lengths ih =>
    rw [locate]
    split
    next => exact Nat.zero_add d
    next h =>
      have hrest := ih (d - n)
      rw [List.take_succ_cons, List.sum_cons]
      omega

theorem locate_le (lengths : List Nat) (d : Nat) : (locate lengths d).1 ≤ lengths.length := by
  induction lengths generalizing d with
  | nil => exact Nat.le_refl 0
  | cons n lengths ih =>
    have hrest := ih (d - n)
    rw [locate, List.length_cons]
    split
    next => omega
    next => omega

def leap (year : Nat) : Bool := year % 4 = 0 && (year % 100 ≠ 0 || year % 400 = 0)

def monthLengths (year : Nat) : List Nat :=
  [31, if leap year then 29 else 28, 31, 30, 31, 30, 31, 31, 30, 31, 30, 31]

/-- A date of the Gregorian calendar; the months and days are counted from 0. -/
@[ext]
structure Date where
  year : Nat
  month : Nat
  day : Nat
deriving DecidableEq, Repr

/-- The lengths of so many years from 1970 on. -/
def yearLengths (n : Nat) : List Nat := (List.range n).map fun i => (monthLengths (1970 + i)).sum

/-- The date so many days after 1970-01-01. -/
def date (d : Nat) : Date :=
  let year := locate (yearLengths (d + 1)) d
  let month := locate (monthLengths (1970 + year.1)) year.2
  ⟨1970 + year.1, month.1, month.2⟩

theorem date_year_ge (d : Nat) : 1970 ≤ (date d).year := by
  unfold date
  exact Nat.le_add_right 1970 _

/-- The days from 1970-01-01 to a date. -/
def dayNumber (date : Date) : Nat :=
  (yearLengths (date.year - 1970)).sum + ((monthLengths date.year).take date.month).sum + date.day

theorem take_yearLengths {k n : Nat} (h : k ≤ n) : (yearLengths n).take k = yearLengths k := by
  unfold yearLengths
  rw [← List.map_take, List.take_range, Nat.min_eq_left h]

theorem dayNumber_date (d : Nat) : dayNumber (date d) = d := by
  have hyear := locate_sum (yearLengths (d + 1)) d
  have hle := locate_le (yearLengths (d + 1)) d
  have hlength : (yearLengths (d + 1)).length = d + 1 := by
    rw [yearLengths, List.length_map, List.length_range]
  have hmonth := locate_sum (monthLengths (1970 + (locate (yearLengths (d + 1)) d).1))
    (locate (yearLengths (d + 1)) d).2
  rw [hlength] at hle
  rw [take_yearLengths hle] at hyear
  unfold dayNumber date
  simp only [Nat.add_sub_cancel_left]
  omega

/-- No two days have one date. -/
theorem date_injective : Function.Injective date :=
  Function.LeftInverse.injective dayNumber_date

example : date 19782 = ⟨2024, 1, 28⟩ := by decide +kernel

end Calendar
