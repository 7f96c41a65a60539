import Mathlib.Logic.Function.Iterate

/-!
# The proleptic Gregorian calendar

* `IsLeap`, `monthLength` — the rules of the calendar.
* `Date`, `next`, `prev` — its dates, and the day after and the day before one.
* `Date.ofDay` — the date so many days from 1970-01-01.
-/

namespace Calendar

/-- Every fourth year, but of the hundreds only every fourth. -/
def IsLeap (year : Int) : Prop := year % 4 = 0 ∧ (year % 100 = 0 → year % 400 = 0)

instance (year : Int) : Decidable (IsLeap year) := inferInstanceAs (Decidable (_ ∧ _))

/-- The days of a month. -/
def monthLength (year month : Int) : Int :=
  if month = 2 then if IsLeap year then 29 else 28
  else if month = 4 ∨ month = 6 ∨ month = 9 ∨ month = 11 then 30
  else 31

theorem monthLength_pos (year month : Int) : 1 ≤ monthLength year month := by
  unfold monthLength
  repeat' split
  all_goals decide

theorem monthLength_le (year month : Int) : monthLength year month ≤ 31 := by
  unfold monthLength
  repeat' split
  all_goals decide

theorem monthLength_december (year : Int) : monthLength year 12 = 31 := rfl

/-- A day of a month of a year. -/
structure Valid (year month day : Int) : Prop where
  month_pos : 1 ≤ month
  month_le : month ≤ 12
  day_pos : 1 ≤ day
  day_le : day ≤ monthLength year month

/-- A date. -/
@[ext] structure Date where
  year : Int
  month : Int
  day : Int
  valid : Valid year month day

namespace Date

/-- 1970-01-01. -/
def epoch : Date := ⟨1970, 1, 1, by decide, by decide, by decide, by decide⟩

/-- The day after. -/
def next (d : Date) : Date :=
  if hday : d.day < monthLength d.year d.month then
    ⟨d.year, d.month, d.day + 1,
      { d.valid with
        day_pos := by have := d.valid.day_pos; omega
        day_le := hday }⟩
  else if hmonth : d.month < 12 then
    ⟨d.year, d.month + 1, 1,
      { month_pos := by have := d.valid.month_pos; omega
        month_le := hmonth
        day_pos := by decide
        day_le := monthLength_pos _ _ }⟩
  else
    ⟨d.year + 1, 1, 1,
      { month_pos := by decide
        month_le := by decide
        day_pos := by decide
        day_le := monthLength_pos _ _ }⟩

/-- The day before. -/
def prev (d : Date) : Date :=
  if hday : 1 < d.day then
    ⟨d.year, d.month, d.day - 1,
      { d.valid with
        day_pos := by omega
        day_le := by have := d.valid.day_le; omega }⟩
  else if hmonth : 1 < d.month then
    ⟨d.year, d.month - 1, monthLength d.year (d.month - 1),
      { month_pos := by omega
        month_le := by have := d.valid.month_le; omega
        day_pos := monthLength_pos _ _
        day_le := Int.le_refl _ }⟩
  else
    ⟨d.year - 1, 12, 31,
      { month_pos := by decide
        month_le := by decide
        day_pos := by decide
        day_le := Int.le_refl _ }⟩

/-- The day after the day before. -/
theorem next_prev (d : Date) : d.prev.next = d := by
  obtain ⟨y, m, d, hvalid⟩ := d
  rw [prev]
  split
  next hday =>
    have hle := hvalid.day_le
    rw [next, dif_pos (by simp only; omega)]
    ext <;> simp
  next hday =>
    obtain rfl : d = 1 := Int.le_antisymm (Int.not_lt.1 hday) hvalid.day_pos
    split
    next hmonth =>
      have hle := hvalid.month_le
      rw [next, dif_neg (Int.lt_irrefl _), dif_pos (by simp only; omega)]
      ext <;> simp
    next hmonth =>
      obtain rfl : m = 1 := Int.le_antisymm (Int.not_lt.1 hmonth) hvalid.month_pos
      have hlast : ¬ 31 < monthLength (y - 1) 12 := by
        rw [monthLength_december]
        decide
      rw [next, dif_neg hlast, dif_neg (Int.lt_irrefl _)]
      ext <;> simp

/-- The date so many days after 1970-01-01. -/
def ofDay : Int → Date
  | .ofNat n => next^[n] epoch
  | .negSucc n => prev^[n + 1] epoch

end Date

end Calendar
