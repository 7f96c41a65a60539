import NapiVm.Lib.Calendar
import Mathlib.Algebra.Group.Int.Defs

/-!
# Days and civil dates

The arithmetic of the `Date` builtin.  What a type of so many bits does not hold overflows.

* `civilFromDays`, `daysFromCivil` — from a day to its date, and back.
* `dayNumber` — the day of a date, by the rules of the calendar.
* `civil_exact` — the two are exact and inverse, and nothing overflows.
-/

namespace NapiVm.CivilDays

open Calendar

/-! ## The arithmetic -/

/-- A value of a signed type of so many bits. -/
def fits (bits : Nat) (x : Int) : Option Int :=
  if -2 ^ (bits - 1) ≤ x ∧ x < 2 ^ (bits - 1) then some x else none

abbrev i64 : Int → Option Int := fits 64

abbrev i128 : Int → Option Int := fits 128

/-- `civil_from_days`, each operation with its result in a type. -/
def civilFromDays (fit : Int → Option Int) (z : Int) : Option (Int × Int × Int) := do
  let z ← fit (z + 719468)
  let n ← fit (if 0 ≤ z then z else z - 146096)
  let era := n.tdiv 146097
  let doe ← fit (z - (← fit (era * 146097)))
  let yoe := (← fit ((← fit ((← fit (doe - doe.tdiv 1460)) + doe.tdiv 36524)) -
    doe.tdiv 146096)).tdiv 365
  let y ← fit (yoe + (← fit (era * 400)))
  let doy ← fit (doe - (← fit ((← fit ((← fit (365 * yoe)) + yoe.tdiv 4)) - yoe.tdiv 100)))
  let mp := (← fit ((← fit (5 * doy)) + 2)).tdiv 153
  let d ← fit ((← fit (doy - (← fit ((← fit (153 * mp)) + 2)).tdiv 5)) + 1)
  let m ← fit (if mp < 10 then mp + 3 else mp - 9)
  return (← fit (y + if m ≤ 2 then 1 else 0), m, d)

/-- `days_from_civil`. -/
def daysFromCivil (fit : Int → Option Int) (y m d : Int) : Option Int := do
  let y ← fit (y - if m ≤ 2 then 1 else 0)
  let n ← fit (if 0 ≤ y then y else y - 399)
  let era := n.tdiv 400
  let yoe ← fit (y - (← fit (era * 400)))
  let mshift ← fit (m + if m > 2 then -3 else 9)
  let doy ← fit ((← fit ((← fit ((← fit (153 * mshift)) + 2)).tdiv 5 + d)) - 1)
  let doe ← fit ((← fit ((← fit ((← fit (yoe * 365)) + yoe.tdiv 4)) - yoe.tdiv 100)) + doy)
  fit ((← fit ((← fit (era * 146097)) + doe)) - 719468)

/-! ## The day of a date -/

/-- The days before a month, in a year that begins with March. -/
def monthStart (m : Int) : Int := (153 * (m + if m > 2 then -3 else 9) + 2).tdiv 5

/-- The days before March of a year. -/
def yearStart (year : Int) : Int := 365 * year + year / 4 - year / 100 + year / 400

/-- The days from 1970-01-01 to a date. -/
def dayNumber (y m d : Int) : Int :=
  yearStart (y - if m ≤ 2 then 1 else 0) + monthStart m + d - 1 - 719468

theorem dayNumber_day (y m d : Int) : dayNumber y m d = dayNumber y m 1 + d - 1 := by
  unfold dayNumber
  omega

theorem dayNumber_month {m : Int} (y : Int) (hpos : 1 ≤ m) (hlt : m < 12) :
    dayNumber y (m + 1) 1 = dayNumber y m 1 + monthLength y m := by
  have hm : m = 1 ∨ m = 2 ∨ m = 3 ∨ m = 4 ∨ m = 5 ∨ m = 6 ∨ m = 7 ∨ m = 8 ∨ m = 9 ∨ m = 10 ∨
      m = 11 := by omega
  simp only [dayNumber, yearStart, monthLength, IsLeap]
  rcases hm with rfl | rfl | rfl | rfl | rfl | rfl | rfl | rfl | rfl | rfl | rfl
  all_goals
    simp [monthStart]
    omega

theorem dayNumber_year (y : Int) : dayNumber (y + 1) 1 1 = dayNumber y 12 31 + 1 := by
  simp only [dayNumber, yearStart]
  simp [monthStart]
  omega

/-- The day of a date. -/
def number (d : Date) : Int := dayNumber d.year d.month d.day

theorem number_next (d : Date) : number d.next = number d + 1 := by
  obtain ⟨y, m, d, hvalid⟩ := d
  have hday := dayNumber_day y m d
  rw [Date.next]
  split
  next =>
    have hnext := dayNumber_day y m (d + 1)
    simp only [number]
    omega
  next hlast =>
    have hend : d = monthLength y m := Int.le_antisymm hvalid.day_le (Int.not_lt.1 hlast)
    split
    next hmonth =>
      have hnext := dayNumber_month y hvalid.month_pos hmonth
      simp only [number]
      omega
    next hmonth =>
      obtain rfl : m = 12 := Int.le_antisymm hvalid.month_le (Int.not_lt.1 hmonth)
      have hnext := dayNumber_year y
      rw [monthLength_december] at hend
      rw [← hend] at hnext
      exact hnext

theorem number_prev (d : Date) : number d.prev = number d - 1 := by
  have hnext := number_next d.prev
  rw [Date.next_prev] at hnext
  omega

theorem number_ofDay (z : Int) : number (Date.ofDay z) = z := by
  cases z with
  | ofNat n =>
    rw [Date.ofDay]
    induction n with
    | zero => rfl
    | succ n ih =>
      rw [Function.iterate_succ_apply', number_next, ih]
      rfl
  | negSucc n =>
    rw [Date.ofDay]
    induction n with
    | zero => rfl
    | succ n ih =>
      rw [Function.iterate_succ_apply', number_prev, ih]
      rfl

/-! ## What the arithmetic gives -/

/-- A type that holds the values of a range. -/
def Holds (fit : Int → Option Int) (lo hi : Int) : Prop := ∀ x, lo ≤ x → x ≤ hi → fit x = some x

theorem holds_fits (bits : Nat) : Holds (fits bits) (-2 ^ (bits - 1)) (2 ^ (bits - 1) - 1) :=
  fun _ hlo hhi => if_pos ⟨hlo, Int.lt_of_le_sub_one hhi⟩

theorem holds_some (lo hi : Int) : Holds some lo hi := fun _ _ _ => rfl

section

variable {fit : Int → Option Int} {lo hi : Int}

theorem Holds.bind {α : Type} (h : Holds fit lo hi) {x : Int} (hlo : lo ≤ x) (hhi : x ≤ hi)
    (f : Int → Option α) : (fit x >>= f) = f x := by
  rw [h x hlo hhi]
  rfl

/-- A truncating division that is adjusted for what is negative. -/
theorem tdiv_era {k : Int} (hk : 0 < k) (x : Int) :
    (if 0 ≤ x then x else x - (k - 1)).tdiv k = x / k := by
  split
  next h => exact Int.tdiv_eq_ediv_of_nonneg h
  next h =>
    have hmod := Int.emod_nonneg x (Int.ne_of_gt hk)
    have hlt := Int.emod_lt_of_pos x hk
    have hsum := Int.mul_ediv_add_emod x k
    have hneg : -(x - (k - 1)) = k - 1 - x % k + k * -(x / k) := by
      rw [Int.mul_neg]
      omega
    rw [← Int.neg_neg (x - (k - 1)), Int.neg_tdiv, Int.tdiv_eq_ediv_of_nonneg (by omega), hneg,
      Int.add_mul_ediv_left _ _ (Int.ne_of_gt hk), Int.ediv_eq_zero_of_lt (by omega) (by omega),
      Int.zero_add, Int.neg_neg]

theorem monthStart_le (m : Int) : (monthStart m).natAbs ≤ 31 * m.natAbs + 300 := by
  have hdiv : ∀ x : Int, (x.tdiv 5).natAbs = x.natAbs / 5 := fun x => Int.natAbs_tdiv x 5
  rw [monthStart, hdiv]
  split <;> omega

/-- Whatever the month and the day are. -/
theorem daysFromCivil_eq (h : Holds fit lo hi) {y m d : Int}
    (hlo : lo ≤ -1000000 * (y.natAbs + m.natAbs + d.natAbs + 1))
    (hhi : 1000000 * (y.natAbs + m.natAbs + d.natAbs + 1) ≤ hi) :
    daysFromCivil fit y m d = some (dayNumber y m d) := by
  have hmonth := monthStart_le m
  obtain ⟨b, hb⟩ : ∃ b : Int, b = y.natAbs + m.natAbs + d.natAbs + 1 := ⟨_, rfl⟩
  rw [← hb] at hlo hhi
  obtain ⟨year, hyear⟩ : ∃ year, year = y - if m ≤ 2 then 1 else 0 := ⟨_, rfl⟩
  obtain ⟨mshift, hmshift⟩ : ∃ mshift, mshift = m + if m > 2 then -3 else 9 := ⟨_, rfl⟩
  have hyearle : -b ≤ year ∧ year ≤ b := by
    split at hyear <;> omega
  have hmshiftle : -3 * b ≤ mshift ∧ mshift ≤ 10 * b := by
    split at hmshift <;> omega
  have hdle : -b ≤ d ∧ d ≤ b := by omega
  have hstart : -400 * b ≤ monthStart m ∧ monthStart m ≤ 400 * b := by omega
  have hpos : 1 ≤ b := by omega
  have hera : (if 0 ≤ year then year else year - 399).tdiv 400 = year / 400 :=
    tdiv_era (k := 400) (by decide) year
  have hn : -400 * b ≤ (if 0 ≤ year then year else year - 399) ∧
      (if 0 ≤ year then year else year - 399) ≤ b := by
    split <;> omega
  have hmonthStart : monthStart m = (153 * mshift + 2).tdiv 5 := by rw [monthStart, hmshift]
  unfold daysFromCivil
  rw [dayNumber, ← hyear, ← hmshift]
  clear hmonth hb hyear hmshift
  rw [h.bind (by omega) (by omega), h.bind (by omega) (by omega)]
  simp only
  rw [hera, yearStart]
  clear hn hera
  rw [h.bind (by omega) (by omega), h.bind (by omega) (by omega), h.bind (by omega) (by omega),
    h.bind (by omega) (by omega), h.bind (by omega) (by omega), ← hmonthStart,
    Int.tdiv_eq_ediv_of_nonneg (by omega), Int.tdiv_eq_ediv_of_nonneg (by omega)]
  simp (disch := omega) only [h.bind]
  rw [h _ (by omega) (by omega)]
  congr 1
  omega

/-- The days of a year that begins with March. -/
theorem dayOfYear {y m d : Int} (hvalid : Valid y m d) :
    0 ≤ monthStart m + d - 1 ∧ monthStart m + d - 1 ≤ 365 ∧
      (monthStart m + d - 1 = 365 → m ≤ 2 ∧ IsLeap y) ∧
      (5 * (monthStart m + d - 1) + 2) / 153 = m + if m > 2 then -3 else 9 := by
  obtain ⟨hpos, hle, hday, hlast⟩ := hvalid
  have hm : m = 1 ∨ m = 2 ∨ m = 3 ∨ m = 4 ∨ m = 5 ∨ m = 6 ∨ m = 7 ∨ m = 8 ∨ m = 9 ∨ m = 10 ∨
      m = 11 ∨ m = 12 := by omega
  unfold monthLength at hlast
  rcases hm with rfl | rfl | rfl | rfl | rfl | rfl | rfl | rfl | rfl | rfl | rfl | rfl
  all_goals
    simp [monthStart] at hlast ⊢
    grind

/-- The year of the era from the day of the era. -/
theorem yearOfEra {doe yoe doy : Int} (hyoe : 0 ≤ yoe ∧ yoe < 400) (hdoy : 0 ≤ doy ∧ doy ≤ 365)
    (hleap : doy = 365 → (yoe + 1) % 4 = 0 ∧ ((yoe + 1) % 100 = 0 → yoe = 399))
    (hdoe : doe = 365 * yoe + yoe / 4 - yoe / 100 + doy) :
    (doe - doe / 1460 + doe / 36524 - doe / 146096) / 365 = yoe := by
  -- hundreds, fours and ones
  obtain ⟨c, q, r, hc, hq, hr, hsum⟩ : ∃ c q r, (0 ≤ c ∧ c < 4) ∧ (0 ≤ q ∧ q < 25) ∧
      (0 ≤ r ∧ r < 4) ∧ yoe = 100 * c + 4 * q + r :=
    ⟨yoe / 100, yoe % 100 / 4, yoe % 4, by omega, by omega, by omega, by omega⟩
  have hfour : yoe / 4 = 25 * c + q := by omega
  have hhundred : yoe / 100 = c := by omega
  have hdays : doe = 36524 * c + 1461 * q + 365 * r + doy := by omega
  have hlast : doy = 365 → r = 3 ∧ (q = 24 → c = 3) := by omega
  clear hleap hdoe
  have hcenturies : doe / 36524 - doe / 146096 = c := by
    rcases (by omega : c = 0 ∨ c = 1 ∨ c = 2 ∨ c = 3) with rfl | rfl | rfl | rfl <;> omega
  have hcycles : doe / 1460 = 25 * c + q + (24 * c + q + 365 * r + doy) / 1460 := by omega
  omega

theorem civilFromDays_parts (h : Holds fit lo hi) {z era doe yoe doy mp : Int} (hlo : lo ≤ z)
    (hlo' : lo ≤ -1000000) (hhi : z + 719468 ≤ hi) (hhi' : 1000000 ≤ hi)
    (hera : z + 719468 = 146097 * era + doe) (hdoe : 0 ≤ doe ∧ doe < 146097)
    (hyoe : (doe - doe / 1460 + doe / 36524 - doe / 146096) / 365 = yoe)
    (hyoele : 0 ≤ yoe ∧ yoe < 400)
    (hdoy : doe - (365 * yoe + yoe / 4 - yoe / 100) = doy) (hdoyle : 0 ≤ doy ∧ doy ≤ 365)
    (hmp : (5 * doy + 2) / 153 = mp) :
    civilFromDays fit z =
      some (yoe + era * 400 + (if (if mp < 10 then mp + 3 else mp - 9) ≤ 2 then 1 else 0),
        if mp < 10 then mp + 3 else mp - 9, doy - (153 * mp + 2) / 5 + 1) := by
  have heraeq : (if 0 ≤ z + 719468 then z + 719468 else z + 719468 - 146096).tdiv 146097 = era :=
    (tdiv_era (k := 146097) (by decide) _).trans (by omega)
  have hdoeeq : z + 719468 - era * 146097 = doe := by omega
  have hmple : 0 ≤ mp ∧ mp ≤ 11 := by omega
  have heraday : lo ≤ era * 146097 ∧ era * 146097 ≤ hi := by omega
  have herale : lo + 1000 ≤ era * 400 ∧ era * 400 ≤ hi - 1000 := by omega
  unfold civilFromDays
  rw [h.bind (by omega) hhi, h.bind (by omega) (by omega)]
  simp only
  rw [heraeq, h.bind heraday.1 heraday.2, hdoeeq]
  clear heraeq hdoeeq hera hhi hlo heraday
  have htdiv : ∀ {a b : Int}, 0 ≤ a → a.tdiv b = a / b := fun h => Int.tdiv_eq_ediv_of_nonneg h
  rw [h.bind (by omega) (by omega), htdiv hdoe.1, htdiv hdoe.1, htdiv hdoe.1,
    h.bind (by omega) (by omega), h.bind (by omega) (by omega), h.bind (by omega) (by omega),
    htdiv (by omega), hyoe]
  clear hyoe
  obtain ⟨y, hy⟩ : ∃ y, y = yoe + era * 400 := ⟨_, rfl⟩
  have hyle : lo ≤ y ∧ y < hi := by omega
  rw [h.bind (by omega) (by omega), ← hy, h.bind hyle.1 (by omega)]
  clear herale hy
  simp (disch := omega) only [Int.tdiv_eq_ediv_of_nonneg, h.bind]
  rw [hdoy]
  clear hdoy
  simp only [hmp]
  rfl

/-- The date of the day of a date. -/
theorem civilFromDays_number (h : Holds fit lo hi) (d : Date) (hlo : lo ≤ number d)
    (hlo' : lo ≤ -1000000) (hhi : number d + 719468 ≤ hi) (hhi' : 1000000 ≤ hi) :
    civilFromDays fit (number d) = some (d.year, d.month, d.day) := by
  obtain ⟨y, m, d, hvalid⟩ := d
  replace hlo : lo ≤ dayNumber y m d := hlo
  replace hhi : dayNumber y m d + 719468 ≤ hi := hhi
  obtain ⟨hdoy, hdoyle, hleap, hmp⟩ := dayOfYear hvalid
  have hmonth := hvalid.month_pos
  have hmonthle := hvalid.month_le
  have hstart : monthStart m = (153 * (m + if m > 2 then -3 else 9) + 2) / 5 := by
    rw [monthStart]
    exact Int.tdiv_eq_ediv_of_nonneg (by omega)
  obtain ⟨era, yoe, hyoele, hyear⟩ : ∃ era yoe, (0 ≤ yoe ∧ yoe < 400) ∧
      (y - if m ≤ 2 then 1 else 0) = 400 * era + yoe :=
    ⟨(y - if m ≤ 2 then 1 else 0) / 400, (y - if m ≤ 2 then 1 else 0) % 400, by omega, by omega⟩
  have hyearStart : yearStart (400 * era + yoe) =
      146097 * era + (365 * yoe + yoe / 4 - yoe / 100) := by
    have hfour : (400 * era + yoe) / 4 = 100 * era + yoe / 4 := by omega
    have hhundred : (400 * era + yoe) / 100 = 4 * era + yoe / 100 := by omega
    have hcycle : (400 * era + yoe) / 400 = era := by omega
    rw [yearStart, hfour, hhundred, hcycle]
    omega
  have hnumber : dayNumber y m d + 719468 =
      146097 * era + (365 * yoe + yoe / 4 - yoe / 100 + (monthStart m + d - 1)) := by
    rw [dayNumber, hyear, hyearStart]
    omega
  have hlast : monthStart m + d - 1 = 365 →
      (yoe + 1) % 4 = 0 ∧ ((yoe + 1) % 100 = 0 → yoe = 399) := by
    intro hlast
    obtain ⟨hm, hfour, hhundred⟩ := hleap hlast
    rw [if_pos hm] at hyear
    omega
  show civilFromDays fit (dayNumber y m d) = some (y, m, d)
  rw [civilFromDays_parts h hlo hlo' hhi hhi' hnumber (by omega)
    (yearOfEra hyoele ⟨hdoy, hdoyle⟩ hlast rfl) hyoele (by omega) ⟨hdoy, hdoyle⟩ hmp]
  have hm : (if (m + if m > 2 then -3 else 9) < 10 then (m + if m > 2 then -3 else 9) + 3
      else (m + if m > 2 then -3 else 9) - 9) = m := by omega
  rw [hm, ← hstart]
  congr 2
  · omega
  · congr 1
    omega

end

/-! ## The types of the source -/

/-- A value of `i64`. -/
def Is64 (x : Int) : Prop := -2 ^ 63 ≤ x ∧ x < 2 ^ 63

instance (x : Int) : Decidable (Is64 x) := inferInstanceAs (Decidable (_ ∧ _))

theorem daysFromCivil_some (y m d : Int) : daysFromCivil some y m d = some (dayNumber y m d) :=
  daysFromCivil_eq (holds_some _ _) (Int.le_refl _) (Int.le_refl _)

theorem daysFromCivil_i128 {y m d : Int} (hy : Is64 y) (hm : Is64 m) (hd : Is64 d) :
    daysFromCivil i128 y m d = some (dayNumber y m d) := by
  unfold Is64 at hy hm hd
  exact daysFromCivil_eq (holds_fits 128) (by omega) (by omega)

theorem civilFromDays_some (d : Date) :
    civilFromDays some (number d) = some (d.year, d.month, d.day) :=
  civilFromDays_number (holds_some (min (number d) (-1000000)) (max (number d + 719468) 1000000)) d
    (Int.min_le_left _ _) (Int.min_le_right _ _) (Int.le_max_left _ _) (Int.le_max_right _ _)

theorem civilFromDays_i64 {d : Date} (hlo : -2 ^ 63 ≤ number d) (hhi : number d + 719468 < 2 ^ 63) :
    civilFromDays i64 (number d) = some (d.year, d.month, d.day) :=
  civilFromDays_number (holds_fits 64) d hlo (by decide) (by omega) (by decide)

/-- The year of a date is smaller than its day. -/
theorem is64_of_number {d : Date} (hlo : -2 ^ 63 ≤ number d) (hhi : number d + 719468 < 2 ^ 63) :
    Is64 d.year ∧ Is64 d.month ∧ Is64 d.day := by
  obtain ⟨hmonth, hmonthle, hday, -⟩ := d.valid
  obtain ⟨hdoy, hdoyle, -⟩ := dayOfYear d.valid
  have hstart := monthStart_le d.month
  rw [number, dayNumber, yearStart] at hlo hhi
  unfold Is64
  omega

/-- **Civil dates.**  For each day, far beyond those of a time value, `civil_from_days` gives the
date that the calendar counts to, and `days_from_civil` gives the day back.  For each date that the
calendar has, `civil_from_days` gives it back from its day, by the same arithmetic on all integers,
and in the types of the source when the year and the day have them.  And the day of the month is
added to the day of the first, whatever the month.  Nothing overflows. -/
theorem civil_exact :
    (∀ z, -2 ^ 63 ≤ z → z + 719468 < 2 ^ 63 →
      civilFromDays i64 z =
          some ((Date.ofDay z).year, (Date.ofDay z).month, (Date.ofDay z).day) ∧
        daysFromCivil i128 (Date.ofDay z).year (Date.ofDay z).month (Date.ofDay z).day = some z) ∧
    (∀ d : Date, ∃ n,
      daysFromCivil some d.year d.month d.day = some n ∧
        civilFromDays some n = some (d.year, d.month, d.day) ∧
        (Is64 d.year → daysFromCivil i128 d.year d.month d.day = some n) ∧
        (-2 ^ 63 ≤ n → n + 719468 < 2 ^ 63 →
          civilFromDays i64 n = some (d.year, d.month, d.day))) ∧
    (∀ y m d, ∃ n,
      daysFromCivil some y m 1 = some n ∧ daysFromCivil some y m d = some (n + d - 1) ∧
        (Is64 y → Is64 m → Is64 d →
          daysFromCivil i128 y m 1 = some n ∧ daysFromCivil i128 y m d = some (n + d - 1))) := by
  refine ⟨fun z hlo hhi => ?_, fun d => ?_, fun y m d => ?_⟩
  · have hz := number_ofDay z
    generalize Date.ofDay z = d at hz ⊢
    subst hz
    obtain ⟨hyear, hmonth, hday⟩ := is64_of_number hlo hhi
    exact ⟨civilFromDays_i64 hlo hhi, daysFromCivil_i128 hyear hmonth hday⟩
  · obtain ⟨hmonth, hmonthle, hday, hdayle⟩ := d.valid
    have hlength := monthLength_le d.year d.month
    refine ⟨number d, daysFromCivil_some _ _ _, civilFromDays_some d, fun hyear => ?_,
      civilFromDays_i64⟩
    exact daysFromCivil_i128 hyear ⟨by omega, by omega⟩ ⟨by omega, by omega⟩
  · have hadd := dayNumber_day y m d
    refine ⟨dayNumber y m 1, daysFromCivil_some _ _ _, ?_, fun hy hm hd => ⟨?_, ?_⟩⟩
    · rw [daysFromCivil_some, hadd]
    · exact daysFromCivil_i128 hy hm (by decide)
    · rw [daysFromCivil_i128 hy hm hd, hadd]

theorem civil_exact_epoch : civilFromDays i64 (-1) =
      some ((Date.ofDay (-1)).year, (Date.ofDay (-1)).month, (Date.ofDay (-1)).day) ∧
    daysFromCivil i128 (Date.ofDay (-1)).year (Date.ofDay (-1)).month (Date.ofDay (-1)).day =
      some (-1) :=
  civil_exact.1 (-1) (by decide) (by decide)

example : civilFromDays i64 (-1) = some (1969, 12, 31) := by decide

end NapiVm.CivilDays
