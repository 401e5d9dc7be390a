import Mathlib.Data.Nat.Count
import Mathlib.Tactic.IntervalCases

/-! The proleptic Gregorian calendar with astronomical year numbers. A date carries its validity,
`next` is the day after it, and `dayNumber` counts the days as Julian days do: day 0 is a Monday,
the 24th of November of the year -4713.
-/

namespace Lib

def Leap (y : Int) : Prop :=
  y % 4 = 0 ∧ (y % 100 = 0 → y % 400 = 0)

instance (y : Int) : Decidable (Leap y) := inferInstanceAs (Decidable (_ ∧ _))

def monthLength (y m : Int) : Int :=
  if m = 2 then if Leap y then 29 else 28
  else if m = 4 ∨ m = 6 ∨ m = 9 ∨ m = 11 then 30
  else 31

theorem monthLength_pos (y m : Int) : 1 ≤ monthLength y m := by
  unfold monthLength
  split_ifs <;> omega

@[ext]
structure Date where
  year : Int
  month : Int
  day : Int
  month_mem : 1 ≤ month ∧ month ≤ 12
  day_mem : 1 ≤ day ∧ day ≤ monthLength year month
deriving DecidableEq

def newYear (y : Int) : Int :=
  365 * y + (y - 1) / 4 - (y - 1) / 100 + (y - 1) / 400 + 1721061

theorem newYear_succ (y : Int) : newYear (y + 1) = newYear y + if Leap y then 366 else 365 := by
  unfold newYear Leap
  split_ifs <;> omega

theorem newYear_monotone {y z : Int} (h : y ≤ z) : newYear y ≤ newYear z := by
  refine monotone_int_of_le_succ (fun y => ?_) h
  rw [newYear_succ]
  split_ifs <;> omega

def daysBefore (y m : Int) : Int :=
  (367 * m - 362) / 12 - if m ≤ 2 then 0 else if Leap y then 1 else 2

theorem daysBefore_succ {y m : Int} (hm : 1 ≤ m ∧ m ≤ 11)
    : daysBefore y (m + 1) = daysBefore y m + monthLength y m := by
  obtain ⟨hlow, hhigh⟩ := hm
  unfold daysBefore monthLength
  by_cases hleap : Leap y <;> simp only [hleap, if_true, if_false] <;> interval_cases m <;> omega

namespace Date

variable (t : Date)

def next : Date :=
  if h : t.day < monthLength t.year t.month then
    ⟨t.year, t.month, t.day + 1, t.month_mem, by have := t.day_mem; omega⟩
  else if h : t.month < 12 then
    ⟨t.year, t.month + 1, 1, by have := t.month_mem; omega, le_rfl, monthLength_pos _ _⟩
  else ⟨t.year + 1, 1, 1, by omega, le_rfl, monthLength_pos _ _⟩

theorem next_year : t.year ≤ t.next.year ∧ t.next.year ≤ t.year + 1 := by
  unfold next
  split_ifs <;> simp

def ordinal : Int :=
  daysBefore t.year t.month + t.day

def dayNumber : Int :=
  newYear t.year + t.ordinal - 1

theorem dayNumber_next : t.next.dayNumber = t.dayNumber + 1 := by
  obtain ⟨hlow, hhigh⟩ := t.month_mem
  have hday := t.day_mem.2
  unfold next dayNumber ordinal
  split_ifs with hmonth hyear
  · dsimp only
    omega
  · dsimp only
    rw [daysBefore_succ ⟨hlow, by omega⟩]
    omega
  have hdecember : t.month = 12 := by omega
  rw [hdecember] at hday hmonth ⊢
  dsimp only
  rw [newYear_succ]
  unfold monthLength at hday hmonth
  unfold daysBefore Leap
  omega

def ofDayNumber (n : Nat) : Date :=
  next^[n] ⟨-4713, 11, 24, by decide, by decide⟩

theorem dayNumber_ofDayNumber (n : Nat) : (ofDayNumber n).dayNumber = n := by
  induction n with
  | zero => decide
  | succ n ih =>
    rw [ofDayNumber, Function.iterate_succ_apply', ← ofDayNumber, dayNumber_next, ih]
    push_cast
    rfl

/-- A date lies within its year. -/
theorem dayNumber_mem
    : newYear t.year ≤ t.dayNumber ∧ t.dayNumber < newYear (t.year + 1) := by
  have hday := t.day_mem
  obtain ⟨hlow, hhigh⟩ := t.month_mem
  rw [newYear_succ]
  unfold monthLength at hday
  unfold dayNumber ordinal daysBefore
  generalize t.month = m at *
  by_cases hleap : Leap t.year <;> simp only [hleap, if_true, if_false] at hday ⊢
  all_goals interval_cases m <;> omega

/-- The years from -4713 to 9999 have these day numbers. -/
theorem year_mem {t : Date} (hmin : 0 ≤ t.dayNumber) (hmax : t.dayNumber < 5373485)
    : -4713 ≤ t.year ∧ t.year ≤ 9999 := by
  have := t.dayNumber_mem
  unfold newYear at this
  omega

end Date

theorem year_unique {a b n : Int} (ha : newYear a ≤ n ∧ n < newYear (a + 1))
    (hb : newYear b ≤ n ∧ n < newYear (b + 1))
    : a = b := by
  rcases lt_trichotomy a b with hlt | heq | hlt
  · have := newYear_monotone (Int.add_one_le_iff.mpr hlt)
    omega
  · exact heq
  · have := newYear_monotone (Int.add_one_le_iff.mpr hlt)
    omega

/-- How many of the first `n` days from the day number `a` on fall on a day of the week, 0 being
Monday.
-/
theorem count_weekday (a w : Int) (hw : 0 ≤ w ∧ w < 7) (n : Nat)
    : (Nat.count (fun i : Nat => (a + i) % 7 = w) n : Int)
      = (a + n + 6 - w) / 7 - (a + 6 - w) / 7 := by
  induction n with
  | zero => simp
  | succ n ih =>
    rw [Nat.count_succ]
    split_ifs with hday
    all_goals
      push_cast
      omega

end Lib
