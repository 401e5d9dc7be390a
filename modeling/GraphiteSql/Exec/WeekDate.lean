import GraphiteSql.Exec.JulianDay

/-! The day of the year, the ISO week and the weeks of `%U` and `%W` against the calendar.
-/

namespace GraphiteSql.DateTime

open Lib

/-- `p` is at some time of the day `t`. -/
structure Shows (p : DateTime) (t : Date) : Prop where
  year : p.y = t.year
  month : p.m = t.month
  day : p.d = t.day
  notRaw : p.rawS = false
  julian : (p.ijd + 43200000) / 86400000 = t.dayNumber

variable {p q : DateTime} {t : Date}

theorem midnight_eq (hraw : p.rawS = false) (hyear : 0 ≤ p.y ∧ p.y ≤ 9999) {m : Int} (hm : 1 ≤ m)
    (d : Int)
    : p.midnight m d
      = gregorian p.y m d * 86400000 - 43200000 - if p.validTz then p.tz * 60000 else 0 := by
  have hzero : truncate (0 * 1000 + 0.5) = 0 := by decide +kernel
  have hslips : ¬Slips p.y m := by
    unfold Slips marchYear
    omega
  have hmin : -4713 ≤ p.y := by omega
  rw [midnight]
  refine Eq.trans (computeJd_ijd rfl rfl hraw hmin hyear.2) ?_
  simp only [julianDay_eq d hmin hm, hslips, if_false, if_true, clock, hzero]
  omega

theorem gregorian_newYear (y : Int) : gregorian y 1 1 = newYear y := by
  unfold gregorian marchDays marchDay marchYear marchMonth newYear
  simp only [Int.reduceLE, if_true]
  omega

/-- The ordinal does not depend on the clock and time zone fields. -/
theorem dayOfYear_eq (hp : Shows p t) (hyear : 0 ≤ t.year ∧ t.year ≤ 9999)
    : p.dayOfYear = t.ordinal := by
  have hy := hp.year ▸ hyear
  have hday : gregorian p.y p.m p.d = t.dayNumber := by
    rw [dayNumber_eq, hp.year, hp.month, hp.day]
  rw [dayOfYear, midnight_eq hp.notRaw hy (hp.month ▸ t.month_mem.1),
    midnight_eq hp.notRaw hy le_rfl,
    gregorian_newYear, hday, hp.year, tdiv_eq, Date.dayNumber]
  have := t.dayNumber_mem.1
  rw [Date.dayNumber] at this
  omega

theorem weekday_eq (hp : Shows p t) (hmin : 0 ≤ t.dayNumber)
    : p.weekday = (t.dayNumber + 1) % 7 := by
  have := hp.julian
  rw [weekday, Int.tdiv_eq_ediv_of_nonneg (by omega), Int.tmod_eq_emod_of_nonneg (by omega)]
  omega

-- ISO weeks

theorem newYear_weekday (y : Int)
    : (y + y / 4 - y / 100 + y / 400) % 7 = newYear (y + 1) % 7 := by
  rw [newYear, add_sub_cancel_right]
  omega

/-- The weekdays of the first of January of the year and of the next. -/
theorem longYear_iff (y : Int) : longYear y ↔ newYear y % 7 = 3 ∨ newYear (y + 1) % 7 = 4 := by
  have hprev := newYear_weekday (y - 1)
  rw [sub_add_cancel] at hprev
  simp only [longYear, newYear_weekday y, hprev]
  exact or_comm

def thursday (t : Date) : Date :=
  .ofDayNumber (t.dayNumber - t.dayNumber % 7 + 3).toNat

theorem newYear_next (y : Int)
    : newYear (y + 1) = newYear y + 365 ∨ newYear (y + 1) = newYear y + 366 := by
  rw [newYear_succ]
  split_ifs <;> omega

theorem dayNumber_nonneg (hyear : 0 ≤ t.year) : 0 ≤ t.dayNumber := by
  have := t.dayNumber_mem.1
  have : newYear 0 ≤ newYear t.year := newYear_monotone hyear
  unfold newYear at *
  omega

theorem thursday_dayNumber (hmin : 0 ≤ t.dayNumber)
    : (thursday t).dayNumber = t.dayNumber - t.dayNumber % 7 + 3 := by
  rw [thursday, Date.dayNumber_ofDayNumber]
  omega

theorem ordinal_eq (t : Date) : t.ordinal = t.dayNumber - newYear t.year + 1 := by
  rw [Date.dayNumber]
  omega

theorem isoWeekDate_eq (hp : Shows p t) (hyear : 0 ≤ t.year ∧ t.year ≤ 9999)
    : p.isoWeekDate = ((thursday t).year, 1 + ((thursday t).ordinal - 1) / 7) := by
  have hmin := dayNumber_nonneg hyear.1
  have hweekday : p.isoWeekday = t.dayNumber % 7 + 1 := by
    rw [isoWeekday, weekday_eq hp hmin]
    omega
  have hmem := t.dayNumber_mem
  have hu := thursday_dayNumber hmin
  have humem := (thursday t).dayNumber_mem
  have hprev := newYear_next (t.year - 1)
  have hnext := newYear_next t.year
  have hnext' := newYear_next (t.year + 1)
  rw [sub_add_cancel] at hprev
  simp only [isoWeekDate, dayOfYear_eq hp hyear, hweekday, hp.year, longYear_iff, sub_add_cancel]
  rw [ordinal_eq t, ordinal_eq (thursday t), Int.tdiv_eq_ediv_of_nonneg (by omega)]
  rcases lt_or_ge (thursday t).dayNumber (newYear t.year) with hlow | hlow
  · have hprevious : (thursday t).year = t.year - 1 :=
      year_unique humem (by rw [sub_add_cancel]; omega)
    rw [if_pos (by omega), hprevious]
    refine Prod.ext rfl ?_
    dsimp only
    split_ifs <;> omega
  rcases lt_or_ge (thursday t).dayNumber (newYear (t.year + 1)) with hhigh | hhigh
  · have hsame : (thursday t).year = t.year := year_unique humem ⟨hlow, hhigh⟩
    rw [if_neg (by omega), if_neg (by split_ifs <;> omega), hsame]
    refine Prod.ext rfl ?_
    dsimp only
    omega
  have hfollowing : (thursday t).year = t.year + 1 := year_unique humem (by omega)
  rw [if_neg (by omega), if_pos (by split_ifs <;> omega), hfollowing]
  refine Prod.ext rfl ?_
  dsimp only
  omega

/-- From one day to the next the ISO week stays, or moves on after a Sunday. -/
theorem isoWeekDate_next (hp : Shows p t) (hq : Shows q t.next) (hmin : 0 ≤ t.year)
    (hmax : t.next.year ≤ 9999)
    : if t.dayNumber % 7 = 6 then
        q.isoWeekDate = (p.isoWeekDate.1, p.isoWeekDate.2 + 1)
          ∨ q.isoWeekDate = (p.isoWeekDate.1 + 1, 1)
      else q.isoWeekDate = p.isoWeekDate := by
  have hyears := t.next_year
  have hnum := Date.dayNumber_next t
  have hnonneg := dayNumber_nonneg hmin
  rw [isoWeekDate_eq hp ⟨hmin, by omega⟩, isoWeekDate_eq hq ⟨by omega, hmax⟩]
  split_ifs with hsunday
  · have hu := thursday_dayNumber hnonneg
    have hv := thursday_dayNumber (t := t.next) (by omega)
    have hunext := newYear_next ((thursday t).year + 1)
    have humem := (thursday t).dayNumber_mem
    have hvmem := (thursday t.next).dayNumber_mem
    simp only [ordinal_eq, Prod.mk.injEq]
    rcases lt_or_ge (thursday t.next).dayNumber (newYear ((thursday t).year + 1)) with hhigh | hhigh
    · have hsame : (thursday t.next).year = (thursday t).year := year_unique hvmem (by omega)
      rw [hsame]
      omega
    have hfollowing : (thursday t.next).year = (thursday t).year + 1 :=
      year_unique hvmem (by omega)
    rw [hfollowing]
    omega
  · have hsame : thursday t.next = thursday t := by
      unfold thursday
      congr 2
      omega
    rw [hsame]

-- Weeks of the year

/-- How many days of a year, up to a date, fall on a day of the week, 0 being Monday. -/
def weekdaysUpTo (t : Date) (w : Int) : Nat :=
  Nat.count (fun i : Nat => (newYear t.year + i) % 7 = w) t.ordinal.toNat

theorem weekdaysUpTo_eq (t : Date) {w : Int} (hw : 0 ≤ w ∧ w < 7)
    : (weekdaysUpTo t w : Int) = (t.dayNumber + 7 - w) / 7 - (newYear t.year + 6 - w) / 7 := by
  have hmem := t.dayNumber_mem.1
  have hord := ordinal_eq t
  rw [weekdaysUpTo, count_weekday _ _ hw, Int.toNat_of_nonneg (by omega)]
  omega

/-- Every number is the calendar's, but that `%W` counts the afternoon as the next day, which shows
in the years that begin with a Tuesday.
-/
theorem week_numbers (t : Date) (hyear : 0 ≤ t.year ∧ t.year ≤ 9999) (p : DateTime) (hp : Shows p t)
    : p.dayOfYear = t.ordinal
      ∧ p.isoWeekDate = ((thursday t).year, 1 + ((thursday t).ordinal - 1) / 7)
      ∧ (∀ q, Shows q t.next → t.next.year ≤ 9999
        → if t.dayNumber % 7 = 6 then
            q.isoWeekDate = (p.isoWeekDate.1, p.isoWeekDate.2 + 1)
              ∨ q.isoWeekDate = (p.isoWeekDate.1 + 1, 1)
          else q.isoWeekDate = p.isoWeekDate)
      ∧ p.strftimeU = weekdaysUpTo t 6
      ∧ (p.validTz = false
        → (p.strftimeW = weekdaysUpTo t 0
          ↔ (p.ijd + 43200000) % 86400000 < 43200000 ∨ newYear t.year % 7 ≠ 1)) := by
  have hmin := dayNumber_nonneg hyear.1
  have hmem := t.dayNumber_mem.1
  have hord := ordinal_eq t
  refine ⟨dayOfYear_eq hp hyear, isoWeekDate_eq hp hyear,
    fun q hq hmax => isoWeekDate_next hp hq hyear.1 hmax, ?_, fun hzone => ?_⟩
  · rw [strftimeU, dayOfYear_eq hp hyear, weekday_eq hp hmin, weekdaysUpTo_eq t (by decide),
      Int.tdiv_eq_ediv_of_nonneg (by omega)]
    omega
  have hjd := hp.julian
  have hnday : (p.ijd - p.midnight 1 1 + 43200000).tdiv 86400000
      = t.ordinal - 1 + if (p.ijd + 43200000) % 86400000 < 43200000 then 0 else 1 := by
    rw [midnight_eq hp.notRaw (hp.year ▸ hyear) le_rfl, gregorian_newYear, hp.year, hzone, tdiv_eq]
    simp only [Bool.false_eq_true, if_false]
    omega
  rw [strftimeW, hnday, weekday_eq hp hmin, weekdaysUpTo_eq t (by decide), tdiv_eq]
  omega

theorem week_numbers_2024
    : Shows { ijd := 212602320000000, y := 2024, m := 12, d := 30 }
      ⟨2024, 12, 30, by decide, by decide⟩
      ∧ dayOfYear { ijd := 212602320000000, y := 2024, m := 12, d := 30 } = 365 := by
  have hshows : Shows { ijd := 212602320000000, y := 2024, m := 12, d := 30 }
      ⟨2024, 12, 30, by decide, by decide⟩ := ⟨rfl, rfl, rfl, rfl, by decide⟩
  exact ⟨hshows, (week_numbers _ (by decide) _ hshows).1.trans (by decide)⟩

/-- At six in the evening of the first of January 2019, a Tuesday, no Monday has passed. -/
theorem strftimeW_evening
    : Shows { ijd := 212413125600000, y := 2019, m := 1, d := 1 } ⟨2019, 1, 1, by decide, by decide⟩
      ∧ strftimeW { ijd := 212413125600000, y := 2019, m := 1, d := 1 } = 1
      ∧ weekdaysUpTo ⟨2019, 1, 1, by decide, by decide⟩ 0 = 0 := by
  refine ⟨⟨rfl, rfl, rfl, rfl, by decide⟩, ?_, ?_⟩ <;> decide +kernel

end GraphiteSql.DateTime
