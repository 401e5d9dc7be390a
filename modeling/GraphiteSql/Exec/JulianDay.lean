import GraphiteSql.Exec.DateTime
import GraphiteSql.Lib.Calendar
import Mathlib.Tactic.Ring

/-! Julian days and civil dates against the calendar. Both directions truncate toward zero where the
calendar needs the floor, so they agree with it from the year 301 on and part from it at some dates
before.
-/

namespace GraphiteSql

open Lib

variable {p : DateTime} {t : Date}

-- Rounding

theorem truncate_div (a : Int) {b : Int} (hb : 0 < b) : truncate (a / b) = a.tdiv b := by
  obtain ⟨c, ha, hc⟩ := Rat.num_den_mk hb.ne' (Rat.divInt_eq_div a b).symm
  have hpos : 0 < c := pos_of_mul_pos_left (hc ▸ hb) (Int.natCast_nonneg _)
  rw [truncate, ← Int.mul_tdiv_mul_of_pos _ _ hpos, ← ha, ← hc]

/-- A nonnegative quotient is the one whose multiples enclose the dividend. -/
theorem truncate_eq {a b q : Int} (hb : 0 < b) (hq : 0 ≤ q) (hlow : b * q ≤ a)
    (hhigh : a < b * (q + 1))
    : truncate (a / b) = q := by
  have ha : 0 ≤ a := (Int.mul_nonneg hb.le hq).trans hlow
  rw [truncate_div a hb, Int.tdiv_eq_ediv_of_nonneg ha]
  apply le_antisymm
  · exact Int.lt_add_one_iff.mp (Int.ediv_lt_of_lt_mul hb (mul_comm b _ ▸ hhigh))
  · exact Int.le_ediv_of_mul_le hb (mul_comm b _ ▸ hlow)

theorem tdiv_eq (a b : Int) : a.tdiv b = if 0 ≤ a then a / b else -(-a / b) := by
  split_ifs with ha
  · exact Int.tdiv_eq_ediv_of_nonneg ha
  · rw [← Int.tdiv_eq_ediv_of_nonneg (by omega), Int.neg_tdiv, neg_neg]

-- The Julian day

def marchYear (y m : Int) : Int :=
  if m ≤ 2 then y - 1 else y

def marchMonth (m : Int) : Int :=
  if m ≤ 2 then m + 12 else m

/-- The day of a year that starts in March, its first day being 123. -/
def marchDay (m d : Int) : Int :=
  306001 * (m + 1) / 10000 + d

/-- The days of a count that starts in March and has every fourth year a leap year. -/
def marchDays (y m d : Int) : Int :=
  36525 * (y + 4716) / 100 + marchDay m d

def gregorian (y m d : Int) : Int :=
  marchDays (marchYear y m) (marchMonth m) d - marchYear y m / 100 + marchYear y m / 400 - 1522

/-- The century formula, which divides toward zero, gives one day too many in these years. -/
def Slips (y m : Int) : Prop :=
  marchYear y m < 0 ∧ marchYear y m % 100 = 0 ∧ marchYear y m % 400 ≠ 0

instance (y m : Int) : Decidable (Slips y m) := inferInstanceAs (Decidable (_ ∧ _))

theorem julianDay_eq {y m : Int} (d : Int) (hy : -4713 ≤ y) (hm : 1 ≤ m)
    : julianDay y m d
      = (gregorian y m d + if Slips y m then 1 else 0) * 86400000 - 43200000 := by
  have hhalf (n : Int) : (((n : ℚ) - 1524.5) * 86400000)
      = ((n * 86400000 - 131716800000 : Int) : ℚ) / (1 : Int) := by
    push_cast
    ring
  have hpair : (if m ≤ 2 then (y - 1, m + 12) else (y, m)) = (marchYear y m, marchMonth m) := by
    unfold marchYear marchMonth
    split_ifs <;> rfl
  have hyear : -4714 ≤ marchYear y m := by
    unfold marchYear
    omega
  have hmonth : 3 ≤ marchMonth m := by
    unfold marchMonth
    omega
  rw [julianDay, hpair, gregorian, marchDays, marchDay]
  by_cases hslips : Slips y m
  all_goals
    simp only [hslips, if_true, if_false, hhalf, truncate_div _ one_pos, tdiv_eq]
    unfold Slips at hslips
    omega

theorem dayNumber_eq (t : Date) : t.dayNumber = gregorian t.year t.month t.day := by
  obtain ⟨hlow, hhigh⟩ := t.month_mem
  have hyear := newYear_succ t.year
  unfold Date.dayNumber Date.ordinal newYear daysBefore at *
  unfold gregorian marchDays marchDay marchYear marchMonth
  generalize t.month = m at *
  by_cases hwinter : m ≤ 2 <;> by_cases hleap : Leap t.year
  all_goals
    simp only [hwinter, hleap, if_true, if_false] at hyear ⊢
    interval_cases m <;> omega

-- The civil date

/-- A month counted from March and a day within it, where every fourth year is a leap year. -/
structure MarchDate (y m d : Int) : Prop where
  month : 3 ≤ m ∧ m ≤ 14
  day : 1 ≤ d
  inMonth : marchDay m d ≤ marchDay (m + 1) 0
  inYear : marchDay m d ≤ if (y + 1) % 4 = 0 then 488 else 487

/-- The last day of February ends the year that starts in March. -/
theorem marchDay_le (t : Date)
    : marchDay (marchMonth t.month) t.day
      ≤ if Leap (marchYear t.year t.month + 1) then 488 else 487 := by
  obtain ⟨hlow, hhigh⟩ := t.month_mem
  have hlast := t.day_mem.2
  unfold monthLength at hlast
  unfold marchDay marchYear marchMonth
  generalize t.month = m at *
  by_cases hwinter : m ≤ 2 <;> simp only [hwinter, if_true, if_false]
  · rw [sub_add_cancel]
    by_cases hleap : Leap t.year <;> simp only [hleap, if_true, if_false] at hlast ⊢
    all_goals interval_cases m <;> omega
  · interval_cases m <;> split_ifs <;> omega

theorem marchDate (t : Date)
    : MarchDate (marchYear t.year t.month) (marchMonth t.month) t.day := by
  have hend := marchDay_le t
  obtain ⟨hlow, hhigh⟩ := t.month_mem
  obtain ⟨hfirst, hlast⟩ := t.day_mem
  refine ⟨?_, hfirst, ?_, ?_⟩
  · unfold marchMonth
    omega
  · unfold monthLength at hlast
    unfold marchDay marchMonth
    generalize t.month = m at *
    interval_cases m <;> omega
  · unfold Leap at hend
    omega

theorem marchCivil_eq {y m d : Int} (h : MarchDate y m d) (hy : -4716 ≤ y ∧ y < 28052)
    : marchCivil (marchDays y m d)
      = (if m ≤ 12 then y else y + 1, if m ≤ 12 then m else m - 12, d) := by
  obtain ⟨hmonth, hday, hinMonth, hinYear⟩ := h
  unfold marchDay at hinMonth hinYear
  have hc : truncate ((marchDays y m d - 122.1) / 365.25) = y + 4716 := by
    have hq : ((marchDays y m d : ℚ) - 122.1) / 365.25
        = ((20 * marchDays y m d - 2442 : Int) : ℚ) / (7305 : Int) := by
      push_cast
      ring
    rw [hq, marchDays, marchDay]
    apply truncate_eq <;> omega
  have hmask : (36525 * ((y + 4716) % 32768)).tdiv 100 = 36525 * (y + 4716) / 100 := by
    rw [Int.emod_eq_of_lt (by omega) (by omega), Int.tdiv_eq_ediv_of_nonneg (by omega)]
  have he : truncate ((marchDays y m d - 36525 * (y + 4716) / 100 : Int) / 30.6001) = m + 1 := by
    have hq (n : Int) : (n : ℚ) / 30.6001 = ((10000 * n : Int) : ℚ) / (306001 : Int) := by
      push_cast
      ring
    have hedge : 306001 * (m + 1 + 1) % 10000 ≠ 0 := by
      obtain ⟨hlow, hhigh⟩ := hmonth
      interval_cases m <;> decide
    rw [hq, marchDays, marchDay]
    apply truncate_eq <;> omega
  have hx : truncate (30.6001 * (m + 1 : Int)) = 306001 * (m + 1) / 10000 := by
    have hq : 30.6001 * ((m + 1 : Int) : ℚ) = ((306001 * (m + 1) : Int) : ℚ) / (10000 : Int) := by
      push_cast
      ring
    rw [hq]
    apply truncate_eq <;> omega
  simp only [marchCivil, hc, hmask, he, hx, Prod.mk.injEq]
  refine ⟨?_, ?_, ?_⟩
  · omega
  · omega
  · rw [marchDays, marchDay]
    omega

/-- The dates that `civil` gives as the day before: the truncated century is one too large. -/
def Misread (t : Date) : Prop :=
  t.year ≤ 300 ∧ t.year % 400 = 300 ∧ t.month = 3 ∧ t.day = 1

instance (t : Date) : Decidable (Misread t) := inferInstanceAs (Decidable (_ ∧ _))

theorem tdiv_century {q r : Int} (hr : 0 ≤ r ∧ r < 146097)
    : (146097 * q + r).tdiv 146097 = if q < 0 ∧ r ≠ 0 then q + 1 else q := by
  rw [tdiv_eq]
  omega

/-- The count from March that `civil` finds for a date. -/
theorem century_eq (t : Date)
    : let a := truncate ((t.dayNumber - 1867216.25) / 36524.25)
      t.dayNumber + 1 + a - a.tdiv 4 + 1524
        = marchDays (marchYear t.year t.month) (marchMonth t.month) t.day
          - if Misread t then 1 else 0 := by
  have hq (z : Int) : ((z : ℚ) - 1867216.25) / 36524.25
      = ((4 * z - 7468865 : Int) : ℚ) / (146097 : Int) := by
    push_cast
    ring
  have hend := marchDay_le t
  have hday := t.day_mem.1
  have hmonth := (marchDate t).month
  have hfirst : Misread t ↔ marchYear t.year t.month ≤ 300 ∧ marchYear t.year t.month % 400 = 300
      ∧ marchDay (marchMonth t.month) t.day = 123 := by
    have := t.month_mem
    unfold Misread marchDay marchYear marchMonth at *
    omega
  have hn : 123 ≤ marchDay (marchMonth t.month) t.day := by
    unfold marchDay
    omega
  simp only [hq, truncate_div _ (show (0 : Int) < 146097 by decide), hfirst]
  rw [dayNumber_eq t, gregorian, marchDays]
  generalize marchYear t.year t.month = y at *
  generalize marchDay (marchMonth t.month) t.day = n at *
  -- in a century of `k` years after `j` centuries the division is exact on one day at most
  obtain ⟨c, j, k, hj, hk, rfl⟩ : ∃ c j k : Int, (0 ≤ j ∧ j ≤ 3) ∧ (0 ≤ k ∧ k ≤ 99)
      ∧ y = 400 * c + 100 * j + k :=
    ⟨y / 400, y / 100 % 4, y % 100, by omega, by omega, by omega⟩
  have hx : 4 * (36525 * (400 * c + 100 * j + k + 4716) / 100 + n - (400 * c + 100 * j + k) / 100
      + (400 * c + 100 * j + k) / 400 - 1522) - 7468865
      = 146097 * (4 * c + j - 4) + (1460 * k + 4 * (k / 4) + 4 * n - 489 - j) := by
    omega
  have hyear : (400 * c + 100 * j + k) / 100 = 4 * c + j
      ∧ (400 * c + 100 * j + k) / 400 = c := by
    omega
  have hrest : 0 ≤ 1460 * k + 4 * (k / 4) + 4 * n - 489 - j
      ∧ 1460 * k + 4 * (k / 4) + 4 * n - 489 - j < 146097 := by
    unfold Leap at hend
    omega
  rw [hx, hyear.1, hyear.2]
  rw [tdiv_century hrest, tdiv_eq]
  omega

theorem civil_eq (t : Date) (hmin : -4713 ≤ t.year) (hmax : t.year ≤ 9999)
    : civil t.dayNumber
      = if Misread t then (t.year, 2, 29) else (t.year, t.month, t.day) := by
  have hmonth := t.month_mem
  rw [civil, century_eq]
  split_ifs with hmisread
  · obtain ⟨hyear, hmod, hmarch, hone⟩ := hmisread
    have hprev : marchDays (marchYear t.year t.month) (marchMonth t.month) t.day - 1
        = marchDays (t.year - 1) 14 29 := by
      unfold marchDays marchDay marchYear marchMonth
      omega
    rw [hprev, marchCivil_eq ⟨by decide, by decide, by decide, by rw [if_pos (by omega)]; decide⟩
      (by omega)]
    simp
  rw [sub_zero, marchCivil_eq (marchDate t) (by unfold marchYear; omega)]
  unfold marchYear marchMonth
  by_cases hwinter : t.month ≤ 2
  · rw [if_pos hwinter, if_pos hwinter, if_neg (by omega), if_neg (by omega)]
    simp
  · rw [if_neg hwinter, if_neg hwinter, if_pos (by omega), if_pos (by omega)]

-- Date and time values

namespace DateTime

theorem computeJd_ijd (hjd : p.validJd = false) (hymd : p.validYmd = true)
    (hraw : p.rawS = false) (hmin : -4713 ≤ p.y) (hmax : p.y ≤ 9999)
    : p.computeJd.ijd = julianDay p.y p.m p.d
      + if p.validHms then p.clock - if p.validTz then p.tz * 60000 else 0 else 0 := by
  unfold computeJd
  rw [hjd, hymd, hraw]
  simp only [Bool.false_eq_true, if_false, if_true, or_false,
    if_neg (show ¬(p.y < -4713 ∨ 9999 < p.y) by omega)]
  split_ifs <;> simp only [clock]
  all_goals omega

theorem computeYmd_eq (hymd : p.validYmd = false) (hjd : p.validJd = true)
    (hmin : 0 ≤ p.ijd) (hmax : p.ijd ≤ jdMax)
    : p.computeYmd = { p with
      y := (civil ((p.ijd + 43200000) / 86400000)).1
      m := (civil ((p.ijd + 43200000) / 86400000)).2.1
      d := (civil ((p.ijd + 43200000) / 86400000)).2.2
      validYmd := true } := by
  rw [computeYmd, hymd, hjd, Int.tdiv_eq_ediv_of_nonneg (by omega)]
  simp [show ¬(p.ijd < 0 ∨ jdMax < p.ijd) by omega]

/-- The clock fields that `computeHms` derives add up to the time of day. -/
theorem clock_computeHms (hhms : p.validHms = false) (hjd : p.validJd = true) (hmin : 0 ≤ p.ijd)
    : p.computeHms.clock = (p.ijd + 43200000) % 86400000 := by
  have hself : p.computeJd = p := by simp [computeJd, hjd]
  simp only [computeHms, hhms, Bool.false_eq_true, if_false, hself, clock]
  rw [Int.tmod_eq_emod_of_nonneg (by omega)]
  have hs : 0 ≤ (p.ijd + 43200000) % 86400000 := by omega
  generalize (p.ijd + 43200000) % 86400000 = s at *
  have hq : truncate ((s : ℚ) / 1000) = s / 1000 := by
    rw [← Int.tdiv_eq_ediv_of_nonneg hs]
    exact truncate_div s (b := 1000) (by decide)
  simp only [hq, Int.tdiv_eq_ediv_of_nonneg (show 0 ≤ s / 1000 by omega)]
  generalize hh : s / 1000 / 3600 = h
  rw [Int.tdiv_eq_ediv_of_nonneg (by omega)]
  generalize hm : (s / 1000 - h * 3600) / 60 = m
  have hround : ((s : ℚ) / 1000 - (s / 1000 : Int) + (s / 1000 - h * 3600 - m * 60 : Int)) * 1000
      + 0.5
      = ((2 * (s - h * 3600000 - m * 60000) + 1 : Int) : ℚ) / (2 : Int) := by
    push_cast
    ring
  rw [hround, truncate_eq (q := s - h * 3600000 - m * 60000)] <;> omega

def ofDate (t : Date) : DateTime :=
  { y := t.year, m := t.month, d := t.day, validYmd := true }

def redate (p : DateTime) : DateTime :=
  { p.computeJd with validYmd := false }.computeYmd

def rebuild (ijd : Int) : DateTime :=
  { ({ ijd, validJd := true } : DateTime).computeYmd.computeHms with validJd := false }.computeJd

def date (p : DateTime) : Int × Int × Int :=
  (p.y, p.m, p.d)

theorem ofDate_ijd (hmin : -4713 ≤ t.year) (hmax : t.year ≤ 9999)
    : (ofDate t).computeJd.ijd
      = (t.dayNumber + if Slips t.year t.month then 1 else 0) * 86400000 - 43200000 := by
  rw [computeJd_ijd rfl rfl rfl hmin hmax]
  show julianDay t.year t.month t.day + 0 = _
  rw [julianDay_eq _ hmin t.month_mem.1, dayNumber_eq t]
  omega

theorem redate_ofDate (hmin : -4713 ≤ t.year) (hmax : t.year ≤ 9999)
    (hjd : 0 ≤ (ofDate t).computeJd.ijd ∧ (ofDate t).computeJd.ijd ≤ jdMax)
    : (ofDate t).redate.date
      = civil (t.dayNumber + if Slips t.year t.month then 1 else 0) := by
  have hvalid : (ofDate t).computeJd.validJd = true := by
    simp [computeJd, ofDate, show ¬(t.year < -4713 ∨ 9999 < t.year) by omega]
  have hdate := congrArg date (computeYmd_eq (p := { (ofDate t).computeJd with validYmd := false })
    rfl hvalid hjd.1 hjd.2)
  refine hdate.trans (congrArg civil ?_)
  rw [ofDate_ijd hmin hmax]
  omega

theorem rebuild_ijd {ijd : Int} (hmin : 0 ≤ ijd) (hmax : ijd ≤ jdMax) {y m d : Int}
    (hcivil : civil ((ijd + 43200000) / 86400000) = (y, m, d)) (hy : -4713 ≤ y ∧ y ≤ 9999)
    : (rebuild ijd).ijd = julianDay y m d + (ijd + 43200000) % 86400000 := by
  have hymd := computeYmd_eq (p := { ijd, validJd := true }) rfl rfl hmin hmax
  simp only [hcivil] at hymd
  rw [rebuild, hymd]
  generalize hp : ({ ijd, y, m, d, validJd := true, validYmd := true } : DateTime) = p
  have hclock := clock_computeHms (p := p) (hp ▸ rfl) (hp ▸ rfl) (hp ▸ hmin)
  subst hp
  rw [computeJd_ijd rfl rfl rfl hy.1 hy.2]
  show _ + (_ - 0) = _
  rw [sub_zero]
  exact congrArg _ hclock

theorem civil_iff (hmin : -4713 ≤ t.year) (hmax : t.year ≤ 9999)
    : civil (t.dayNumber + if Slips t.year t.month then 1 else 0)
        = (t.year, t.month, t.day)
      ↔ ¬Slips t.year t.month ∧ ¬(t.year = 300 ∧ t.month = 3 ∧ t.day = 1) := by
  have hday := t.day_mem
  by_cases hslips : Slips t.year t.month
  · -- the Julian day is the one of the day after, which `civil` cannot give as this one
    have hnext := t.next_year
    have hyear : t.year ≤ 0 := by
      unfold Slips marchYear at hslips
      omega
    rw [if_pos hslips, ← Date.dayNumber_next, civil_eq _ (by omega) (by omega)]
    refine iff_of_false ?_ (fun h => h.1 hslips)
    split_ifs with hmisread <;> intro heq <;> simp only [Prod.mk.injEq] at heq
    · obtain ⟨-, hmod, -, -⟩ := hmisread
      unfold monthLength Leap at hday
      omega
    · have := congrArg Date.dayNumber (Date.ext heq.1 heq.2.1 heq.2.2)
      rw [Date.dayNumber_next] at this
      omega
  · rw [if_neg hslips, add_zero, civil_eq t hmin hmax]
    split_ifs with hmisread
    · obtain ⟨hyear, hmod, hmarch, hone⟩ := hmisread
      unfold Slips marchYear at hslips
      refine iff_of_false ?_ (fun h => h.2 ⟨by omega, hmarch, hone⟩)
      simp [hmarch]
    · exact iff_of_true rfl ⟨hslips, fun h => hmisread ⟨by omega, by omega, h.2⟩⟩

theorem rebuild_iff {ijd : Int} (hmin : 0 ≤ ijd) (hmax : ijd ≤ jdMax)
    : let u := Date.ofDayNumber ((ijd + 43200000) / 86400000).toNat
      (rebuild ijd).ijd = ijd ↔ (Slips u.year u.month → Misread u) := by
  intro u
  have hu : u.dayNumber = (ijd + 43200000) / 86400000 := by
    rw [Date.dayNumber_ofDayNumber]
    omega
  unfold jdMax at hmax
  have hyear := Date.year_mem (t := u) (by omega) (by omega)
  have hcivil := civil_eq u hyear.1 hyear.2
  rw [hu] at hcivil
  split_ifs at hcivil with hmisread
  · rw [rebuild_ijd hmin hmax hcivil hyear, julianDay_eq _ hyear.1 (by omega)]
    refine iff_of_true ?_ (fun _ => hmisread)
    obtain ⟨-, hmod, hmarch, hone⟩ := hmisread
    rw [dayNumber_eq, hmarch, hone] at hu
    simp only [gregorian, marchYear, marchMonth, marchDays, marchDay, Slips, Int.reduceLE, if_true,
      if_false] at hu ⊢
    omega
  rw [rebuild_ijd hmin hmax hcivil hyear, julianDay_eq _ hyear.1 u.month_mem.1, ← dayNumber_eq, hu]
  by_cases hslips : Slips u.year u.month
  · rw [if_pos hslips]
    exact iff_of_false (by omega) (fun h => hmisread (h hslips))
  · rw [if_neg hslips]
    exact iff_of_true (by omega) (fun h => absurd h hslips)

/-- A date survives the way through its Julian day, and its successor is one day later, exactly
where neither direction slips; so does a Julian day on the way through its date and time.
-/
theorem civil_julian_inverse (t : Date) (hyear : -4713 ≤ t.year ∧ t.year ≤ 9999)
    (hjd : 0 ≤ (ofDate t).computeJd.ijd ∧ (ofDate t).computeJd.ijd ≤ jdMax)
    (ijd : Int) (hijd : 0 ≤ ijd ∧ ijd ≤ jdMax)
    : let u := Date.ofDayNumber ((ijd + 43200000) / 86400000).toNat
      ((ofDate t).redate.date = (t.year, t.month, t.day)
          ↔ ¬Slips t.year t.month ∧ ¬(t.year = 300 ∧ t.month = 3 ∧ t.day = 1))
        ∧ ((ofDate t.next).computeJd.ijd = (ofDate t).computeJd.ijd + 86400000
          ↔ t.next.year ≤ 9999
            ∧ (Slips t.year t.month ↔ Slips t.next.year t.next.month))
        ∧ ((rebuild ijd).ijd = ijd ↔ (Slips u.year u.month → Misread u)) := by
  obtain ⟨hmin, hmax⟩ := hyear
  refine ⟨?_, ?_, ?_⟩
  · rw [redate_ofDate hmin hmax hjd]
    exact civil_iff hmin hmax
  · have hnext := t.next_year
    rw [ofDate_ijd hmin hmax] at hjd ⊢
    by_cases hlast : t.next.year ≤ 9999
    · rw [ofDate_ijd (by omega) hlast, Date.dayNumber_next]
      split_ifs <;> simp_all <;> omega
    have hzero : (ofDate t.next).computeJd.ijd = 0 := by
      simp [computeJd, ofDate, datetimeError, show 9999 < t.next.year by omega]
    exact iff_of_false (by omega) (fun h => hlast h.1)
  · exact rebuild_iff hijd.1 hijd.2

theorem civil_julian_inverse_2000
    : (ofDate ⟨2000, 2, 29, by decide, by decide⟩).redate.date = (2000, 2, 29)
      ∧ (rebuild 0).ijd = 0 := by
  have h := civil_julian_inverse ⟨2000, 2, 29, by decide, by decide⟩ (by decide)
    (by decide +kernel) 0 (by decide)
  exact ⟨h.1.mpr (by decide), h.2.2.mpr (by decide)⟩

/-- The first of March of the year 300 comes back as the 29th of February, that of the year -200 as
the second of March, two days after the 28th of February.
-/
theorem march_shifted
    : (ofDate ⟨300, 3, 1, by decide, by decide⟩).redate.date = (300, 2, 29)
      ∧ (ofDate ⟨-200, 3, 1, by decide, by decide⟩).redate.date = (-200, 3, 2)
      ∧ (ofDate ⟨-200, 3, 1, by decide, by decide⟩).computeJd.ijd
        = (ofDate ⟨-200, 2, 28, by decide, by decide⟩).computeJd.ijd + 2 * 86400000
      ∧ (rebuild 142393334400000).ijd = 142393334400000 + 86400000 := by
  decide +kernel

end DateTime

end GraphiteSql
