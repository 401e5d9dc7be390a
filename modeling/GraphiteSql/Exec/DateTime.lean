import Mathlib.Data.Rat.Lemmas

/-! The date/time values of `datetime.rs`: the Julian day, the civil date and the clock, each
derived from the others when needed. Floats are read as exact rationals.
-/

namespace GraphiteSql

def jdMax : Int := 464269060799999

def truncate (q : ℚ) : Int :=
  q.num.tdiv q.den

structure DateTime where
  ijd : Int := 0
  y : Int := 0
  m : Int := 0
  d : Int := 0
  h : Int := 0
  min : Int := 0
  s : ℚ := 0
  tz : Int := 0
  validJd : Bool := false
  validYmd : Bool := false
  validHms : Bool := false
  validTz : Bool := false
  rawS : Bool := false
  isError : Bool := false
deriving DecidableEq

def julianDay (year month day : Int) : Int :=
  let (year, month) := if month ≤ 2 then (year - 1, month + 12) else (year, month)
  let a := year.tdiv 100
  let b := 2 - a + a.tdiv 4
  let x1 := (36525 * (year + 4716)).tdiv 100
  let x2 := (306001 * (month + 1)).tdiv 10000
  truncate (((x1 + x2 + day + b : Int) - 1524.5) * 86400000)

/-- The last part of `computeYmd`: the year, month and day of a count that starts in March. -/
def marchCivil (b : Int) : Int × Int × Int :=
  let c := truncate ((b - 122.1) / 365.25)
  let d := (36525 * (c % 32768)).tdiv 100
  let e := truncate ((b - d : Int) / 30.6001)
  let x1 := truncate (30.6001 * e)
  let m := if e < 14 then e - 1 else e - 13
  (if 2 < m then c - 4716 else c - 4715, m, b - d - x1)

def civil (z : Int) : Int × Int × Int :=
  let a := truncate ((z - 1867216.25) / 36524.25)
  marchCivil (z + 1 + a - a.tdiv 4 + 1524)

namespace DateTime

variable (p : DateTime)

def datetimeError : DateTime :=
  { isError := true }

def clock : Int :=
  p.h * 3600000 + p.min * 60000 + truncate (p.s * 1000 + 0.5)

def computeJd : DateTime :=
  if p.validJd then p else
  let (year, month, day) := if p.validYmd then (p.y, p.m, p.d) else (2000, 1, 1)
  if year < -4713 ∨ 9999 < year ∨ p.rawS then datetimeError else
  let p := { p with ijd := julianDay year month day, validJd := true }
  if p.validHms then
    let p := { p with ijd := p.ijd + p.clock }
    if p.validTz then
      { p with
        ijd := p.ijd - p.tz * 60000
        validYmd := false
        validHms := false
        validTz := false }
    else p
  else p

def computeYmd : DateTime :=
  if p.validYmd then p
  else if !p.validJd then { p with y := 2000, m := 1, d := 1, validYmd := true }
  else if p.ijd < 0 ∨ jdMax < p.ijd then datetimeError
  else
    let (y, m, d) := civil ((p.ijd + 43200000).tdiv 86400000)
    { p with y, m, d, validYmd := true }

def computeHms : DateTime :=
  if p.validHms then p else
  let p := p.computeJd
  let s := (p.ijd + 43200000).tmod 86400000
  let seconds : ℚ := s / 1000
  let s := truncate seconds
  let seconds := seconds - s
  let h := s.tdiv 3600
  let s := s - h * 3600
  let min := s.tdiv 60
  { p with h, min, s := seconds + (s - min * 60 : Int), validHms := true, rawS := false }

def midnight (m d : Int) : Int :=
  { p with validJd := false, m, d, h := 0, min := 0, s := 0, validYmd := true, validHms := true
    }.computeJd.ijd

def dayOfYear : Int :=
  (p.midnight p.m p.d - p.midnight 1 1 + 43200000).tdiv 86400000 + 1

def weekday : Int :=
  ((p.ijd + 129600000).tdiv 86400000).tmod 7

def isoWeekday : Int :=
  if p.weekday = 0 then 7 else p.weekday

def longYear (y : Int) : Prop :=
  let f := fun y : Int => (y + y / 4 - y / 100 + y / 400) % 7
  f y = 4 ∨ f (y - 1) = 3

instance (y : Int) : Decidable (longYear y) := inferInstanceAs (Decidable (_ ∨ _))

def isoWeekDate : Int × Int :=
  let week := (p.dayOfYear - p.isoWeekday + 10).tdiv 7
  if week < 1 then (p.y - 1, if longYear (p.y - 1) then 53 else 52)
  else if (if longYear p.y then 53 else 52) < week then (p.y + 1, 1)
  else (p.y, week)

def strftimeU : Int :=
  (p.dayOfYear - 1 + 7 - p.weekday).tdiv 7

def strftimeW : Int :=
  let nday := (p.ijd - p.midnight 1 1 + 43200000).tdiv 86400000
  (nday + 7 - if p.weekday ≠ 0 then p.weekday - 1 else 6).tdiv 7

end DateTime

end GraphiteSql
