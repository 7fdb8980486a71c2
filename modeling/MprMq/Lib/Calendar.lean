import Mathlib.Order.Basic
import Mathlib.Tactic.Common
set_option autoImplicit false

/-! The Gregorian calendar, by days from 1 January 1970. Its years begin in March here, so that the
leap day is the last of a year. -/

namespace MprMq.Lib

structure Date where
  year : Int
  month : Int
  day : Int
  deriving DecidableEq

def daysBeforeYear (y : Int) : Int := 365*y + y/4 - y/100 + y/400

def daysBeforeMonth (m : Int) : Int := (153*m+2)/5

def Date.days (d : Date) : Int :=
  if d.month ≤ 2 then
    daysBeforeYear (d.year-1) + daysBeforeMonth (d.month+9) + d.day - 719469
  else daysBeforeYear d.year + daysBeforeMonth (d.month-3) + d.day - 719469

/-- The years that are full by a day `n` from 1 March of the year 0, and the days behind them. -/
def fullYears (n : Int) : Int × Int :=
  let era := n/146097
  let inEra := n%146097
  let century := min (inEra/36524) 3
  let inCentury := inEra-36524*century
  let quad := inCentury/1461
  let inQuad := inCentury%1461
  let year := min (inQuad/365) 3
  (400*era+100*century+4*quad+year,inQuad-365*year)

def dateOf (days : Int) : Date :=
  let (year,inYear) := fullYears (days+719468)
  let month := (5*inYear+2)/153
  let day := inYear-daysBeforeMonth month+1
  if month < 10 then ⟨year,month+3,day⟩ else ⟨year+1,month-9,day⟩

theorem daysBeforeYear_eq {era century quad year : Int} (hcentury : 0 ≤ century ∧ century ≤ 3)
    (hquad : 0 ≤ quad ∧ quad ≤ 24) (hyear : 0 ≤ year ∧ year ≤ 3) :
    daysBeforeYear (400*era+100*century+4*quad+year) =
      146097*era+36524*century+1461*quad+365*year := by
  have h4 : (400*era+100*century+4*quad+year)/4 = 100*era+25*century+quad := by omega
  have h100 : (400*era+100*century+4*quad+year)/100 = 4*era+century := by omega
  have h400 : (400*era+100*century+4*quad+year)/400 = era := by omega
  rw [daysBeforeYear,h4,h100,h400]
  omega

theorem fullYears_eq (n : Int) : daysBeforeYear (fullYears n).1 + (fullYears n).2 = n ∧
    0 ≤ (fullYears n).2 ∧ (fullYears n).2 ≤ 365 := by
  have hsplit (inEra : Int) (hlow : 0 ≤ inEra) (hhigh : inEra < 146097) :
      0 ≤ inEra-36524*min (inEra/36524) 3 ∧ inEra-36524*min (inEra/36524) 3 ≤ 36524 ∧
        0 ≤ min (inEra/36524) 3 := by omega
  have hrest (inQuad : Int) (hlow : 0 ≤ inQuad) (hhigh : inQuad < 1461) :
      0 ≤ inQuad-365*min (inQuad/365) 3 ∧ inQuad-365*min (inQuad/365) 3 ≤ 365 ∧
        0 ≤ min (inQuad/365) 3 := by omega
  obtain ⟨hlow,hhigh,hcentury⟩ := hsplit (n%146097) (by omega) (by omega)
  unfold fullYears
  dsimp only
  generalize hcenturyEq : min (n%146097/36524) 3 = century at *
  generalize hinCentury : n%146097-36524*century = inCentury at *
  obtain ⟨hlow',hhigh',hyear⟩ := hrest (inCentury%1461) (by omega) (by omega)
  generalize hyearEq : min (inCentury%1461/365) 3 = year at *
  rw [daysBeforeYear_eq ⟨hcentury,by omega⟩ ⟨by omega,by omega⟩ ⟨hyear,by omega⟩]
  omega

/-- The month of a day in a year, and the day in that month. -/
theorem month_bounds {inYear : Int} (hlow : 0 ≤ inYear) (hhigh : inYear ≤ 365) :
    (0 ≤ (5*inYear+2)/153 ∧ (5*inYear+2)/153 ≤ 11) ∧
      daysBeforeMonth ((5*inYear+2)/153) ≤ inYear ∧
      inYear ≤ daysBeforeMonth ((5*inYear+2)/153)+30 := by
  unfold daysBeforeMonth
  omega

theorem dateOf_bounds (days : Int) : (1 ≤ (dateOf days).month ∧ (dateOf days).month ≤ 12) ∧
    1 ≤ (dateOf days).day ∧ (dateOf days).day ≤ 31 := by
  obtain ⟨-,hlow,hhigh⟩ := fullYears_eq (days+719468)
  have hmonth := month_bounds hlow hhigh
  unfold dateOf
  dsimp only
  split
  · dsimp only
    omega
  · dsimp only
    omega

/-- A day is found again by its date. -/
theorem days_dateOf (days : Int) : (dateOf days).days = days := by
  obtain ⟨heq,hlow,hhigh⟩ := fullYears_eq (days+719468)
  have hmonth := month_bounds hlow hhigh
  unfold dateOf Date.days
  dsimp only
  split
  · rename_i hlt
    dsimp only
    rw [if_neg (by omega),Int.add_sub_cancel]
    omega
  · rename_i hge
    have hback (m : Int) : m-9+9 = m := by omega
    dsimp only
    rw [if_pos (by omega),Int.add_sub_cancel,hback]
    omega

theorem dateOf_year_far {days : Int} (h : 3000000 ≤ days) : 9999 < (dateOf days).year := by
  obtain ⟨heq,hlow,hhigh⟩ := fullYears_eq (days+719468)
  have hyear : 9999 < (fullYears (days+719468)).1 := by
    unfold daysBeforeYear at heq
    omega
  unfold dateOf
  dsimp only
  split
  · exact hyear
  · dsimp only
    omega

example : dateOf 0 = ⟨1970,1,1⟩ ∧ dateOf 11016 = ⟨2000,2,29⟩ ∧ dateOf 11017 = ⟨2000,3,1⟩ := by
  decide

end MprMq.Lib
