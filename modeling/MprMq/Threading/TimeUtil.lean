import MprMq.Base.Numerals
import MprMq.Base.Time
import Mathlib.Data.Rat.Cast.Order
import Mathlib.Tactic.FieldSimp
import Mathlib.Tactic.Linarith
set_option autoImplicit false

/-! The conversions between ticks of different rates. -/

namespace MprMq.Threading
open MprMq.Base

namespace TimeUtil

def nsPerS : Int := 1000000000
def usPerS : Int := 1000000
def msPerS : Int := 1000

def quotient (a b : Int) : Option Int := if b = 0 then none else some (a.tdiv b)

/-- ToTicks; `none` is an overflow as well. -/
def toTicks (secs oldTicks oldTicksPerSec newTicksPerSec : Int) : Option Int := do
  let result ← IntType.int64.checked (secs*newTicksPerSec)
  let product ← IntType.int64.checked (oldTicks*newTicksPerSec)
  let result ← IntType.int64.checked (result+(← quotient product oldTicksPerSec))
  let oldPerNew ← quotient oldTicksPerSec newTicksPerSec
  if oldPerNew ≠ 0 ∧ oldPerNew.tdiv 2 ≤ oldTicks.tmod oldPerNew then
    IntType.int64.checked (result+1)
  else some result

def toTicksTimespec (value : Timespec) (ticksPerSec : Int) : Option Int :=
  toTicks value.sec value.nsec nsPerS ticksPerSec

def toTicksTimeval (value : Timeval) (ticksPerSec : Int) : Option Int :=
  toTicks value.sec value.usec usPerS ticksPerSec

/-- `CurrentTimeTicks` and `MonotonicTimeTicks`, by what their clock shows. -/
def timeTicks (now : Timespec) (ticksPerSec : Int) : Option Int := toTicksTimespec now ticksPerSec

/-- The number that is within one half of the exact value. -/
def Nearest (secs oldTicks oldTicksPerSec newTicksPerSec r : Int) : Prop :=
  |(r : ℚ)-(secs*newTicksPerSec+oldTicks*newTicksPerSec/oldTicksPerSec)| ≤ 1/2

theorem nearest_iff {secs oldTicks old new r : Int} (hold : 0 < old) :
    Nearest secs oldTicks old new r ↔ 2*(r*old-secs*new*old-oldTicks*new) ≤ old ∧
      -old ≤ 2*(r*old-secs*new*old-oldTicks*new) := by
  have hq : (0 : ℚ) < old := Int.cast_pos.mpr hold
  have hexact : (r : ℚ)-(secs*new+oldTicks*new/old) =
      ((2*(r*old-secs*new*old-oldTicks*new) : Int) : ℚ)/(2*old) := by
    push_cast
    field_simp
    ring
  rw [Nearest,hexact,abs_le,le_div_iff₀ (by positivity),div_le_iff₀ (by positivity),and_comm]
  have hhalf : (1/2 : ℚ)*(2*old) = old := by ring
  have hneg : -(1/2 : ℚ)*(2*old) = ((-old : Int) : ℚ) := by
    push_cast
    ring
  rw [hhalf,hneg,Int.cast_le,Int.cast_le]

/-- Of an odd number of old ticks the middle one counts as a new tick too early. -/
def AtOddMiddle (oldTicks oldTicksPerSec newTicksPerSec : Int) : Prop :=
  oldTicksPerSec/newTicksPerSec%2 = 1 ∧
    oldTicks%(oldTicksPerSec/newTicksPerSec) = oldTicksPerSec/newTicksPerSec/2

def bump (oldTicks old new : Int) : Int :=
  if old/new ≠ 0 ∧ old/new/2 ≤ oldTicks%(old/new) then 1 else 0

theorem bump_nonneg (oldTicks old new : Int) : 0 ≤ bump oldTicks old new := by
  rw [bump]
  split <;> decide

section rates
variable {secs oldTicks old new : Int}

theorem toTicks_eq (hsecs : 0 ≤ secs) (hold : 0 < old) (hnew : 0 < new)
    (hticks : 0 ≤ oldTicks) (hproduct : secs*new ≤ int64Max) (hproduct' : oldTicks*new ≤ int64Max) :
    toTicks secs oldTicks old new = IntType.int64.checked (secs*new+oldTicks*new/old+
      bump oldTicks old new) := by
  have hmin : IntType.int64.min = -2^63 := rfl
  have hmax : IntType.int64.max = int64Max := rfl
  have hwhole : 0 ≤ secs*new := Int.mul_nonneg hsecs (Int.le_of_lt hnew)
  have hpart : 0 ≤ oldTicks*new := Int.mul_nonneg hticks (Int.le_of_lt hnew)
  have hquotient : 0 ≤ oldTicks*new/old := Int.ediv_nonneg hpart (Int.le_of_lt hold)
  have hratio : 0 ≤ old/new := Int.ediv_nonneg (Int.le_of_lt hold) (Int.le_of_lt hnew)
  rw [toTicks,IntType.checked_eq (by omega) (by omega),Option.bind_eq_bind,Option.bind_some,
    IntType.checked_eq (by omega) (by omega),Option.bind_some]
  simp only [quotient,if_neg (Int.ne_of_gt hold),if_neg (Int.ne_of_gt hnew),
    Option.bind_some,Int.tdiv_eq_ediv_of_nonneg hpart,
    Int.tdiv_eq_ediv_of_nonneg (Int.le_of_lt hold),Int.tdiv_eq_ediv_of_nonneg hratio,
    Int.tmod_eq_emod_of_nonneg hticks]
  by_cases hfits : secs*new+oldTicks*new/old ≤ int64Max
  · rw [IntType.checked_eq (by omega) (by omega),Option.bind_some]
    rw [bump]
    split
    · rfl
    · rw [Int.add_zero,IntType.checked_eq (by omega) (by omega)]
  · have hnone (n : Int) (hn : 0 ≤ n) :
        IntType.int64.checked (secs*new+oldTicks*new/old+n) = none :=
      if_neg (by omega)
    have hzero := hnone 0 (Int.le_refl 0)
    rw [Int.add_zero] at hzero
    rw [hzero,Option.bind_none,hnone _ (bump_nonneg oldTicks old new)]

/-- Where the value lands and whether it is the nearest one, by the ticks that are left over. -/
theorem near_iff {result b : Int} (hold : 0 < old) (hsum : result = secs*new+oldTicks*new/old) :
    Nearest secs oldTicks old new (result+b) ↔ 2*(b*old-oldTicks*new%old) ≤ old ∧
      -old ≤ 2*(b*old-oldTicks*new%old) := by
  have hleft : (result+b)*old-secs*new*old-oldTicks*new = b*old-oldTicks*new%old := by
    have hsplit := Int.emod_add_mul_ediv (oldTicks*new) old
    rw [hsum]
    linarith [mul_comm old (oldTicks*new/old)]
  rw [nearest_iff hold,hleft]

theorem ratio_pos (hold : 0 < old) (hnew : 0 < new) (hdvd : new ∣ old) : 0 < old/new :=
  Int.ediv_pos_of_pos_of_dvd hold (Int.le_of_lt hnew) hdvd

theorem remainder_of_dvd (hnew : 0 < new) (hdvd : new ∣ old) :
    oldTicks*new%old = new*(oldTicks%(old/new)) := by
  have hmul : oldTicks*new%old = new*oldTicks%(new*(old/new)) := by
    rw [Int.mul_ediv_cancel' hdvd,Int.mul_comm]
  rw [hmul,Int.mul_emod_mul_of_pos _ _ hnew]

theorem near_of_dvd (hold : 0 < old) (hnew : 0 < new) (hdvd : new ∣ old) :
    Nearest secs oldTicks old new (secs*new+oldTicks*new/old+bump oldTicks old new) ↔
      ¬ AtOddMiddle oldTicks old new := by
  have hpos := ratio_pos hold hnew hdvd
  have hlow := Int.emod_nonneg oldTicks (Int.ne_of_gt hpos)
  have hhigh := Int.emod_lt_of_pos oldTicks hpos
  have hscale (b r : Int) :
      2*(b*(new*(old/new))-new*r) ≤ new*(old/new) ∧ -(new*(old/new)) ≤ 2*(b*(new*(old/new))-new*r) ↔
        2*(b*(old/new)-r) ≤ old/new ∧ -(old/new) ≤ 2*(b*(old/new)-r) := by
    have hleft : 2*(b*(new*(old/new))-new*r) = new*(2*(b*(old/new)-r)) := by ring
    rw [hleft,← Int.mul_neg,Int.mul_le_mul_left hnew,Int.mul_le_mul_left hnew]
  have hscaled := hscale (bump oldTicks old new) (oldTicks%(old/new))
  rw [Int.mul_ediv_cancel' hdvd] at hscaled
  rw [near_iff hold rfl,remainder_of_dvd hnew hdvd,hscaled,AtOddMiddle,bump]
  generalize old/new = k at *
  split <;> omega

theorem near_of_multiple (hold : 0 < old) (hnew : 0 < new) (hdvd : old ∣ new) :
    Nearest secs oldTicks old new (secs*new+oldTicks*new/old+bump oldTicks old new) ↔
      ¬ AtOddMiddle oldTicks old new := by
  by_cases heq : old = new
  · exact near_of_dvd hold hnew (dvd_of_eq heq.symm)
  · have hlt : old < new := lt_of_le_of_ne (Int.le_of_dvd hnew hdvd) heq
    have hzero : old/new = 0 := Int.ediv_eq_zero_of_lt (Int.le_of_lt hold) hlt
    have hwhole : oldTicks*new%old = 0 :=
      Int.emod_eq_zero_of_dvd (Dvd.dvd.mul_left hdvd oldTicks)
    rw [near_iff hold rfl,hwhole,AtOddMiddle,bump,hzero]
    simp only [ne_eq,not_true_eq_false,false_and,if_false]
    omega

theorem bump_of_dvd (hold : 0 < old) (hnew : 0 < new) (hdvd : new ∣ old)
    (hmiddle : ¬ AtOddMiddle oldTicks old new) :
    bump oldTicks old new = if old ≤ oldTicks*new%old+old/2 then 1 else 0 := by
  have hpos := ratio_pos hold hnew hdvd
  have hhalf : old ≤ oldTicks*new%old+old/2 ↔ old/new ≤ 2*(oldTicks%(old/new)) := by
    have hscale : new*(old/new) ≤ new*(2*(oldTicks%(old/new))) ↔ _ := Int.mul_le_mul_left hnew
    rw [Int.mul_ediv_cancel' hdvd,Int.mul_left_comm] at hscale
    rw [remainder_of_dvd hnew hdvd,← hscale]
    omega
  rw [AtOddMiddle] at hmiddle
  rw [bump]
  congr 1
  rw [hhalf,eq_iff_iff]
  generalize old/new = k at *
  omega

theorem bump_of_multiple (hold : 0 < old) (hnew : 0 < new) (hdvd : old ∣ new)
    (hmiddle : ¬ AtOddMiddle oldTicks old new) :
    bump oldTicks old new = if old ≤ oldTicks*new%old+old/2 then 1 else 0 := by
  by_cases heq : old = new
  · exact bump_of_dvd hold hnew (dvd_of_eq heq.symm) hmiddle
  · have hlt : old < new := lt_of_le_of_ne (Int.le_of_dvd hnew hdvd) heq
    have hwhole : oldTicks*new%old = 0 :=
      Int.emod_eq_zero_of_dvd (Dvd.dvd.mul_left hdvd oldTicks)
    rw [bump,Int.ediv_eq_zero_of_lt (Int.le_of_lt hold) hlt,hwhole,if_neg (fun h => h.1 rfl),
      if_neg (by omega)]

/-- Off those middles what is added is what rounds. -/
theorem bump_eq (hold : 0 < old) (hnew : 0 < new) (hrates : old ∣ new ∨ new ∣ old)
    (hmiddle : ¬ AtOddMiddle oldTicks old new) :
    oldTicks*new/old+bump oldTicks old new = (oldTicks*new+old/2)/old := by
  have hbump : bump oldTicks old new = if old ≤ oldTicks*new%old+old/2 then 1 else 0 :=
    hrates.elim (fun h => bump_of_multiple hold hnew h hmiddle)
      (fun h => bump_of_dvd hold hnew h hmiddle)
  have hsplit : oldTicks*new+old/2 = oldTicks*new%old+old/2+old*(oldTicks*new/old) := by
    have hmod := Int.emod_add_mul_ediv (oldTicks*new) old
    omega
  have hlow := Int.emod_nonneg (oldTicks*new) (Int.ne_of_gt hold)
  have hhigh := Int.emod_lt_of_pos (oldTicks*new) hold
  rw [hsplit,Int.add_mul_ediv_left _ _ (Int.ne_of_gt hold),Int.add_comm,hbump]
  congr 1
  split
  case isTrue hup => exact ((Int.ediv_eq_iff_of_pos hold).mpr ⟨by omega,by omega⟩).symm
  case isFalse hup => exact (Int.ediv_eq_zero_of_lt (by omega) (by omega)).symm

/-- An exact value that is an integer is the only one near. -/
theorem Nearest.exact {r n : Int} (hnear : Nearest secs oldTicks old new r)
    (hn : (n : ℚ) = secs*new+oldTicks*new/old) : r = n := by
  have hlt : |((r-n : Int) : ℚ)| < 1 := by
    rw [Nearest,← hn] at hnear
    push_cast
    linarith
  rw [← Int.cast_abs] at hlt
  have hzero := Int.abs_lt_one_iff.mp (by exact_mod_cast hlt)
  omega

/-- The nearest value comes out when it fits and no odd middle is met. -/
theorem toTicks_nearest_iff (hsecs : 0 ≤ secs) (hold : 0 < old) (hnew : 0 < new)
    (hrates : old ∣ new ∨ new ∣ old) (hticks : 0 ≤ oldTicks)
    (hproduct : secs*new ≤ int64Max) (hproduct' : oldTicks*new ≤ int64Max) :
    (∃ r, toTicks secs oldTicks old new = some r ∧ Nearest secs oldTicks old new r ∧
      ∀ n : Int, (n : ℚ) = secs*new+oldTicks*new/old → r = n) ↔
        secs*new+(oldTicks*new+old/2)/old ≤ int64Max ∧ ¬ AtOddMiddle oldTicks old new := by
  have hwhole : 0 ≤ secs*new := Int.mul_nonneg hsecs (Int.le_of_lt hnew)
  have hpart : 0 ≤ oldTicks*new/old :=
    Int.ediv_nonneg (Int.mul_nonneg hticks (Int.le_of_lt hnew)) (Int.le_of_lt hold)
  have hbump := bump_nonneg oldTicks old new
  have hnear : Nearest secs oldTicks old new (secs*new+oldTicks*new/old+bump oldTicks old new) ↔
      ¬ AtOddMiddle oldTicks old new :=
    hrates.elim (near_of_multiple hold hnew) (near_of_dvd hold hnew)
  rw [toTicks_eq hsecs hold hnew hticks hproduct hproduct']
  constructor
  · rintro ⟨r,hval,hr,-⟩
    rw [IntType.checked,Option.ite_none_right_eq_some,Option.some.injEq] at hval
    obtain ⟨⟨-,hmax⟩,rfl⟩ := hval
    have hmiddle := hnear.mp hr
    rw [← bump_eq hold hnew hrates hmiddle,← Int.add_assoc]
    exact ⟨hmax,hmiddle⟩
  · rintro ⟨hmax,hmiddle⟩
    rw [← bump_eq hold hnew hrates hmiddle,← Int.add_assoc] at hmax
    have hmin : IntType.int64.min ≤ secs*new+oldTicks*new/old+bump oldTicks old new := by
      have hlow : IntType.int64.min = -2^63 := rfl
      omega
    have hr := hnear.mpr hmiddle
    exact ⟨_,IntType.checked_eq hmin hmax,hr,fun n => hr.exact⟩

end rates

theorem toTicks_nearest_of_third :
    (∃ r, toTicks 7 2 3 1 = some r ∧ Nearest 7 2 3 1 r ∧
      ∀ n : Int, (n : ℚ) = (7 : Int)*(1 : Int)+(2 : Int)*(1 : Int)/(3 : Int) → r = n) ↔
        (7 : Int)*1+(2*1+3/2)/3 ≤ int64Max ∧ ¬ AtOddMiddle 2 3 1 :=
  toTicks_nearest_iff (by decide) (by decide) (by decide) (.inr (by decide)) (by decide)
    (by decide) (by decide)

/-- Microseconds to microseconds: one too many. -/
theorem toTicks_same_rate :
    toTicks 1 5 usPerS usPerS = some 1000006 ∧ ¬ Nearest 1 5 usPerS usPerS 1000006 := by
  refine ⟨by decide,fun hnear => ?_⟩
  have hfar := ((nearest_iff (by decide)).mp hnear).1
  exact absurd hfar (by decide)

/-- Every whole number of milliseconds or microseconds holds an even number of nanoseconds. -/
theorem timeTicks_nearest {now : Timespec} {rate : Int} (hrate : rate = msPerS ∨ rate = usPerS)
    (hsec : 0 ≤ now.sec) (hnsec : 0 ≤ now.nsec ∧ now.nsec < nsPerS)
    (hfits : now.sec*rate+rate ≤ int64Max) :
    ∃ r, timeTicks now rate = some r ∧ Nearest now.sec now.nsec nsPerS rate r := by
  have hmax : int64Max = 9223372036854775807 := rfl
  have hns : nsPerS = 1000000000 := rfl
  have hpos : 0 < rate := hrate.elim (fun h => h ▸ by decide) (fun h => h ▸ by decide)
  have hdvd : rate ∣ nsPerS := hrate.elim (fun h => h ▸ by decide) (fun h => h ▸ by decide)
  have heven : ¬ AtOddMiddle now.nsec nsPerS rate := fun h =>
    hrate.elim (fun hms => absurd (hms ▸ h.1) (by decide)) fun hus => absurd (hus ▸ h.1) (by decide)
  have hproduct : now.nsec*rate ≤ int64Max := by
    rcases hrate with rfl | rfl
    · rw [show msPerS = 1000 from rfl]
      omega
    · rw [show usPerS = 1000000 from rfl]
      omega
  have hnearest : now.sec*rate+(now.nsec*rate+nsPerS/2)/nsPerS ≤ int64Max := by
    have hup : (now.nsec*rate+nsPerS/2)/nsPerS ≤ rate := by
      have hpart : now.nsec*rate ≤ nsPerS*rate :=
        Int.mul_le_mul_of_nonneg_right (Int.le_of_lt hnsec.2) (Int.le_of_lt hpos)
      rw [← Int.lt_add_one_iff,Int.ediv_lt_iff_lt_mul (by decide),hns]
      rw [hns] at hpart
      omega
    omega
  obtain ⟨r,hr,hnear,-⟩ := (toTicks_nearest_iff hsec (by decide) hpos (.inr hdvd) hnsec.1
    (by omega) hproduct).mpr ⟨hnearest,heven⟩
  exact ⟨r,hr,hnear⟩

/-- Microseconds asked of a `timeval` are always one too many. -/
theorem toTicksTimeval_same {value : Timeval} (hsec : 0 ≤ value.sec)
    (husec : 0 ≤ value.usec ∧ value.usec < usPerS) (hfits : value.sec*usPerS+usPerS ≤ int64Max) :
    toTicksTimeval value usPerS = some (value.sec*usPerS+value.usec+1) := by
  have hus : usPerS = 1000000 := rfl
  have hmax : int64Max = 9223372036854775807 := rfl
  have hmin : IntType.int64.min = -2^63 := rfl
  have hmax' : IntType.int64.max = int64Max := rfl
  have hbump : bump value.usec usPerS usPerS = 1 := by
    rw [bump,hus]
    exact if_pos ⟨by decide,by omega⟩
  have hwhole : 0 ≤ value.sec*usPerS := Int.mul_nonneg hsec (by decide)
  have hpart : value.usec*usPerS ≤ int64Max := by
    rw [hus]
    omega
  rw [toTicksTimeval,toTicks_eq hsec (by decide) (by decide) husec.1 (by omega) hpart,hbump,
    Int.mul_ediv_cancel _ (by decide),IntType.checked_eq (by omega) (by omega)]

end TimeUtil

end MprMq.Threading
