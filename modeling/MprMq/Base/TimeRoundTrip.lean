import MprMq.Base.Time
set_option autoImplicit false

/-! `Time` through a `timeval` and a `timespec`, and back. -/

namespace MprMq.Base

def Timeval.Normalized (tv : Timeval) : Prop := 0 ≤ tv.usec ∧ tv.usec < 1000000

def Timespec.Normalized (ts : Timespec) : Prop := 0 ≤ ts.nsec ∧ ts.nsec < 1000000000

namespace Time

def toTimespec (t : Time) : Timespec :=
  if t = null then ⟨0,0⟩
  else if t = max then ⟨timeTMax,kNanosecondsPerSecond-1⟩
  else ⟨t.us.tdiv kMicrosecondsPerSecond,
    t.us.tmod kMicrosecondsPerSecond*kNanosecondsPerMicrosecond⟩

/-- Both pairs are normalized, so that the checks pass, and both lead back. -/
structure RoundTrips (t : Time) : Prop where
  timeval : t.toTimeval.Normalized
  fromTimeval : Time.fromTimeval t.toTimeval = some t
  timespec : t.toTimespec.Normalized
  fromTimespec : Time.fromTimespec t.toTimespec = some t

theorem toTimeval_eq {t : Time} (h : t ≠ max) :
    t.toTimeval = ⟨t.us.tdiv 1000000,t.us.tmod 1000000⟩ := by
  rw [toTimeval,if_neg h]
  split
  · rename_i hnull
    rw [hnull]
    rfl
  · rfl

theorem toTimespec_eq {t : Time} (h : t ≠ max) :
    t.toTimespec = ⟨t.us.tdiv 1000000,t.us.tmod 1000000*1000⟩ := by
  rw [toTimespec,if_neg h]
  split
  · rename_i hnull
    rw [hnull]
    rfl
  · rfl

theorem tmod_lt (n : Int) : n.tmod 1000000 < 1000000 := Int.tmod_lt_of_pos n (by decide)

/-- The remainder has the sign of the value. -/
theorem tmod_nonneg_iff (n : Int) : 0 ≤ n.tmod 1000000 ↔ 0 ≤ n ∨ n % 1000000 = 0 := by
  rcases Int.le_total 0 n with hsign | hsign
  · exact iff_of_true (Int.tmod_nonneg 1000000 hsign) (.inl hsign)
  · have hmirror := Int.tmod_eq_emod_of_nonneg (b := 1000000) (Int.neg_nonneg.mpr hsign)
    rw [Int.neg_tmod] at hmirror
    omega

theorem fromTimeval_toTimeval {t : Time} (h : t ≠ max) :
    Time.fromTimeval t.toTimeval = some t ↔ 0 ≤ t.us.tmod 1000000 := by
  have hsum := Int.mul_tdiv_add_tmod t.us 1000000
  have hlt := tmod_lt t.us
  rw [toTimeval_eq h,fromTimeval_eq_some t.tdiv_fits]
  dsimp only
  omega

theorem fromTimespec_toTimespec {t : Time} (h : t ≠ max) :
    Time.fromTimespec t.toTimespec = some t ↔ 0 ≤ t.us.tmod 1000000 := by
  have hsum := Int.mul_tdiv_add_tmod t.us 1000000
  have hlt := tmod_lt t.us
  have hmicro : (t.us.tmod 1000000*1000).tdiv 1000 = t.us.tmod 1000000 :=
    Int.mul_tdiv_cancel _ (by decide)
  rw [toTimespec_eq h,fromTimespec_eq_some t.tdiv_fits]
  dsimp only
  rw [hmicro]
  omega

/-- A time goes through both pairs when it is not in front of the epoch, or a whole second. -/
theorem roundTrips_iff (t : Time) : t.RoundTrips ↔ 0 ≤ t.us ∨ t.us % 1000000 = 0 := by
  by_cases hmax : t = max
  · subst hmax
    refine iff_of_true ⟨?_,rfl,?_,rfl⟩ (.inl (by decide))
    · exact (by decide : (0 : Int) ≤ 999999 ∧ (999999 : Int) < 1000000)
    · exact (by decide : (0 : Int) ≤ 999999999 ∧ (999999999 : Int) < 1000000000)
  · rw [← tmod_nonneg_iff]
    constructor
    · exact fun h => (fromTimeval_toTimeval hmax).mp h.fromTimeval
    · intro h
      have hlt := tmod_lt t.us
      refine ⟨?_,(fromTimeval_toTimeval hmax).mpr h,?_,(fromTimespec_toTimespec hmax).mpr h⟩
      · rw [toTimeval_eq hmax]
        exact ⟨h,hlt⟩
      · rw [toTimespec_eq hmax,Timespec.Normalized]
        dsimp only
        omega

/-- One microsecond in front of the epoch. -/
theorem before_epoch_negative : ¬RoundTrips ⟨-1,by decide⟩ ∧
    toTimeval ⟨-1,by decide⟩ = ⟨0,-1⟩ ∧ toTimespec ⟨-1,by decide⟩ = ⟨0,-1000⟩ ∧
    Time.fromTimeval ⟨0,-1⟩ = none ∧ Time.fromTimespec ⟨0,-1000⟩ = none := by
  have htv : toTimeval ⟨-1,by decide⟩ = ⟨0,-1⟩ := by decide
  refine ⟨fun h => ?_,htv,by decide,by decide,by decide⟩
  have hnormal := h.timeval.1
  rw [htv] at hnormal
  exact absurd hnormal (by decide)

end Time

end MprMq.Base
