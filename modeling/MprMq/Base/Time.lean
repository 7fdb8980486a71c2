import MprMq.Base.Numbers
set_option autoImplicit false

/-! `Time`, its conversions, and the times of files. -/

namespace MprMq.Base

structure Time where
  us : Int
  fits : int64Min ≤ us ∧ us ≤ int64Max
  deriving DecidableEq

structure Timeval where
  sec : Int
  usec : Int
  deriving DecidableEq

structure Timespec where
  sec : Int
  nsec : Int
  deriving DecidableEq

namespace Time

def kMicrosecondsPerSecond : Int := 1000000
def kNanosecondsPerMicrosecond : Int := 1000
def kNanosecondsPerSecond : Int := kNanosecondsPerMicrosecond*kMicrosecondsPerSecond
def kWindowsEpochDeltaSeconds : Int := 11644473600
def kTimeTToMicrosecondsOffset : Int := kWindowsEpochDeltaSeconds*kMicrosecondsPerSecond

def timeTMax : Int := int64Max

def null : Time := ⟨0,by decide⟩

def max : Time := ⟨int64Max,by decide⟩

/-- The result of signed arithmetic; `none` is an overflow, which the language leaves undefined. -/
def ofMicroseconds (us : Int) : Option Time :=
  if h : int64Min ≤ us ∧ us ≤ int64Max then some ⟨us,h⟩ else none

/-- A difference is microseconds as well. -/
def plus (t : Time) (delta : Int) : Option Time := ofMicroseconds (t.us+delta)

/-- `TimeDelta::FromSeconds`. -/
def deltaFromSeconds (seconds : Int) : Option Int :=
  (ofMicroseconds (seconds*kMicrosecondsPerSecond)).map us

def fromTimeT (tt : Int) : Option Time :=
  if tt = 0 then some null
  else if tt = timeTMax then some max
  else (deltaFromSeconds tt).bind fun delta => ofMicroseconds (kTimeTToMicrosecondsOffset+delta)

/-- A failing check is `none` as well. -/
def fromTimeval (tv : Timeval) : Option Time :=
  if ¬ (0 ≤ tv.usec ∧ tv.usec < kMicrosecondsPerSecond) then none
  else if tv.usec = 0 ∧ tv.sec = 0 then some null
  else if tv.usec = kMicrosecondsPerSecond-1 ∧ tv.sec = timeTMax then some max
  else (deltaFromSeconds tv.sec).bind fun delta => ofMicroseconds (delta+tv.usec)

def toTimeval (t : Time) : Timeval :=
  if t = null then ⟨0,0⟩
  else if t = max then ⟨timeTMax,kMicrosecondsPerSecond-1⟩
  else ⟨t.us.tdiv kMicrosecondsPerSecond,t.us.tmod kMicrosecondsPerSecond⟩

def fromTimespec (ts : Timespec) : Option Time :=
  if ¬ (0 ≤ ts.nsec ∧ ts.nsec < kNanosecondsPerSecond) then none
  else if ts.nsec = 0 ∧ ts.sec = 0 then some null
  else if ts.nsec = kNanosecondsPerSecond-1 ∧ ts.sec = timeTMax then some max
  else (deltaFromSeconds ts.sec).bind fun delta =>
    ofMicroseconds (delta+ts.nsec.tdiv kNanosecondsPerMicrosecond)

/-- Now, by what `gettimeofday` says. -/
def now (clock : Timeval) : Option Time := fromTimeval clock

end Time

structure Stat where
  atim : Timespec
  mtim : Timespec
  ctim : Timespec

structure FileInfo where
  lastModified : Time
  lastAccessed : Time
  creationTime : Time

def statTime (ts : Timespec) : Option Time :=
  (Time.fromTimeT ts.sec).bind fun t => t.plus (ts.nsec.tdiv Time.kNanosecondsPerMicrosecond)

def FileInfo.fromStat (st : Stat) : Option FileInfo := do
  let lastModified ← statTime st.mtim
  let lastAccessed ← statTime st.atim
  let creationTime ← statTime st.ctim
  return ⟨lastModified,lastAccessed,creationTime⟩

def enumeratedTime (st : Stat) : Option Time := Time.fromTimeT st.mtim.sec

/-- A file system as far as `futimes` and `stat` go: it refuses microseconds of a second or more,
keeps the two times, and sets the third to the present. -/
structure FileSystem where
  futimes : Timeval → Timeval → Option Stat
  valid : ∀ atime mtime st, futimes atime mtime = some st →
    (0 ≤ atime.usec ∧ atime.usec < 1000000) ∧ (0 ≤ mtime.usec ∧ mtime.usec < 1000000)
  keeps : ∀ atime mtime st, futimes atime mtime = some st →
    st.atim = ⟨atime.sec,atime.usec*1000⟩ ∧ st.mtim = ⟨mtime.sec,mtime.usec*1000⟩
  present : ∀ atime mtime st, futimes atime mtime = some st →
    (0 ≤ st.ctim.sec ∧ st.ctim.sec < 2^40) ∧ (0 ≤ st.ctim.nsec ∧ st.ctim.nsec < 1000000000)

def FileSystem.setTimes (fs : FileSystem) (lastAccessTime lastModifiedTime : Time) : Option Stat :=
  fs.futimes lastAccessTime.toTimeval lastModifiedTime.toTimeval

def FitsMicroseconds (t : Int) : Prop := int64Min ≤ t*1000000 ∧ t*1000000 ≤ int64Max

instance (t : Int) : Decidable (FitsMicroseconds t) := inferInstanceAs (Decidable (_ ∧ _))

def OneEpoch (t : Int) : Prop :=
  Time.fromTimeT t = Time.fromTimeval ⟨t,0⟩ ∧ Time.fromTimeval ⟨t,0⟩ = Time.fromTimespec ⟨t,0⟩

def TimesKept (st : Stat) (lastAccessTime lastModifiedTime : Time) : Prop :=
  ∃ info, FileInfo.fromStat st = some info ∧ info.lastAccessed = lastAccessTime ∧
    info.lastModified = lastModifiedTime

def ComparableWithNow (st : Stat) : Prop :=
  ∀ clock now, Time.now clock = some now → ∃ modified, enumeratedTime st = some modified ∧
    (modified.us ≤ now.us ↔ st.mtim.sec ≤ clock.sec)

def Time.FirstSecond (t : Time) : Prop := 0 ≤ t.us ∧ t.us < 1000000

instance (t : Time) : Decidable t.FirstSecond := inferInstanceAs (Decidable (_ ∧ _))

namespace Time

theorem eq_iff {t u : Time} : t = u ↔ t.us = u.us := by
  cases t
  cases u
  simp

theorem ofMicroseconds_eq_some {us : Int} {t : Time} :
    ofMicroseconds us = some t ↔ t.us = us := by
  unfold ofMicroseconds
  split
  · rw [Option.some.injEq,eq_iff]
    exact eq_comm
  · have hfits := t.fits
    refine iff_of_false (by simp) ?_
    rintro rfl
    exact absurd hfits ‹_›

theorem deltaFromSeconds_eq_some {t delta : Int} :
    deltaFromSeconds t = some delta ↔ FitsMicroseconds t ∧ delta = t*1000000 := by
  unfold deltaFromSeconds ofMicroseconds kMicrosecondsPerSecond FitsMicroseconds
  split
  · simpa [‹_›] using eq_comm
  · simp [‹_›]

theorem ne_timeTMax {t : Int} (h : FitsMicroseconds t) : t ≠ timeTMax := by
  rintro rfl
  exact absurd h.2 (by decide)

theorem fromTimeT_eq_some {t : Int} (h : FitsMicroseconds t) (hzero : t ≠ 0) {u : Time} :
    fromTimeT t = some u ↔ u.us = kTimeTToMicrosecondsOffset+t*1000000 := by
  rw [fromTimeT,if_neg hzero,if_neg (ne_timeTMax h),
    deltaFromSeconds_eq_some.mpr ⟨h,rfl⟩,Option.bind_some,ofMicroseconds_eq_some]

theorem checked_eq_some {valid : Prop} [Decidable valid] {sec part top rest : Int}
    (h : FitsMicroseconds sec) (hrest : part = 0 → rest = 0) {u : Time} :
    (if ¬ valid then none
      else if part = 0 ∧ sec = 0 then some null
      else if part = top ∧ sec = timeTMax then some max
      else (deltaFromSeconds sec).bind fun delta => ofMicroseconds (delta+rest)) = some u ↔
      valid ∧ u.us = sec*1000000+rest := by
  split
  · exact iff_of_false (by simp) fun hu => absurd hu.1 ‹_›
  rename_i hvalid
  rw [and_iff_right (not_not.mp hvalid)]
  split
  · rename_i hnull
    rw [Option.some.injEq,eq_comm,eq_iff,hnull.2,hrest hnull.1]
    rfl
  split
  · rename_i hmax
    exact absurd hmax.2 (ne_timeTMax h)
  · rw [deltaFromSeconds_eq_some.mpr ⟨h,rfl⟩,Option.bind_some,ofMicroseconds_eq_some]

theorem fromTimeval_eq_some {tv : Timeval} (h : FitsMicroseconds tv.sec) {u : Time} :
    fromTimeval tv = some u ↔
      (0 ≤ tv.usec ∧ tv.usec < 1000000) ∧ u.us = tv.sec*1000000+tv.usec :=
  checked_eq_some h id

theorem fromTimeval_whole {s : Int} {u : Time} :
    fromTimeval ⟨s,0⟩ = some u ↔ u.us = s*1000000 := by
  by_cases h : FitsMicroseconds s
  · rw [fromTimeval_eq_some h,Int.add_zero]
    exact and_iff_right ⟨Int.le_refl 0,show (0 : Int) < 1000000 by decide⟩
  · have hzero : s ≠ 0 := by
      rintro rfl
      exact h (by decide)
    have hnone : deltaFromSeconds s = none :=
      Option.eq_none_iff_forall_ne_some.mpr fun d hd => h (deltaFromSeconds_eq_some.mp hd).1
    refine iff_of_false ?_ fun hu => ?_
    · have hvalid : (0 : Int) ≤ 0 ∧ 0 < kMicrosecondsPerSecond := by decide
      have hrest : (0 : Int) ≠ kMicrosecondsPerSecond-1 := by decide
      simp [fromTimeval,hvalid,hzero,hrest,hnone]
    · have hfits := u.fits
      rw [hu] at hfits
      exact h hfits

theorem tdiv_fits (t : Time) : FitsMicroseconds (t.us.tdiv 1000000) := by
  have hsum := Int.mul_tdiv_add_tmod t.us 1000000
  have hfits := t.fits
  have hlow : int64Min = -9223372036854775808 := rfl
  have hhigh : int64Max = 9223372036854775807 := rfl
  have hlt := Int.tmod_lt_of_pos t.us (show (0 : Int) < 1000000 by decide)
  have hmirror := Int.tmod_lt_of_pos (-t.us) (show (0 : Int) < 1000000 by decide)
  rw [Int.neg_tmod] at hmirror
  unfold FitsMicroseconds
  rcases Int.le_total 0 t.us with hsign | hsign
  · have hnonneg := Int.tmod_nonneg 1000000 hsign
    omega
  · have hnonneg := Int.tmod_nonneg 1000000 (Int.neg_nonneg.mpr hsign)
    rw [Int.neg_tmod] at hnonneg
    omega

theorem toTimeval_sec {t : Time} (h : t ≠ max) : t.toTimeval.sec = t.us.tdiv 1000000 := by
  rw [toTimeval]
  split
  · rename_i hnull
    rw [hnull]
    rfl
  · rfl

theorem fromTimespec_eq_some {ts : Timespec} (h : FitsMicroseconds ts.sec) {u : Time} :
    fromTimespec ts = some u ↔
      (0 ≤ ts.nsec ∧ ts.nsec < 1000000000) ∧ u.us = ts.sec*1000000+ts.nsec.tdiv 1000 := by
  have hrest : ts.nsec = 0 → ts.nsec.tdiv 1000 = 0 := by
    intro hzero
    rw [hzero]
    rfl
  exact checked_eq_some h hrest

theorem toTimeval_spec (t : Time) : t = max ∨
    FitsMicroseconds t.toTimeval.sec ∧ t.us = t.toTimeval.sec*1000000+t.toTimeval.usec := by
  by_cases hmax : t = max
  · exact .inl hmax
  right
  by_cases hnull : t = null
  · subst hnull
    exact ⟨by decide,rfl⟩
  have htv : t.toTimeval = ⟨t.us.tdiv 1000000,t.us.tmod 1000000⟩ := by
    rw [toTimeval,if_neg hnull,if_neg hmax]
    rfl
  rw [htv]
  refine ⟨t.tdiv_fits,?_⟩
  have hsum := Int.mul_tdiv_add_tmod t.us 1000000
  dsimp only
  omega

end Time

/-- The two epochs never meet but at the reserved value. -/
theorem oneEpoch_iff {t : Int} (h : FitsMicroseconds t) : OneEpoch t ↔ t = 0 := by
  have hspec : Time.fromTimeval ⟨t,0⟩ = Time.fromTimespec ⟨t,0⟩ := by
    refine Option.ext fun u => ?_
    rw [Time.fromTimeval_eq_some h,Time.fromTimespec_eq_some h]
    simp
  have hval : Time.fromTimeval ⟨t,0⟩ = some ⟨t*1000000,h⟩ := by
    rw [Time.fromTimeval_eq_some h]
    simp
  rw [OneEpoch,and_iff_left hspec,hval]
  by_cases hzero : t = 0
  · subst hzero
    exact iff_of_true rfl rfl
  · have hoffset : Time.kTimeTToMicrosecondsOffset = 11644473600000000 := rfl
    rw [Time.fromTimeT_eq_some h hzero]
    dsimp only
    omega

/-- A time that a file has been given comes back in the first second of the epoch only. -/
theorem statTime_eq_self {t : Time} (husec : 0 ≤ t.toTimeval.usec ∧ t.toTimeval.usec < 1000000) :
    statTime ⟨t.toTimeval.sec,t.toTimeval.usec*1000⟩ = some t ↔ t.FirstSecond := by
  have hoffset : Time.kTimeTToMicrosecondsOffset = 11644473600000000 := rfl
  have hnsec : (t.toTimeval.usec*1000).tdiv Time.kNanosecondsPerMicrosecond = t.toTimeval.usec :=
    Int.mul_tdiv_cancel _ (by decide)
  simp only [statTime,hnsec,Option.bind_eq_some_iff,Time.plus,Time.ofMicroseconds_eq_some]
  rcases Time.toTimeval_spec t with rfl | ⟨hfits,hus⟩
  · refine iff_of_false ?_ (by decide)
    rintro ⟨u,hu,hsum⟩
    cases hu
    exact absurd hsum (by decide)
  · unfold Time.FirstSecond
    by_cases hzero : t.toTimeval.sec = 0
    · rw [hzero] at hus ⊢
      refine iff_of_true ⟨Time.null,rfl,?_⟩ (by omega)
      rw [hus]
      rfl
    · refine iff_of_false ?_ (by omega)
      rintro ⟨u,hu,hsum⟩
      rw [Time.fromTimeT_eq_some hfits hzero] at hu
      omega

/-- Status changes of the present can be told. -/
theorem statTime_present {ts : Timespec} (hsec : 0 ≤ ts.sec ∧ ts.sec < 2^40)
    (hnsec : 0 ≤ ts.nsec ∧ ts.nsec < 1000000000) : ∃ t, statTime ts = some t := by
  have hoffset : Time.kTimeTToMicrosecondsOffset = 11644473600000000 := rfl
  have hlow : int64Min = -9223372036854775808 := rfl
  have hhigh : int64Max = 9223372036854775807 := rfl
  have hmicro : ts.nsec.tdiv Time.kNanosecondsPerMicrosecond = ts.nsec/1000 :=
    Int.tdiv_eq_ediv_of_nonneg hnsec.1
  simp only [statTime,hmicro,Option.bind_eq_some_iff,Time.plus,Time.ofMicroseconds_eq_some]
  by_cases hzero : ts.sec = 0
  · rw [hzero]
    exact ⟨⟨ts.nsec/1000,by omega⟩,Time.null,rfl,(Int.zero_add _).symm⟩
  · have hfits : FitsMicroseconds ts.sec := by
      unfold FitsMicroseconds
      omega
    refine ⟨⟨Time.kTimeTToMicrosecondsOffset+ts.sec*1000000+ts.nsec/1000,by omega⟩,
      ⟨Time.kTimeTToMicrosecondsOffset+ts.sec*1000000,by omega⟩,?_,rfl⟩
    rw [Time.fromTimeT_eq_some hfits hzero]

theorem timesKept_iff (fs : FileSystem) {access modification : Time} {st : Stat}
    (h : fs.setTimes access modification = some st) :
    TimesKept st access modification ↔ access.FirstSecond ∧ modification.FirstSecond := by
  obtain ⟨haccess,hmodification⟩ := fs.valid _ _ _ h
  obtain ⟨hatim,hmtim⟩ := fs.keeps _ _ _ h
  obtain ⟨hsec,hnsec⟩ := fs.present _ _ _ h
  obtain ⟨creation,hcreation⟩ := statTime_present hsec hnsec
  rw [← statTime_eq_self haccess,← statTime_eq_self hmodification,← hatim,← hmtim]
  constructor
  · rintro ⟨info,hinfo,rfl,rfl⟩
    simp only [FileInfo.fromStat,Option.bind_eq_bind,Option.bind_eq_some_iff] at hinfo
    obtain ⟨modified,hmodified,accessed,haccessed,created,-,hinfo⟩ := hinfo
    cases hinfo
    exact ⟨haccessed,hmodified⟩
  · intro ⟨ha,hm⟩
    exact ⟨⟨modification,access,creation⟩,by simp [FileInfo.fromStat,ha,hm,hcreation],rfl,rfl⟩

theorem now_nonneg {clock : Timeval} {now : Time} (h : Time.now clock = some now) :
    0 ≤ now.us ↔ 0 ≤ clock.sec := by
  by_cases hfits : FitsMicroseconds clock.sec
  · obtain ⟨husec,hus⟩ := (Time.fromTimeval_eq_some hfits).mp h
    omega
  · unfold Time.now Time.fromTimeval at h
    split at h
    · cases h
    split at h
    · rename_i hnull
      rw [hnull.2] at hfits
      exact absurd (by decide) hfits
    split at h
    · rename_i hmax
      cases h
      rw [hmax.2]
      decide
    · obtain ⟨delta,hdelta,-⟩ := Option.bind_eq_some_iff.mp h
      exact absurd (Time.deltaFromSeconds_eq_some.mp hdelta).1 hfits

theorem comparable_iff {st : Stat} (h : FitsMicroseconds st.mtim.sec) :
    ComparableWithNow st ↔ st.mtim.sec = 0 := by
  constructor
  · intro hcomparable
    by_contra hzero
    have hnow : Time.now ⟨st.mtim.sec,0⟩ = some ⟨st.mtim.sec*1000000,h⟩ := by
      rw [Time.now,Time.fromTimeval_eq_some h]
      simp
    obtain ⟨modified,hmodified,hiff⟩ := hcomparable _ _ hnow
    rw [enumeratedTime,Time.fromTimeT_eq_some h hzero] at hmodified
    have hoffset : Time.kTimeTToMicrosecondsOffset = 11644473600000000 := rfl
    dsimp only at hiff
    omega
  · intro hzero clock now hnow
    refine ⟨Time.null,by rw [enumeratedTime,hzero]; rfl,?_⟩
    rw [hzero]
    exact now_nonneg hnow

/-- Only the reserved value, the zero, means the same time in all conversions; a file gives back
what SetTimes wrote only within the first second, and the enumerator's times are not those of
the clock. -/
theorem one_epoch_iff (fs : FileSystem) :
    (∀ t, FitsMicroseconds t → (OneEpoch t ↔ t = 0)) ∧
    (∀ access modification st, fs.setTimes access modification = some st →
      (TimesKept st access modification ↔ access.FirstSecond ∧ modification.FirstSecond)) ∧
    ∀ st : Stat, FitsMicroseconds st.mtim.sec → (ComparableWithNow st ↔ st.mtim.sec = 0) :=
  ⟨fun _ => oneEpoch_iff,fun _ _ _ => timesKept_iff fs,fun _ => comparable_iff⟩

def exactFileSystem : FileSystem where
  futimes atime mtime :=
    if (0 ≤ atime.usec ∧ atime.usec < 1000000) ∧ (0 ≤ mtime.usec ∧ mtime.usec < 1000000) then
      some ⟨⟨atime.sec,atime.usec*1000⟩,⟨mtime.sec,mtime.usec*1000⟩,⟨0,0⟩⟩
    else none
  valid _ _ _ h := by
    split at h
    · assumption
    · cases h
  keeps _ _ _ h := by
    split at h
    · cases h
      exact ⟨rfl,rfl⟩
    · cases h
  present _ _ _ h := by
    split at h
    · cases h
      exact (show ((0 : Int) ≤ 0 ∧ (0 : Int) < 2^40) ∧ (0 : Int) ≤ 0 ∧ (0 : Int) < 1000000000 by
        decide)
    · cases h

theorem one_epoch_at_zero : OneEpoch 0 :=
  ((one_epoch_iff exactFileSystem).1 0 (by decide)).mpr rfl

/-- One second past the epoch, told in two ways. -/
theorem second_one_twice : FitsMicroseconds 1 ∧ ¬ OneEpoch 1 ∧
    ∃ t u st, Time.fromTimeval ⟨1,0⟩ = some t ∧ t.us = 1000000 ∧ Time.fromTimeT 1 = some u ∧
      u.us = 11644473601000000 ∧ exactFileSystem.setTimes t t = some st ∧ ¬ TimesKept st t t := by
  refine ⟨by decide,by rw [oneEpoch_iff (by decide)]; decide,⟨1000000,by decide⟩,
    ⟨11644473601000000,by decide⟩,⟨⟨1,0⟩,⟨1,0⟩,⟨0,0⟩⟩,rfl,rfl,rfl,rfl,rfl,?_⟩
  rw [timesKept_iff exactFileSystem rfl]
  decide

end MprMq.Base
