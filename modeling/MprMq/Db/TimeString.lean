import MprMq.Base.LocalTime
import MprMq.Db.MysqlDirectResult
set_option autoImplicit false

/-! Times written into a database, and read from there. -/

namespace MprMq.Db
open Lib

def clearedTm : Base.Tm := ⟨0,0,0,0,0,0,0⟩

section zone
variable {Float Double : Type}

def Readers.inZone (readers : Readers Float Double) (zone : Base.TimeZone) :
    Readers Float Double :=
  { readers with strptime := fun text =>
    (Base.strptime Base.defaultFormat text clearedTm).map fun (tm,_) => zone.mktime tm }

/-- A time is read back, in whole seconds, from the text that it has been written as. -/
def ReadsBack (readers : Readers Float Double) (zone : Base.TimeZone) (t : Base.Time) : Prop :=
  ∃ text t', t.format zone Base.defaultFormat = some text ∧
    parseTimeString (readers.inZone zone) text = .ok (true,some (.time t')) ∧
    t'.us = t.us.tdiv 1000000*1000000

theorem cString_eq {text : Text} (h : '\x00' ∉ text) : cString text = text := by
  refine List.takeWhile_eq_self_iff.mpr fun c hc => ?_
  rw [bne_iff_ne]
  rintro rfl
  exact h hc

/-- A year of four digits at most is read, by the offset of standard time. -/
theorem parse_inZone (readers : Readers Float Double) {zone : Base.TimeZone} {t : Base.Time}
    (hyear : 0 ≤ zone.localYear t.toTimeval.sec ∧ zone.localYear t.toTimeval.sec ≤ 9999) :
    ∃ text, t.format zone Base.defaultFormat = some text ∧
      parseTimeString (readers.inZone zone) text =
        match Base.Time.fromTimeval ⟨zone.clock t.toTimeval.sec-zone.std,0⟩ with
        | none => .error .overflow
        | some t' => .ok (true,some (.time t')) := by
  obtain ⟨text,tm,rest,hformat,⟨hnul,hne⟩,hread,hmktime⟩ :=
    Base.TimeZone.parse_format hyear.1 hyear.2 (rfl : clearedTm.isdst = 0)
  refine ⟨text,hformat,?_⟩
  rw [parseTimeString,cString_eq hnul,if_neg hne]
  cases hval : Base.Time.fromTimeval ⟨zone.clock t.toTimeval.sec-zone.std,0⟩ <;>
    simp [Readers.inZone,hread,hmktime,hval]

theorem readsBack_iff_of_year (readers : Readers Float Double) {zone : Base.TimeZone}
    {t : Base.Time}
    (hyear : 0 ≤ zone.localYear t.toTimeval.sec ∧ zone.localYear t.toTimeval.sec ≤ 9999) :
    ReadsBack readers zone t ↔
      (zone.holds t.toTimeval.sec = true → zone.dst = zone.std) := by
  obtain ⟨text,hformat,hparse⟩ := parse_inZone readers hyear
  have hmax : t ≠ Base.Time.max := by
    rintro rfl
    exact absurd hyear.2 (Int.not_le.mpr zone.localYear_max)
  have hsec := Base.Time.toTimeval_sec hmax
  have hclock : zone.clock t.toTimeval.sec-zone.std = t.toTimeval.sec ↔
      (zone.holds t.toTimeval.sec = true → zone.dst = zone.std) := by
    rw [Base.TimeZone.clock]
    cases zone.holds t.toTimeval.sec with
    | true =>
      simp only [if_true,true_implies]
      omega
    | false => simp
  rw [← hclock]
  generalize zone.clock t.toTimeval.sec-zone.std = sec at *
  constructor
  · rintro ⟨text',t',hformat',hread,hus⟩
    cases hformat.symm.trans hformat'
    rw [hparse] at hread
    cases hval : Base.Time.fromTimeval ⟨sec,0⟩ with
    | none =>
      rw [hval] at hread
      cases hread
    | some t'' =>
      rw [hval] at hread
      cases hread
      have hus' := Base.Time.fromTimeval_whole.mp hval
      omega
  · intro heq
    have hval : Base.Time.fromTimeval ⟨sec,0⟩ =
        some ⟨t.us.tdiv 1000000*1000000,t.tdiv_fits⟩ :=
      Base.Time.fromTimeval_whole.mpr (by rw [heq,hsec])
    exact ⟨text,_,hformat,by rw [hparse,hval],rfl⟩

/-- The text of a time is read as that time where its local year has four digits at most, and
daylight time does not hold or is none. -/
theorem time_reads_back (readers : Readers Float Double) (zone : Base.TimeZone) (t : Base.Time) :
    ReadsBack readers zone t ↔
      (0 ≤ zone.localYear t.toTimeval.sec ∧ zone.localYear t.toTimeval.sec ≤ 9999) ∧
      (zone.holds t.toTimeval.sec = true → zone.dst = zone.std) := by
  by_cases hyear : 0 ≤ zone.localYear t.toTimeval.sec ∧ zone.localYear t.toTimeval.sec ≤ 9999
  · rw [readsBack_iff_of_year readers hyear,and_iff_right hyear]
  · refine iff_of_false ?_ fun h => hyear h.1
    rintro ⟨text,t',hformat,hread,-⟩
    obtain ⟨tm,-,htext⟩ := Base.Time.format_eq_some hformat
    have hnone := zone.not_parsed hyear hformat clearedTm
    rw [parseTimeString,cString_eq (Base.strftime_no_nul htext)] at hread
    simp only [Readers.inZone,hnone,Option.map_none] at hread
    split at hread <;> cases hread

end zone

def summerZone : Base.TimeZone :=
  ⟨3600,7200,fun t => decide (1000000000 ≤ t) && decide (t < 1010000000),by decide⟩

def summerTime : Base.Time := ⟨1005000000000000,by decide⟩

theorem summer_year : 0 ≤ summerZone.localYear summerTime.toTimeval.sec ∧
    summerZone.localYear summerTime.toTimeval.sec ≤ 9999 := by decide

/-- A time of summer, which no other time shares its clock with, is read an hour late. -/
theorem summer_time_shifted :
    (∀ s, summerZone.clock s = summerZone.clock summerTime.toTimeval.sec →
      s = summerTime.toTimeval.sec) ∧
    ¬ ReadsBack noReaders summerZone summerTime ∧
    ∃ text t', summerTime.format summerZone Base.defaultFormat = some text ∧
      parseTimeString (noReaders.inZone summerZone) text = .ok (true,some (.time t')) ∧
      t'.us = summerTime.us+3600*1000000 := by
  refine ⟨fun s hs => ?_,?_,?_⟩
  · have hclock : summerZone.clock summerTime.toTimeval.sec = 1005007200 := by decide
    have hsec : summerTime.toTimeval.sec = 1005000000 := by decide
    have hs' : summerZone.clock s =
        s+if 1000000000 ≤ s ∧ s < 1010000000 then 7200 else 3600 := by
      simp [Base.TimeZone.clock,summerZone]
    rw [hs',hclock] at hs
    rw [hsec]
    by_cases hsummer : 1000000000 ≤ s ∧ s < 1010000000
    · rw [if_pos hsummer] at hs
      omega
    · rw [if_neg hsummer] at hs
      omega
  · rw [readsBack_iff_of_year noReaders summer_year]
    decide
  · obtain ⟨text,hformat,hparse⟩ := parse_inZone noReaders summer_year
    exact ⟨text,⟨1005003600000000,by decide⟩,hformat,hparse,by decide⟩

end MprMq.Db
