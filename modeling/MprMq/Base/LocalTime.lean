import Mathlib.Algebra.Ring.Int.Defs
import MprMq.Base.Time
import MprMq.Lib.Calendar
set_option autoImplicit false

/-! Local time broken down, written and read, as POSIX has it. -/

namespace MprMq.Base
open Lib

/-- The fields of a `struct tm` that formats reach, and whether daylight time is in force. -/
structure Tm where
  sec : Int
  min : Int
  hour : Int
  mday : Int
  mon : Int
  year : Int
  isdst : Int
  deriving DecidableEq

/-- An offset from UTC, of 24:59:59 at the most. -/
def IsOffset (seconds : Int) : Prop := -89999 ≤ seconds ∧ seconds ≤ 89999

instance (seconds : Int) : Decidable (IsOffset seconds) := inferInstanceAs (Decidable (_ ∧ _))

/-- A time zone, by its offsets and the times that daylight time holds at. -/
structure TimeZone where
  std : Int
  dst : Int
  holds : Int → Bool
  isOffset : IsOffset std ∧ IsOffset dst

namespace TimeZone

def clock (zone : TimeZone) (t : Int) : Int := t+(if zone.holds t then zone.dst else zone.std)

def localYear (zone : TimeZone) (t : Int) : Int := (dateOf (zone.clock t/86400)).year

/-- `localtime`; `none` where the year does not fit an `int`. -/
def localtime (zone : TimeZone) (t : Int) : Option Tm :=
  let date := dateOf (zone.clock t/86400)
  let rest := zone.clock t%86400
  if -2^31 ≤ date.year-1900 ∧ date.year-1900 < 2^31 then
    some ⟨rest%60,rest/60%60,rest/3600,date.day,date.month-1,date.year-1900,
      if zone.holds t then 1 else 0⟩
  else none

end TimeZone

def Tm.clock (tm : Tm) : Int :=
  Date.days ⟨tm.year+1900+tm.mon/12,tm.mon%12+1,tm.mday⟩*86400+tm.hour*3600+tm.min*60+tm.sec

/-- `mktime`: `tm_isdst` decides between the offsets, unless it is negative. -/
def TimeZone.mktime (zone : TimeZone) (tm : Tm) : Int :=
  if tm.isdst = 0 then tm.clock-zone.std
  else if 0 < tm.isdst then tm.clock-zone.dst
  else if zone.holds (tm.clock-zone.dst) then tm.clock-zone.dst
  else tm.clock-zone.std

inductive TmField where
  | year
  | month
  | day
  | hour
  | minute
  | second

namespace TmField

def ofSpecifier : Char → Option TmField
  | 'Y' => some .year
  | 'm' => some .month
  | 'd' => some .day
  | 'H' => some .hour
  | 'M' => some .minute
  | 'S' => some .second
  | _ => none

def get (tm : Tm) : TmField → Int
  | .year => tm.year+1900
  | .month => tm.mon+1
  | .day => tm.mday
  | .hour => tm.hour
  | .minute => tm.min
  | .second => tm.sec

def set (tm : Tm) (v : Int) : TmField → Tm
  | .year => { tm with year := v-1900 }
  | .month => { tm with mon := v-1 }
  | .day => { tm with mday := v }
  | .hour => { tm with hour := v }
  | .minute => { tm with min := v }
  | .second => { tm with sec := v }

structure Range where
  low : Nat
  high : Nat
  digits : Nat

def range : TmField → Range
  | .year => ⟨0,9999,4⟩
  | .month => ⟨1,12,2⟩
  | .day => ⟨1,31,2⟩
  | .hour => ⟨0,23,2⟩
  | .minute => ⟨0,59,2⟩
  | .second => ⟨0,61,2⟩

/-- A year is written as it is, the other fields with two digits. -/
def print (v : Int) : TmField → Text
  | .year => if v < 0 then '-' :: Nat.toDigits 10 v.natAbs else Nat.toDigits 10 v.natAbs
  | _ => [Nat.digitChar (v.natAbs/10),Nat.digitChar (v.natAbs%10)]

end TmField

/-- `strftime`, for the conversion specifications of TmField. -/
def strftime (tm : Tm) : Text → Option Text
  | '%' :: c :: format => do
    let field ← TmField.ofSpecifier c
    let rest ← strftime tm format
    some (field.print (field.get tm) ++ rest)
  | c :: format => (strftime tm format).map (c :: ·)
  | [] => some []

def readDigits (high : Nat) : Nat → Nat → Text → Nat × Text
  | n+1, v, c :: text =>
    if v*10 ≤ high ∧ c.isDigit then readDigits high n (v*10+(c.toNat-48)) text else (v,c :: text)
  | _, v, text => (v,text)

def readNumber (range : TmField.Range) (text : Text) : Option (Nat × Text) :=
  match text.dropWhile (· = ' ') with
  | [] => none
  | c :: rest =>
    if c.isDigit then
      let (v,rest) := readDigits range.high range.digits 0 (c :: rest)
      if range.low ≤ v ∧ v ≤ range.high then some (v,rest) else none
    else none

/-- `strptime`, which leaves `tm_isdst` as it is: the fields read, and the text behind them. -/
def strptime : Text → Text → Tm → Option (Tm × Text)
  | '%' :: c :: format, text, tm => do
    let field ← TmField.ofSpecifier c
    let (v,text) ← readNumber field.range text
    strptime format text (field.set tm v)
  | c :: format, text, tm =>
    if asciiIsSpace c then strptime format (text.dropWhile asciiIsSpace) tm
    else match text with
      | d :: text => if d = c then strptime format text tm else none
      | [] => none
  | [], text, tm => some (tm,text)

def defaultFormat : Text := "%Y-%m-%d %H:%M:%S".toList

/-- `Time::Format`; a text that does not fit the buffer fails a check. -/
def Time.format (zone : TimeZone) (t : Time) (format : Text) : Option Text := do
  let tm ← zone.localtime t.toTimeval.sec
  let text ← strftime tm format
  if 0 < text.length ∧ text.length < 64 then some text else none

structure Tm.InRange (tm : Tm) : Prop where
  mon : 0 ≤ tm.mon ∧ tm.mon ≤ 11
  mday : 1 ≤ tm.mday ∧ tm.mday ≤ 31
  hour : 0 ≤ tm.hour ∧ tm.hour ≤ 23
  min : 0 ≤ tm.min ∧ tm.min ≤ 59
  sec : 0 ≤ tm.sec ∧ tm.sec ≤ 59

theorem TimeZone.localtime_spec {zone : TimeZone} {t : Int} {tm : Tm}
    (h : zone.localtime t = some tm) : tm.clock = zone.clock t ∧ tm.InRange ∧
      tm.year+1900 = zone.localYear t := by
  obtain ⟨⟨hlow,hhigh⟩,hday⟩ := dateOf_bounds (zone.clock t/86400)
  have hdays := days_dateOf (zone.clock t/86400)
  rw [localYear]
  simp only [localtime] at h
  split at h
  · cases h
    generalize zone.clock t = seconds at *
    generalize dateOf (seconds/86400) = date at *
    obtain ⟨year,month,day⟩ := date
    simp only at hlow hhigh hday
    have hyear : year-1900+1900+(month-1)/12 = year := by omega
    have hmonth : (month-1)%12+1 = month := by omega
    refine ⟨?_,⟨by dsimp only; omega,hday,by dsimp only; omega,by dsimp only; omega,
      by dsimp only; omega⟩,by dsimp only; omega⟩
    simp only [Tm.clock,hyear,hmonth,hdays]
    omega
  · cases h

theorem readDigits_digit {high n v d : Nat} {rest : Text} (hv : v*10 ≤ high) (hd : d < 10) :
    readDigits high (n+1) v (d.digitChar :: rest) = readDigits high n (v*10+d) rest := by
  have hdigit : d.digitChar.isDigit = true := by simp [Nat.isDigit_digitChar,hd]
  rw [readDigits,if_pos ⟨hv,hdigit⟩,Nat.toNat_digitChar_sub_48_of_lt_ten hd]

theorem readDigits_toDigits {high v : Nat} (hv : v ≤ high) {n : Nat} (rest : Text)
    (hn : (Nat.toDigits 10 v).length ≤ n) : readDigits high n 0 (Nat.toDigits 10 v ++ rest) =
      readDigits high (n-(Nat.toDigits 10 v).length) v rest := by
  induction v using Nat.strongRecOn generalizing rest with
  | ind v ih =>
    by_cases hlt : v < 10
    · rw [Nat.toDigits_of_lt_base hlt] at hn ⊢
      obtain ⟨n,rfl⟩ : ∃ m, n = m+1 := ⟨n-1,by simp at hn; omega⟩
      rw [List.singleton_append,readDigits_digit (Nat.zero_le _) hlt]
      simp
    · have hdigits := Nat.toDigits_of_base_le (by decide : 1 < 10) (by omega : 10 ≤ v)
      rw [hdigits,List.length_append,List.length_singleton] at hn
      rw [hdigits,List.append_assoc,ih (v/10) (by omega) (by omega) _ (by omega)]
      obtain ⟨m,hm⟩ : ∃ m, n-(Nat.toDigits 10 (v/10)).length = m+1 :=
        ⟨n-(Nat.toDigits 10 (v/10)).length-1,by omega⟩
      have hlength : n-(Nat.toDigits 10 (v/10) ++ [(v%10).digitChar]).length = m := by
        rw [List.length_append,List.length_singleton]
        omega
      rw [hm,hlength,List.singleton_append,readDigits_digit (by omega) (by omega)]
      congr 1
      omega

theorem readDigits_stop {high n v : Nat} {rest : Text}
    (h : ∀ c ∈ rest.head?, c.isDigit = false) : readDigits high n v rest = (v,rest) := by
  cases n with
  | zero => cases rest <;> rfl
  | succ n =>
    cases rest with
    | nil => rfl
    | cons c rest => rw [readDigits,if_neg (by simp [h c rfl])]

theorem readDigits_drop (high n v : Nat) (text : Text) :
    ∃ j, j ≤ n ∧ (readDigits high n v text).2 = text.drop j := by
  induction n generalizing v text with
  | zero => exact ⟨0,Nat.le_refl 0,by cases text <;> rfl⟩
  | succ n ih =>
    cases text with
    | nil => exact ⟨0,Nat.zero_le _,rfl⟩
    | cons c text =>
      rw [readDigits]
      split
      · obtain ⟨j,hj,hdrop⟩ := ih (v*10+(c.toNat-48)) text
        exact ⟨j+1,by omega,hdrop⟩
      · exact ⟨0,Nat.zero_le _,rfl⟩

theorem readNumber_of_digits {range : TmField.Range} {c : Char} {text rest : Text} {v : Nat}
    (hc : c.isDigit = true) (hread : readDigits range.high range.digits 0 (c :: text) = (v,rest))
    (hv : range.low ≤ v ∧ v ≤ range.high) : readNumber range (c :: text) = some (v,rest) := by
  have hblank : c ≠ ' ' := by
    rintro rfl
    cases hc
  rw [readNumber,List.dropWhile_cons_of_neg (by simpa using hblank)]
  dsimp only
  rw [if_pos hc,hread]
  exact if_pos hv

theorem digitChar_isDigit {d : Nat} (hd : d < 10) : d.digitChar.isDigit = true := by
  simp [Nat.isDigit_digitChar,hd]

/-- A field whose number is in its range is read as it has been written. -/
theorem TmField.read_print (field : TmField) {v : Int} (hlow : field.range.low ≤ v)
    (hhigh : v ≤ field.range.high) {rest : Text} (hrest : ∀ c ∈ rest.head?, c.isDigit = false) :
    readNumber field.range (field.print v ++ rest) = some (v.natAbs,rest) := by
  have htwo {low high : Nat} (hv : (low : Int) ≤ v ∧ v ≤ high) (hhigh : high < 100) :
      readNumber ⟨low,high,2⟩ ((v.natAbs/10).digitChar :: (v.natAbs%10).digitChar :: rest) =
        some (v.natAbs,rest) := by
    have hsum : (0*10+v.natAbs/10)*10+v.natAbs%10 = v.natAbs := by omega
    refine readNumber_of_digits (digitChar_isDigit (by omega)) ?_ (by dsimp only; omega)
    change readDigits high 2 0 _ = _
    rw [readDigits_digit (by omega) (by omega),readDigits_digit (by omega) (by omega),hsum]
    cases rest <;> rfl
  cases field with
  | year =>
    have hnonneg : (0 : Int) ≤ v := hlow
    have hmax : v ≤ 9999 := hhigh
    have hlength : (Nat.toDigits 10 v.natAbs).length ≤ 4 :=
      (Nat.length_toDigits_le_iff (by decide) (by decide)).mpr (by omega)
    have hread := readDigits_toDigits (by omega : v.natAbs ≤ 9999) rest hlength
    rw [readDigits_stop hrest] at hread
    simp only [print,if_neg (Int.not_lt.mpr hnonneg)]
    obtain ⟨c,digits,hdigits⟩ := List.exists_cons_of_ne_nil
      (Nat.toDigits_ne_nil : Nat.toDigits 10 v.natAbs ≠ [])
    rw [hdigits] at hread ⊢
    refine readNumber_of_digits ?_ hread (by dsimp only [range]; omega)
    exact Nat.isDigit_of_mem_toDigits (by decide : 0 < 10) (by decide)
      (by rw [hdigits]; exact List.mem_cons_self)
  | month => exact htwo ⟨hlow,hhigh⟩ (by decide)
  | day => exact htwo ⟨hlow,hhigh⟩ (by decide)
  | hour => exact htwo ⟨hlow,hhigh⟩ (by decide)
  | minute => exact htwo ⟨hlow,hhigh⟩ (by decide)
  | second => exact htwo ⟨hlow,hhigh⟩ (by decide)

theorem strptime_field {c : Char} {field : TmField} (hc : TmField.ofSpecifier c = some field)
    {v : Int} (hlow : field.range.low ≤ v) (hhigh : v ≤ field.range.high) {rest : Text}
    (hrest : ∀ d ∈ rest.head?, d.isDigit = false) (format : Text) (tm : Tm) :
    strptime ('%' :: c :: format) (field.print v ++ rest) tm =
      strptime format rest (field.set tm v) := by
  have hv : ((v.natAbs : Nat) : Int) = v := by omega
  rw [strptime,hc]
  change (readNumber field.range (field.print v ++ rest) >>= _) = _
  rw [field.read_print hlow hhigh hrest]
  change strptime format rest (field.set tm ((v.natAbs : Nat) : Int)) = _
  rw [hv]

theorem defaultFormat_eq : defaultFormat = ['%','Y','-','%','m','-','%','d',' ','%','H',':','%','M',
    ':','%','S'] := by decide

theorem strftime_default (tm : Tm) : strftime tm defaultFormat =
    some (TmField.year.print (tm.year+1900) ++ '-' :: (TmField.month.print (tm.mon+1) ++
      '-' :: (TmField.day.print tm.mday ++ ' ' :: (TmField.hour.print tm.hour ++
      ':' :: (TmField.minute.print tm.min ++ ':' :: (TmField.second.print tm.sec ++ [])))))) := by
  rw [defaultFormat_eq]
  rfl

theorem strptime_literal {c : Char} (hc : c = '-' ∨ c = ':') (format text : Text) (tm : Tm) :
    strptime (c :: format) (c :: text) tm = strptime format text tm := by
  rcases hc with rfl | rfl <;> rfl

theorem digitChar_not_blank : ∀ d, d < 10 → asciiIsSpace d.digitChar = false := by decide

theorem strptime_blank {d : Nat} (hd : d < 10) (format text : Text) (tm : Tm) :
    strptime (' ' :: format) (' ' :: d.digitChar :: text) tm =
      strptime format (d.digitChar :: text) tm := by
  have hblank := digitChar_not_blank d hd
  change strptime format ((d.digitChar :: text).dropWhile asciiIsSpace) tm = _
  rw [List.dropWhile_cons_of_neg (by simp [hblank])]

theorem head_not_digit {c : Char} (hc : c.isDigit = false) (text : Text) :
    ∀ d ∈ (c :: text).head?, d.isDigit = false := by
  rintro d ⟨⟩
  exact hc

/-- What `strftime` writes by the default format, `strptime` reads back, but for `tm_isdst`. -/
theorem strptime_default {tm : Tm} (h : tm.InRange) (hlow : 0 ≤ tm.year+1900)
    (hhigh : tm.year+1900 ≤ 9999) (tm₀ : Tm) : ∃ text, strftime tm defaultFormat = some text ∧
      strptime defaultFormat text tm₀ = some ({ tm with isdst := tm₀.isdst },[]) := by
  obtain ⟨⟨hmonLow,hmonHigh⟩,hmday,hhour,hmin,hsec⟩ := h
  have hdash := @head_not_digit '-' rfl
  have hcolon := @head_not_digit ':' rfl
  have hblank := @head_not_digit ' ' rfl
  have hmon : 1 ≤ tm.mon+1 ∧ tm.mon+1 ≤ 12 := by omega
  have hlast : tm.sec ≤ 61 := by omega
  refine ⟨_,strftime_default tm,?_⟩
  rw [defaultFormat_eq,
    strptime_field (rfl : TmField.ofSpecifier 'Y' = some .year) hlow hhigh (hdash _),
    strptime_literal (.inl rfl),
    strptime_field (rfl : TmField.ofSpecifier 'm' = some .month) hmon.1 hmon.2 (hdash _),
    strptime_literal (.inl rfl),
    strptime_field (rfl : TmField.ofSpecifier 'd' = some .day) hmday.1 hmday.2 (hblank _)]
  change strptime (' ' :: _) (' ' :: (tm.hour.natAbs/10).digitChar :: _) _ = _
  rw [strptime_blank (by omega)]
  change strptime _ (TmField.hour.print tm.hour ++ _) _ = _
  rw [strptime_field (rfl : TmField.ofSpecifier 'H' = some .hour) hhour.1 hhour.2 (hcolon _),
    strptime_literal (.inr rfl),
    strptime_field (rfl : TmField.ofSpecifier 'M' = some .minute) hmin.1 hmin.2 (hcolon _),
    strptime_literal (.inr rfl),
    strptime_field (rfl : TmField.ofSpecifier 'S' = some .second) hsec.1 hlast (by simp)]
  simp only [strptime,TmField.set,Int.add_sub_cancel]

theorem readNumber_drop {range : TmField.Range} {text rest : Text} {v : Nat}
    (h : readNumber range text = some (v,rest)) :
    ∃ j, j ≤ range.digits ∧ rest = (text.dropWhile (· = ' ')).drop j := by
  rw [readNumber] at h
  split at h
  · cases h
  · rename_i c text' htext
    obtain ⟨j,hj,hdrop⟩ := readDigits_drop range.high range.digits 0 (c :: text')
    split at h
    · dsimp only at h
      split at h
      · cases h
        exact ⟨j,hj,by rw [htext,← hdrop]⟩
      · cases h
    · cases h

/-- A year of more than four digits is not read, nor is one with a sign. -/
theorem strptime_far_year {v : Int} (hv : v < 0 ∨ 9999 < v) (rest format : Text) (tm : Tm) :
    strptime ('%' :: 'Y' :: '-' :: format) (TmField.year.print v ++ rest) tm = none := by
  by_cases hneg : v < 0
  · simp only [TmField.print,if_pos hneg]
    rfl
  · have hlong : 4 < (Nat.toDigits 10 v.natAbs).length := by
      rw [← Nat.not_le,Nat.length_toDigits_le_iff (by decide) (by decide)]
      omega
    have hdigit {c : Char} (hc : c ∈ Nat.toDigits 10 v.natAbs) : c.isDigit = true :=
      Nat.isDigit_of_mem_toDigits (by decide) (by decide) hc
    simp only [TmField.print,if_neg hneg]
    generalize Nat.toDigits 10 v.natAbs = digits at *
    have hblank : (digits ++ rest).dropWhile (· = ' ') = digits ++ rest := by
      obtain ⟨c,digits,rfl⟩ := List.exists_cons_of_length_pos (Nat.zero_lt_of_lt hlong)
      refine List.dropWhile_cons_of_neg ?_
      rintro hc
      rw [of_decide_eq_true hc] at hdigit
      cases hdigit List.mem_cons_self
    rw [strptime]
    change (readNumber _ (digits ++ rest) >>= _) = none
    cases hread : readNumber TmField.year.range (digits ++ rest) with
    | none => rfl
    | some read =>
      obtain ⟨j,hj,hrest⟩ := readNumber_drop hread
      have hj' : j < digits.length := Nat.lt_of_le_of_lt hj hlong
      rw [hblank,List.drop_append_of_le_length (Nat.le_of_lt hj'),
        List.drop_eq_getElem_cons hj'] at hrest
      have hdash : digits[j] ≠ '-' := by
        intro hc
        have hbad := hdigit (List.getElem_mem hj')
        rw [hc] at hbad
        cases hbad
      change strptime ('-' :: format) read.2 _ = none
      rw [hrest]
      exact if_neg hdash

theorem TimeZone.localtime_isSome {zone : TimeZone} {t : Int} (hlow : 0 ≤ zone.localYear t)
    (hhigh : zone.localYear t ≤ 9999) : ∃ tm, zone.localtime t = some tm := by
  refine ⟨_,if_pos ?_⟩
  unfold localYear at hlow hhigh
  omega

/-- The default format gives a text of 16 to 19 characters for a year of four digits at most. -/
theorem strftime_length {tm : Tm} {text : Text} (hlow : 0 ≤ tm.year+1900)
    (hhigh : tm.year+1900 ≤ 9999) (h : strftime tm defaultFormat = some text) :
    0 < text.length ∧ text.length < 64 := by
  have hyear : (TmField.year.print (tm.year+1900)).length ≤ 4 := by
    rw [TmField.print,if_neg (Int.not_lt.mpr hlow)]
    exact (Nat.length_toDigits_le_iff (by decide) (by decide)).mpr (by omega)
  cases (strftime_default tm).symm.trans h
  simp only [List.length_append,List.length_cons,List.length_nil,TmField.print] at hyear ⊢
  omega

theorem TmField.print_no_nul (field : TmField) (v : Int) : '\x00' ∉ field.print v := by
  have hdigits (n : Nat) : '\x00' ∉ Nat.toDigits 10 n := by
    intro h
    cases Nat.isDigit_of_mem_toDigits (by decide : 0 < 10) (by decide) h
  have hdigit (n : Nat) : '\x00' ≠ n.digitChar := (Nat.digitChar_ne '\x00' (by decide)).symm
  cases field with
  | year =>
    rw [print]
    split
    · exact fun h => (List.mem_cons.mp h).elim (by decide) (hdigits _)
    · exact hdigits _
  | month | day | hour | minute | second => simp [print,hdigit]

theorem strftime_no_nul {tm : Tm} {text : Text} (h : strftime tm defaultFormat = some text) :
    '\x00' ∉ text := by
  cases (strftime_default tm).symm.trans h
  simp [TmField.print_no_nul]

theorem Time.format_eq_some {zone : TimeZone} {t : Time} {text : Text}
    (h : t.format zone defaultFormat = some text) :
    ∃ tm, zone.localtime t.toTimeval.sec = some tm ∧ strftime tm defaultFormat = some text := by
  rw [Time.format] at h
  cases htm : zone.localtime t.toTimeval.sec with
  | none =>
    rw [htm] at h
    cases h
  | some tm =>
    rw [htm] at h
    refine ⟨tm,rfl,?_⟩
    cases htext : strftime tm defaultFormat with
    | none =>
      simp only [htext,bind,Option.bind] at h
      cases h
    | some text' =>
      simp only [htext,bind,Option.bind] at h
      split at h
      · exact h
      · cases h

/-- A text of the default format, read in the zone, is what its clock showed by standard time. -/
theorem TimeZone.parse_format {zone : TimeZone} {t : Time}
    (hlow : 0 ≤ zone.localYear t.toTimeval.sec) (hhigh : zone.localYear t.toTimeval.sec ≤ 9999)
    {tm₀ : Tm} (hisdst : tm₀.isdst = 0) : ∃ text tm rest,
      t.format zone defaultFormat = some text ∧ ('\x00' ∉ text ∧ text ≠ []) ∧
      strptime defaultFormat text tm₀ = some (tm,rest) ∧
      zone.mktime tm = zone.clock t.toTimeval.sec-zone.std := by
  obtain ⟨tm,htm⟩ := localtime_isSome hlow hhigh
  obtain ⟨hclock,hrange,hyear⟩ := localtime_spec htm
  rw [← hyear] at hlow hhigh
  obtain ⟨text,htext,hread⟩ := strptime_default hrange hlow hhigh tm₀
  have hlength := strftime_length hlow hhigh htext
  refine ⟨text,_,_,?_,⟨strftime_no_nul htext,List.ne_nil_of_length_pos hlength.1⟩,hread,?_⟩
  · simp only [Time.format,htm,htext,bind,Option.bind]
    exact if_pos hlength
  · rw [mktime,if_pos hisdst,← hclock]
    rfl

/-- The text of a year beyond the range is not read. -/
theorem TimeZone.not_parsed {zone : TimeZone} {t : Time} {text : Text}
    (hyear : ¬ (0 ≤ zone.localYear t.toTimeval.sec ∧ zone.localYear t.toTimeval.sec ≤ 9999))
    (h : t.format zone defaultFormat = some text) (tm₀ : Tm) :
    strptime defaultFormat text tm₀ = none := by
  obtain ⟨tm,htm,htext⟩ := Time.format_eq_some h
  obtain ⟨-,-,hlocal⟩ := localtime_spec htm
  rw [← hlocal] at hyear
  cases (strftime_default tm).symm.trans htext
  rw [defaultFormat_eq]
  exact strptime_far_year (by omega) _ _ tm₀

theorem TimeZone.localYear_max (zone : TimeZone) : 9999 < zone.localYear Time.timeTMax := by
  have hstd := zone.isOffset.1
  have hdst := zone.isOffset.2
  have hmax : Time.timeTMax = 9223372036854775807 := rfl
  unfold IsOffset at hstd hdst
  refine dateOf_year_far ?_
  unfold clock
  split <;> omega

end MprMq.Base
