import MprMq.Base.Numerals
import Mathlib.Algebra.Ring.Int.Defs
set_option autoImplicit false

/-! `StringAsValue`, for every integer type it is used with. -/

namespace MprMq.Base

namespace IntType

def int16 : IntType := ⟨-2^15,2^15-1⟩
def uint16 : IntType := ⟨0,2^16-1⟩

/-- `static_cast`: the value of the type that is the same modulo its size. -/
def staticCast (t : IntType) (v : Int) : Int := t.min+(v-t.min)%(t.max-t.min+1)

/-- Whether the text is taken, and what is stored; `none` is an overflow. -/
def stringAsValue (t : IntType) (text : Text) : Option (Bool × Int) := do
  let (ret,v) ←
    if t.signed then
      if t.max ≤ int32.max then safeStrto32Base text 10 else safeStrto64Base text 10
    else if t.max ≤ uint32.max then safeStrtou32Base text 10
    else safeStrtou64Base text 10
  some (ret,t.staticCast v)

def parsed (t : IntType) : IntType :=
  if t.signed then if t.max ≤ int32.max then int32 else int64
  else if t.max ≤ uint32.max then uint32 else uint64

def Denotes (t : IntType) (text : Text) (v : Int) : Prop :=
  ∃ n : Numeral t.signed 10, n.text = text ∧ n.value = v ∧ t.min ≤ v ∧ v ≤ t.max

/-- Only a numeral in range is taken and its value stored, and one out of range is refused. -/
structure Takes (t : IntType) (text : Text) (ret : Bool) (v : Int) : Prop where
  stored : ret = true → t.Denotes text v
  refused : ∀ n : Numeral t.signed 10, n.text = text → n.value < t.min ∨ t.max < n.value →
    ret = false

variable {t : IntType}

theorem staticCast_eq {v : Int} (hmin : t.min ≤ v) (hmax : v ≤ t.max) : t.staticCast v = v := by
  rw [staticCast,Int.emod_eq_of_lt (by omega) (by omega)]
  omega

theorem nearest_eq {v : Int} (hmin : t.min ≤ v) (hmax : v ≤ t.max) : t.nearest v = v := by
  rw [nearest,if_neg (Int.not_lt.mpr hmin),if_neg (Int.not_lt.mpr hmax)]

theorem parsed_signed (t : IntType) : t.parsed.signed = t.signed := by
  cases hsigned : t.signed
  · rw [parsed,hsigned,if_neg Bool.false_ne_true]
    split <;> rfl
  · rw [parsed,hsigned,if_pos rfl]
    split <;> rfl

theorem stringAsValue_eq (t : IntType) : ∃ convert, Converts t.parsed convert ∧
    ∀ text, t.stringAsValue text =
      (convert text 10).bind fun (ret,v) => some (ret,t.staticCast v) := by
  unfold parsed stringAsValue
  split
  · split
    · exact ⟨_,int32_converts,fun _ => rfl⟩
    · exact ⟨_,int64_converts,fun _ => rfl⟩
  · split
    · exact ⟨_,uint32_converts,fun _ => rfl⟩
    · exact ⟨_,uint64_converts,fun _ => rfl⟩

end IntType

/-- What `StringAsValue<int64_t>` stores; its callers do not look at what it returns. -/
def stringAsValue (text : Text) : Int := ((IntType.int64.stringAsValue text).getD (false,0)).2

/-- A text is the numeral of one value only. -/
theorem Numeral.value_unique {signed : Bool} {arg : Int} {n m : Numeral signed arg}
    (h : n.text = m.text) : n.value = m.value := by
  have hparse := n.parse
  rw [h,m.parse] at hparse
  simp only [Option.some.injEq,Prod.mk.injEq,Int.natCast_inj] at hparse
  obtain ⟨hdigits,hbase,hnegative⟩ := hparse
  rw [n.value_eq,m.value_eq,hdigits,hbase,hnegative]

/-- A text is read right unless it is a numeral between the limits of the type and of the one it is
parsed in. -/
theorem string_as_value_iff (t : IntType) (text : Text) :
    (∃ ret v, t.stringAsValue text = some (ret,v) ∧ t.Takes text ret v) ↔
      ∀ n : Numeral t.signed 10, n.text = text → t.parsed.min ≤ n.value →
        n.value ≤ t.parsed.max → t.min ≤ n.value ∧ n.value ≤ t.max := by
  obtain ⟨convert,hconverts,heq⟩ := t.stringAsValue_eq
  obtain ⟨ok,stored,hconvert,hok,hstored⟩ := hconverts text 10
  rw [t.parsed_signed] at hok hstored
  rw [heq,hconvert,Option.bind_some]
  constructor
  · rintro ⟨ret,v,hret,htakes⟩ n hn hlow hhigh
    cases hret
    obtain ⟨m,hm,hvalue,hrange⟩ := htakes.stored (hok.mpr ⟨n,hn,hlow,hhigh⟩)
    rw [Numeral.value_unique (hn.trans hm.symm),hvalue]
    exact hrange
  · intro hfits
    refine ⟨_,_,rfl,?_,?_⟩
    · intro hret
      obtain ⟨n,hn,hlow,hhigh⟩ := hok.mp hret
      have hrange := hfits n hn hlow hhigh
      rw [hstored n hn,IntType.nearest_eq hlow hhigh,IntType.staticCast_eq hrange.1 hrange.2]
      exact ⟨n,hn,rfl,hrange⟩
    · intro n hn hout
      by_contra htrue
      obtain ⟨m,hm,hlow,hhigh⟩ := hok.mp (Bool.eq_true_of_not_eq_false htrue)
      have hrange := hfits m hm hlow hhigh
      rw [Numeral.value_unique (hm.trans hn.symm)] at hrange
      omega

section stored
variable {t : IntType} {base value v : Int} {text : Text} {ok : Bool}

/-- Also where it stops early the loop leaves a value of the type. -/
theorem positiveLoop_range (hvalue : t.min ≤ value ∧ value ≤ t.max)
    (h : positiveLoop t base value text = some (ok,v)) : t.min ≤ v ∧ v ≤ t.max := by
  have hmost : t.min ≤ t.max ∧ t.max ≤ t.max := ⟨Int.le_trans hvalue.1 hvalue.2,Int.le_refl _⟩
  induction text generalizing value with
  | nil =>
    cases h
    exact hvalue
  | cons c rest ih =>
    rw [positiveLoop] at h
    split at h
    · cases h
      exact hvalue
    split at h
    · cases h
      exact hmost
    obtain ⟨product,-,h⟩ := Option.bind_eq_some_iff.mp h
    obtain ⟨limit,-,h⟩ := Option.bind_eq_some_iff.mp h
    split at h
    · cases h
      exact hmost
    obtain ⟨sum,hsum,h⟩ := Option.bind_eq_some_iff.mp h
    rw [IntType.checked,Option.ite_none_right_eq_some,Option.some.injEq] at hsum
    exact ih (hsum.2 ▸ hsum.1) h

theorem negativeLoop_range (hvalue : t.min ≤ value ∧ value ≤ t.max)
    (h : negativeLoop t base value text = some (ok,v)) : t.min ≤ v ∧ v ≤ t.max := by
  have hleast : t.min ≤ t.min ∧ t.min ≤ t.max := ⟨Int.le_refl _,Int.le_trans hvalue.1 hvalue.2⟩
  induction text generalizing value with
  | nil =>
    cases h
    exact hvalue
  | cons c rest ih =>
    rw [negativeLoop] at h
    split at h
    · cases h
      exact hvalue
    split at h
    · cases h
      exact hleast
    obtain ⟨product,-,h⟩ := Option.bind_eq_some_iff.mp h
    obtain ⟨limit,-,h⟩ := Option.bind_eq_some_iff.mp h
    split at h
    · cases h
      exact hleast
    obtain ⟨sum,hsum,h⟩ := Option.bind_eq_some_iff.mp h
    rw [IntType.checked,Option.ite_none_right_eq_some,Option.some.injEq] at hsum
    exact ih (hsum.2 ▸ hsum.1) h

theorem safeIntInternal_range (hzero : t.min ≤ 0 ∧ 0 ≤ t.max)
    (h : safeIntInternal t text base = some (ok,v)) : t.min ≤ v ∧ v ≤ t.max := by
  rw [safeIntInternal] at h
  split at h
  · cases h
    exact hzero
  split at h
  · rw [safeParseNegativeInt,Option.ite_none_right_eq_some] at h
    exact negativeLoop_range hzero h.2
  · rw [safeParsePositiveInt,Option.ite_none_right_eq_some] at h
    exact positiveLoop_range hzero h.2

theorem safeUintInternal_range (hzero : t.min ≤ 0 ∧ 0 ≤ t.max)
    (h : safeUintInternal t text base = some (ok,v)) : t.min ≤ v ∧ v ≤ t.max := by
  rw [safeUintInternal] at h
  split at h
  · cases h
    exact hzero
  split at h
  · cases h
    exact hzero
  · rw [safeParsePositiveInt,Option.ite_none_right_eq_some] at h
    exact positiveLoop_range hzero h.2

end stored

theorem seventy_digits : ∀ c ∈ ['7','0','0','0','0'], asciiToInt c < 10 := by
  have hzero : asciiToInt '0' < 10 := by decide
  simp only [List.forall_mem_cons]
  exact ⟨by decide,hzero,hzero,hzero,hzero,List.forall_mem_nil _⟩

/-- Into an `int16_t` goes a number that it cannot hold. -/
theorem string_as_value_int16 : ∃ n : Numeral IntType.int16.signed 10,
    n.text = ['7','0','0','0','0'] ∧ n.value = 70000 ∧ IntType.int16.max < n.value ∧
      IntType.int16.stringAsValue ['7','0','0','0','0'] = some (true,4464) ∧
      ¬ IntType.int16.Denotes ['7','0','0','0','0'] 4464 := by
  let n : Numeral IntType.int16.signed 10 := ⟨[],[],false,['7','0','0','0','0'],10,
    ['7','0','0','0','0'],[],List.forall_mem_nil _,List.forall_mem_nil _,.absent,
    .plain rfl (by decide) (by decide) (by decide),seventy_digits⟩
  refine ⟨n,rfl,by decide,by decide,by decide,?_⟩
  rintro ⟨m,hm,hvalue,-⟩
  have hsame := Numeral.value_unique (n := m) (m := n) hm
  rw [hvalue] at hsame
  exact absurd hsame (by decide)

end MprMq.Base
