import MprMq.Base.Numbers
import MprMq.Lib.Numeral
set_option autoImplicit false

/-! The text conversions in every base, and the numerals they read. -/

namespace MprMq.Base
open Lib

structure IntType where
  min : Int
  max : Int
  deriving DecidableEq

namespace IntType

def int32 : IntType := ⟨-2^31,2^31-1⟩
def int64 : IntType := ⟨-2^63,2^63-1⟩
def uint32 : IntType := ⟨0,2^32-1⟩
def uint64 : IntType := ⟨0,2^64-1⟩

def signed (t : IntType) : Bool := decide (t.min < 0)

/-- The result of an operation in the type; `none` is an overflow. -/
def checked (t : IntType) (v : Int) : Option Int :=
  if t.min ≤ v ∧ v ≤ t.max then some v else none

def nearest (t : IntType) (v : Int) : Int :=
  if v < t.min then t.min else if t.max < v then t.max else v

end IntType

def hexPrefix : Text → Bool
  | '0' :: x :: _ => x = 'x' || x = 'X'
  | _ => false

def safeParseBase (start : Text) (base : Int) : Option (Text × Int) :=
  if base = 0 then
    if hexPrefix start then
      if start.drop 2 = [] then none else some (start.drop 2,16)
    else if start.head? = some '0' then some (start.drop 1,8)
    else some (start,10)
  else if base = 16 then
    if hexPrefix start then
      if start.drop 2 = [] then none else some (start.drop 2,16)
    else some (start,16)
  else if 2 ≤ base ∧ base ≤ 36 then some (start,base)
  else none

/-- The digits, the base they are in, and whether the sign was a minus. -/
def safeParseSignAndBase (text : Text) (base : Int) : Option (Text × Int × Bool) :=
  match trim asciiIsSpace text with
  | [] => none
  | c :: rest =>
    if c = '-' ∨ c = '+' then
      if rest = [] then none
      else (safeParseBase rest base).map fun (digits,base) => (digits,base,c = '-')
    else (safeParseBase (c :: rest) base).map fun (digits,base) => (digits,base,false)

def positiveLoop (t : IntType) (base value : Int) : Text → Option (Bool × Int)
  | [] => some (true,value)
  | c :: rest =>
    let digit : Int := asciiToInt c
    if base ≤ digit then some (false,value)
    else if t.max/base < value then some (false,t.max)
    else do
      let value ← t.checked (value*base)
      let limit ← t.checked (t.max-digit)
      if limit < value then some (false,t.max)
      else positiveLoop t base (← t.checked (value+digit)) rest

/-- The division truncates, so the remainder is never positive. -/
def vminOverBase (t : IntType) (base : Int) : Int :=
  if 0 < t.min.tmod base then t.min.tdiv base+1 else t.min.tdiv base

def negativeLoop (t : IntType) (base value : Int) : Text → Option (Bool × Int)
  | [] => some (true,value)
  | c :: rest =>
    let digit : Int := asciiToInt c
    if base ≤ digit then some (false,value)
    else if value < vminOverBase t base then some (false,t.min)
    else do
      let value ← t.checked (value*base)
      let limit ← t.checked (t.min+digit)
      if value < limit then some (false,t.min)
      else negativeLoop t base (← t.checked (value-digit)) rest

/-- With the assertion in front of the loop. -/
def safeParsePositiveInt (t : IntType) (text : Text) (base : Int) : Option (Bool × Int) :=
  if 0 < t.max then positiveLoop t base 0 text else none

def safeParseNegativeInt (t : IntType) (text : Text) (base : Int) : Option (Bool × Int) :=
  if t.min < 0 ∧ t.min ≤ 0-base then negativeLoop t base 0 text else none

/-- Whether the text is a number in range, and what is stored; `none` is an overflow or a failed
assertion. -/
def safeIntInternal (t : IntType) (text : Text) (base : Int) : Option (Bool × Int) :=
  match safeParseSignAndBase text base with
  | none => some (false,0)
  | some (text,base,negative) =>
    if negative then safeParseNegativeInt t text base else safeParsePositiveInt t text base

def safeUintInternal (t : IntType) (text : Text) (base : Int) : Option (Bool × Int) :=
  match safeParseSignAndBase text base with
  | none => some (false,0)
  | some (text,base,negative) =>
    if negative then some (false,0) else safeParsePositiveInt t text base

def safeStrto32Base := safeIntInternal .int32
def safeStrto64Base := safeIntInternal .int64
def safeStrtou32Base := safeUintInternal .uint32
def safeStrtou64Base := safeUintInternal .uint64

/-- `safe_strto64`; that there is no overflow is a part of `int64_converts`. -/
def safeStrto64 (text : Text) : Bool × Int := (safeStrto64Base text 10).getD (false,0)

inductive IsSign (signed : Bool) : Text → Bool → Prop where
  | absent : IsSign signed [] false
  | plus : IsSign signed ['+'] false
  | minus : signed = true → IsSign signed ['-'] true

theorem IsSign.signed {signed negative : Bool} {sign : Text} (h : IsSign signed sign negative)
    (hminus : negative = true) : signed = true := by
  cases h with
  | absent => cases hminus
  | plus => cases hminus
  | minus hsigned => exact hsigned

inductive InBase (arg : Int) : Text → Nat → Text → Prop where
  | plain {base : Nat} {digits : Text} : arg = base → 2 ≤ base → base ≤ 36 → digits ≠ [] →
      InBase arg digits base digits
  | hex {x : Char} {digits : Text} : arg = 0 ∨ arg = 16 → x = 'x' ∨ x = 'X' → digits ≠ [] →
      InBase arg ('0' :: x :: digits) 16 digits
  | octal {digits : Text} : arg = 0 → InBase arg ('0' :: digits) 8 digits
  | decimal {digits : Text} : arg = 0 → digits ≠ [] → digits.head? ≠ some '0' →
      InBase arg digits 10 digits

structure Numeral (signed : Bool) (arg : Int) where
  left : Text
  sign : Text
  negative : Bool
  body : Text
  base : Nat
  digits : Text
  right : Text
  left_blank : ∀ c ∈ left, asciiIsSpace c = true
  right_blank : ∀ c ∈ right, asciiIsSpace c = true
  isSign : IsSign signed sign negative
  inBase : InBase arg body base digits
  isDigit : ∀ c ∈ digits, asciiToInt c < base

namespace Numeral
variable {signed : Bool} {arg : Int}

def text (n : Numeral signed arg) : Text := n.left ++ (n.sign ++ n.body) ++ n.right

def magnitude (n : Numeral signed arg) : Nat :=
  Nat.ofDigits n.base (n.digits.map asciiToInt).reverse

def value (n : Numeral signed arg) : Int := if n.negative then -n.magnitude else n.magnitude

end Numeral

theorem IntType.checked_eq {t : IntType} {v : Int} (hmin : t.min ≤ v) (hmax : v ≤ t.max) :
    t.checked v = some v := if_pos ⟨hmin,hmax⟩

structure IntType.Roomy (t : IntType) : Prop where
  min : t.min ≤ 0
  max : 36 ≤ t.max

theorem positiveLoop_cons {t : IntType} (ht : t.Roomy) {base value : Nat} {c : Char} {rest : Text}
    (hbase : 2 ≤ base) (hdigit : asciiToInt c < base) (hbound : base ≤ 36) :
    positiveLoop t base value (c :: rest) =
      if ((value*base+asciiToInt c : Nat) : Int) ≤ t.max then
        positiveLoop t base (value*base+asciiToInt c : Nat) rest
      else some (false,t.max) := by
  have hmin := ht.min
  have hmax := ht.max
  have hiff := mul_add_le_iff value (asciiToInt c) t.max (show (0 : Int) < base by omega)
    (by omega)
  have hmul : (0 : Int) ≤ value*base := by positivity
  rw [positiveLoop,if_neg (by omega),Nat.cast_add,Nat.cast_mul]
  by_cases hover : t.max/base < value
  · rw [if_pos hover,if_neg (by omega)]
  · have hquot : (value : Int)*base ≤ t.max :=
      (Int.le_ediv_iff_mul_le (by omega)).mp (by omega)
    rw [if_neg hover,IntType.checked_eq (by omega) hquot,
      IntType.checked_eq (v := t.max-asciiToInt c) (by omega) (by omega)]
    simp only [Option.bind_eq_bind,Option.bind_some]
    by_cases hlimit : t.max-asciiToInt c < value*base
    · rw [if_pos hlimit,if_neg (by omega)]
    · rw [if_neg hlimit,if_pos (by omega),IntType.checked_eq (by omega) (by omega)]
      rfl

def AllDigits (base : Nat) (text : Text) : Prop := ∀ c ∈ text, asciiToInt c < base

def total (base value : Nat) (text : Text) : Nat := horner base value (text.map asciiToInt)

theorem total_cons (base value : Nat) (c : Char) (text : Text) :
    total base value (c :: text) = total base (value*base+asciiToInt c) text := rfl

section positive
variable {t : IntType} {base : Nat}

theorem positiveLoop_of_digits (ht : t.Roomy) (hbase : 2 ≤ base) (hbound : base ≤ 36)
    (value : Nat) (hvalue : (value : Int) ≤ t.max) {text : Text} (h : AllDigits base text) :
    positiveLoop t base value text =
      if (total base value text : Int) ≤ t.max then some (true,(total base value text : Int))
      else some (false,t.max) := by
  induction text generalizing value with
  | nil => exact (if_pos hvalue).symm
  | cons c text ih =>
    have hc : asciiToInt c < base := h c List.mem_cons_self
    rw [positiveLoop_cons ht hbase hc hbound,total_cons]
    split
    · exact ih _ ‹_› (fun d hd => h d (List.mem_cons_of_mem c hd))
    · have hgrows := le_horner (show 0 < base by omega) (value*base+asciiToInt c)
        (text.map asciiToInt)
      rw [if_neg (by unfold total; omega)]

theorem positiveLoop_of_other (ht : t.Roomy) (hbase : 2 ≤ base) (hbound : base ≤ 36)
    (value : Nat) {text : Text} (h : ¬ AllDigits base text) :
    ∃ stored, positiveLoop t base value text = some (false,stored) := by
  induction text generalizing value with
  | nil => exact absurd (fun c hc => by cases hc) h
  | cons c text ih =>
    by_cases hc : asciiToInt c < base
    · rw [positiveLoop_cons ht hbase hc hbound]
      split
      · refine ih _ (fun hall => h ?_)
        exact List.forall_mem_cons.mpr ⟨hc,hall⟩
      · exact ⟨t.max,rfl⟩
    · exact ⟨value,by rw [positiveLoop,if_pos (by omega)]⟩

end positive

def IntType.mirror (t : IntType) : IntType := ⟨-t.max,-t.min⟩

theorem IntType.checked_mirror (t : IntType) (v : Int) :
    t.checked (-v) = (t.mirror.checked v).map Neg.neg := by
  unfold checked mirror
  by_cases h : t.min ≤ -v ∧ -v ≤ t.max
  · rw [if_pos h,if_pos (by dsimp; omega)]
    rfl
  · rw [if_neg h,if_neg (by dsimp; omega)]
    rfl

theorem vminOverBase_eq {t : IntType} (hmin : t.min ≤ 0) (base : Int) :
    vminOverBase t base = -(t.mirror.max/base) := by
  have hneg : t.min = -(-t.min) := (Int.neg_neg _).symm
  have hmod : t.min.tmod base ≤ 0 := by
    rw [hneg,Int.neg_tmod]
    have := Int.tmod_nonneg base (show 0 ≤ -t.min by omega)
    omega
  rw [vminOverBase,if_neg (by omega),hneg,Int.neg_tdiv,
    Int.tdiv_eq_ediv_of_nonneg (by omega : 0 ≤ -t.min)]
  rfl

/-- The loop towards the minimum is the other one in the mirror. -/
theorem negativeLoop_eq {t : IntType} (hmin : t.min ≤ 0) (base value : Int) (text : Text) :
    negativeLoop t base (-value) text =
      (positiveLoop t.mirror base value text).map (Prod.map id Neg.neg) := by
  induction text generalizing value with
  | nil => rfl
  | cons c text ih =>
    have hdiv : -value < vminOverBase t base ↔ t.mirror.max/base < value := by
      rw [vminOverBase_eq hmin]
      omega
    have hmul : t.checked (-value*base) = (t.mirror.checked (value*base)).map Neg.neg := by
      rw [Int.neg_mul,IntType.checked_mirror]
    have hlimit : t.checked (t.min+asciiToInt c) =
        (t.mirror.checked (t.mirror.max-asciiToInt c)).map Neg.neg := by
      rw [← IntType.checked_mirror]
      congr 1
      unfold IntType.mirror
      dsimp
      omega
    simp only [negativeLoop,positiveLoop,hdiv,hmul,hlimit,Option.bind_eq_bind]
    split
    · rfl
    split
    · simp [IntType.mirror]
    cases t.mirror.checked (value*base) with
    | none => rfl
    | some product =>
      cases t.mirror.checked (t.mirror.max-asciiToInt c) with
      | none => rfl
      | some limit =>
        have hsub : t.checked (-product-asciiToInt c) =
            (t.mirror.checked (product+asciiToInt c)).map Neg.neg := by
          rw [← IntType.checked_mirror]
          congr 1
          omega
        simp only [Option.map_some,Option.bind_some,hsub,Int.neg_lt_neg_iff]
        split
        · simp [IntType.mirror]
        cases t.mirror.checked (product+asciiToInt c) with
        | none => rfl
        | some next => exact ih next

theorem not_blank_of_digit {c : Char} (h : asciiToInt c < 36) : asciiIsSpace c = false := by
  by_contra hblank
  have hcode : c.toNat = 32 ∨ (9 ≤ c.toNat ∧ c.toNat ≤ 13) := by
    simp only [asciiIsSpace,Bool.not_eq_false,Bool.or_eq_true,decide_eq_true_eq,
      Bool.and_eq_true] at hblank
    rcases hblank with rfl | hblank
    · exact .inl rfl
    · exact .inr hblank
  have hlow : ∀ d : Char, 48 ≤ d.toNat → ¬ d ≤ c := by
    intro d hd hle
    have : d.toNat ≤ c.toNat := hle
    omega
  rw [asciiToInt,if_neg (fun h => hlow '0' (by decide) h.1),
    if_neg (fun h => hlow 'A' (by decide) h.1),if_neg (fun h => hlow 'a' (by decide) h.1)] at h
  omega

namespace InBase
variable {arg : Int} {body digits : Text} {base : Nat}

theorem bounds (h : InBase arg body base digits) : 2 ≤ base ∧ base ≤ 36 := by
  cases h with
  | plain _ hlow hhigh _ => exact ⟨hlow,hhigh⟩
  | hex => decide
  | octal => decide
  | decimal => decide

theorem ne_nil (h : InBase arg body base digits) : body ≠ [] := by
  cases h with
  | plain _ _ _ hne => exact hne
  | hex => simp
  | octal => simp
  | decimal _ hne _ => exact hne

theorem digit_of_mem (h : InBase arg body base digits) (hd : AllDigits base digits) :
    AllDigits 36 body := by
  have hbound := h.bounds.2
  have hall : AllDigits 36 digits := fun c hc => Nat.lt_of_lt_of_le (hd c hc) hbound
  cases h with
  | plain => exact hall
  | hex _ hx _ =>
    refine List.forall_mem_cons.mpr ⟨by decide,List.forall_mem_cons.mpr ⟨?_,hall⟩⟩
    rcases hx with rfl | rfl <;> decide
  | octal => exact List.forall_mem_cons.mpr ⟨by decide,hall⟩
  | decimal => exact hall

end InBase

theorem hexPrefix_of_digits {base : Nat} (hbase : base ≤ 33) {digits : Text}
    (h : AllDigits base digits) : hexPrefix digits = false := by
  unfold hexPrefix
  split
  · rename_i x rest
    have hx : asciiToInt x < base := h x (by simp)
    by_contra htrue
    simp only [Bool.not_eq_false,Bool.or_eq_true,decide_eq_true_eq] at htrue
    rcases htrue with rfl | rfl
    · exact absurd hx (by simp [asciiToInt]; omega)
    · exact absurd hx (by simp [asciiToInt]; omega)
  · rfl

theorem InBase.parse {arg : Int} {body digits : Text} {base : Nat}
    (h : InBase arg body base digits) (hd : AllDigits base digits) :
    safeParseBase body arg = some (digits,(base : Int)) := by
  cases h with
  | plain harg hlow hhigh hne =>
    subst harg
    rw [safeParseBase,if_neg (by omega)]
    split
    · rename_i hsixteen
      have hbase : base = 16 := by omega
      subst hbase
      rw [hexPrefix_of_digits (by decide) hd]
      rfl
    · exact if_pos ⟨by omega,by omega⟩
  | hex harg hx hne =>
    have hhex : ∀ x, x = 'x' ∨ x = 'X' → hexPrefix ('0' :: x :: digits) = true := by
      rintro x (rfl | rfl) <;> rfl
    rw [safeParseBase,hhex _ hx]
    rcases harg with rfl | rfl <;> simp [hne]
  | octal harg =>
    subst harg
    have hhex : hexPrefix ('0' :: digits) = false := by
      cases digits with
      | nil => rfl
      | cons x rest =>
        have hx : asciiToInt x < 8 := hd x List.mem_cons_self
        by_contra htrue
        simp only [hexPrefix,Bool.not_eq_false,Bool.or_eq_true,decide_eq_true_eq] at htrue
        rcases htrue with rfl | rfl
        · exact absurd hx (by decide)
        · exact absurd hx (by decide)
    simp [safeParseBase,hhex]
  | decimal harg hne hhead =>
    subst harg
    simp [safeParseBase,hexPrefix_of_digits (by decide) hd,hhead]

theorem InBase.of_parse {arg base : Int} {start digits : Text} (hne : start ≠ [])
    (h : safeParseBase start arg = some (digits,base)) :
    ∃ b : Nat, base = b ∧ InBase arg start b digits := by
  have hhex : hexPrefix start = true → arg = 0 ∨ arg = 16 → start.drop 2 ≠ [] →
      InBase arg start 16 (start.drop 2) := by
    intro hhex harg hdigits
    unfold hexPrefix at hhex
    split at hhex
    · simp only [Bool.or_eq_true,decide_eq_true_eq] at hhex
      exact .hex harg hhex hdigits
    · cases hhex
  unfold safeParseBase at h
  split at h
  · rename_i harg
    split at h
    · split at h
      · cases h
      · cases h
        exact ⟨16,rfl,hhex ‹_› (.inl harg) ‹_›⟩
    · split at h
      · rename_i hzero
        cases h
        obtain ⟨rest,rfl⟩ := List.head?_eq_some_iff.mp hzero
        exact ⟨8,rfl,.octal harg⟩
      · cases h
        exact ⟨10,rfl,.decimal harg hne ‹_›⟩
  split at h
  · rename_i harg
    split at h
    · split at h
      · cases h
      · cases h
        exact ⟨16,rfl,hhex ‹_› (.inr harg) ‹_›⟩
    · cases h
      exact ⟨16,rfl,.plain harg (by decide) (by decide) hne⟩
  split at h
  · cases h
    exact ⟨arg.toNat,by omega,.plain (by omega) (by omega) (by omega) hne⟩
  · cases h

theorem trim_numeral {left mid right : Text} (hleft : ∀ c ∈ left, asciiIsSpace c = true)
    (hright : ∀ c ∈ right, asciiIsSpace c = true) (hne : mid ≠ [])
    (hmid : ∀ c ∈ mid, asciiIsSpace c = false) :
    trim asciiIsSpace (left ++ mid ++ right) = mid :=
  trim_append hleft hright hne (fun c hc => hmid c (List.mem_of_mem_head? hc))
    (fun c hc => hmid c (List.mem_of_getLast? hc))

theorem Numeral.parse {signed : Bool} {arg : Int} (n : Numeral signed arg) :
    safeParseSignAndBase n.text arg = some (n.digits,(n.base : Int),n.negative) := by
  obtain ⟨left,sign,negative,body,base,digits,right,hleft,hright,hsign,hbody,hdigits⟩ := n
  have hchars : AllDigits 36 body := hbody.digit_of_mem hdigits
  have hparse := hbody.parse hdigits
  have hne := hbody.ne_nil
  have htrim : trim asciiIsSpace (left ++ (sign ++ body) ++ right) = sign ++ body := by
    refine trim_numeral hleft hright (by simp [hne]) ?_
    intro c hc
    rcases List.mem_append.mp hc with hc | hc
    · cases hsign with
      | absent => cases hc
      | plus => cases List.mem_singleton.mp hc; rfl
      | minus => cases List.mem_singleton.mp hc; rfl
    · exact not_blank_of_digit (hchars c hc)
  rw [Numeral.text,safeParseSignAndBase,htrim]
  cases hsign with
  | absent =>
    obtain ⟨c,rest,rfl⟩ := List.exists_cons_of_ne_nil hne
    have hc : asciiToInt c < 36 := hchars c List.mem_cons_self
    have hother : ¬ (c = '-' ∨ c = '+') := by
      rintro (rfl | rfl)
      · exact absurd hc (by decide)
      · exact absurd hc (by decide)
    simp [hother,hparse]
  | plus => simp [hne,hparse]
  | minus => simp [hne,hparse]

theorem exists_numeral {signed : Bool} {text digits : Text} {arg base : Int} {negative : Bool}
    (h : safeParseSignAndBase text arg = some (digits,base,negative))
    (hsign : negative = true → signed = true) :
    ∃ b : Nat, base = b ∧ 2 ≤ b ∧ b ≤ 36 ∧ (AllDigits b digits →
      ∃ n : Numeral signed arg, n.text = text ∧ n.digits = digits ∧ n.base = b ∧
        n.negative = negative) := by
  obtain ⟨left,right,htext,hleft,hright⟩ := trim_spec asciiIsSpace text
  have hmake (sign : Text) {body : Text} (htrim : trim asciiIsSpace text = sign ++ body)
      (hs : IsSign signed sign negative) (hne : body ≠ [])
      (hp : safeParseBase body arg = some (digits,base)) :
      ∃ b : Nat, base = b ∧ 2 ≤ b ∧ b ≤ 36 ∧ (AllDigits b digits →
        ∃ n : Numeral signed arg, n.text = text ∧ n.digits = digits ∧ n.base = b ∧
          n.negative = negative) := by
    obtain ⟨b,hb,hbody⟩ := InBase.of_parse hne hp
    refine ⟨b,hb,hbody.bounds.1,hbody.bounds.2,fun hd => ?_⟩
    exact ⟨⟨left,sign,negative,body,b,digits,right,hleft,hright,hs,hbody,hd⟩,
      by rw [Numeral.text,← htrim]; exact htext.symm,rfl,rfl,rfl⟩
  unfold safeParseSignAndBase at h
  split at h
  · cases h
  rename_i c rest htrim
  split at h
  · rename_i hc
    split at h
    · cases h
    obtain ⟨⟨digits',base'⟩,hp,heq⟩ := Option.map_eq_some_iff.mp h
    cases heq
    rcases hc with rfl | rfl
    · exact hmake ['-'] htrim (.minus (hsign rfl)) ‹_› hp
    · exact hmake ['+'] htrim .plus ‹_› hp
  · obtain ⟨⟨digits',base'⟩,hp,heq⟩ := Option.map_eq_some_iff.mp h
    cases heq
    exact hmake [] htrim .absent (List.cons_ne_nil c rest) hp

theorem Numeral.value_eq {signed : Bool} {arg : Int} (n : Numeral signed arg) :
    n.value = if n.negative then -(total n.base 0 n.digits : Int) else total n.base 0 n.digits := by
  rw [total,horner_zero]
  rfl

/-- What the text conversions promise of a function that stores in `t`. -/
def Converts (t : IntType) (convert : Text → Int → Option (Bool × Int)) : Prop :=
  ∀ text base, ∃ ok stored, convert text base = some (ok,stored) ∧
    (ok = true ↔ ∃ n : Numeral t.signed base, n.text = text ∧ t.min ≤ n.value ∧ n.value ≤ t.max) ∧
    ∀ n : Numeral t.signed base, n.text = text → stored = t.nearest n.value

structure Reads (t : IntType) (convert : Text → Int → Option (Bool × Int)) : Prop where
  none : ∀ {text arg}, safeParseSignAndBase text arg = none → convert text arg = some (false,0)
  minus : ∀ {text arg digits base}, t.signed = false →
    safeParseSignAndBase text arg = some (digits,base,true) → convert text arg = some (false,0)
  other : ∀ {text arg digits negative} {b : Nat}, (negative = true → t.signed = true) →
    safeParseSignAndBase text arg = some (digits,(b : Int),negative) → 2 ≤ b → b ≤ 36 →
    ¬ AllDigits b digits → ∃ stored, convert text arg = some (false,stored)
  digits : ∀ {text arg digits negative} {b : Nat}, (negative = true → t.signed = true) →
    safeParseSignAndBase text arg = some (digits,(b : Int),negative) → 2 ≤ b → b ≤ 36 →
    AllDigits b digits → ∀ v : Int, v = (if negative then -(total b 0 digits : Int)
      else total b 0 digits) → convert text arg = some (decide (t.min ≤ v ∧ v ≤ t.max),t.nearest v)

theorem Reads.converts {t : IntType} {convert : Text → Int → Option (Bool × Int)}
    (h : Reads t convert) : Converts t convert := by
  intro text arg
  have hnone {ok : Bool} {stored : Int} (hconvert : convert text arg = some (ok,stored))
      (hok : ok = false) (hno : ∀ n : Numeral t.signed arg, n.text ≠ text) :
      ∃ ok stored, convert text arg = some (ok,stored) ∧ (ok = true ↔
        ∃ n : Numeral t.signed arg, n.text = text ∧ t.min ≤ n.value ∧ n.value ≤ t.max) ∧
        ∀ n : Numeral t.signed arg, n.text = text → stored = t.nearest n.value := by
    refine ⟨ok,stored,hconvert,?_,fun n hn => absurd hn (hno n)⟩
    rw [hok]
    exact iff_of_false Bool.false_ne_true (fun ⟨n,hn,_⟩ => hno n hn)
  cases hparse : safeParseSignAndBase text arg with
  | none =>
    refine hnone (h.none hparse) rfl (fun n hn => ?_)
    rw [← hn,n.parse] at hparse
    cases hparse
  | some result =>
    obtain ⟨digits,base,negative⟩ := result
    have hsame (n : Numeral t.signed arg) (hn : n.text = text) :
        n.digits = digits ∧ (n.base : Int) = base ∧ n.negative = negative := by
      rw [← hn,n.parse] at hparse
      cases hparse
      exact ⟨rfl,rfl,rfl⟩
    by_cases hsign : negative = true → t.signed = true
    · obtain ⟨b,rfl,hlow,hhigh,hexists⟩ := exists_numeral hparse hsign
      by_cases hall : AllDigits b digits
      · have hvalue (n : Numeral t.signed arg) (hn : n.text = text) : n.value =
            if negative then -(total b 0 digits : Int) else total b 0 digits := by
          obtain ⟨h₁,h₂,h₃⟩ := hsame n hn
          rw [n.value_eq,h₁,h₃,Int.ofNat_inj.mp h₂]
        obtain ⟨n,hn,-⟩ := hexists hall
        refine ⟨_,_,h.digits hsign hparse hlow hhigh hall _ rfl,?_,
          fun m hm => by rw [hvalue m hm]⟩
        rw [decide_eq_true_eq,← hvalue n hn]
        refine ⟨fun hin => ⟨n,hn,hin⟩,fun ⟨m,hm,hin⟩ => ?_⟩
        rwa [hvalue m hm,← hvalue n hn] at hin
      · obtain ⟨stored,hstored⟩ := h.other hsign hparse hlow hhigh hall
        refine hnone hstored rfl (fun n hn => hall ?_)
        obtain ⟨h₁,h₂,-⟩ := hsame n hn
        rw [← h₁,← Int.ofNat_inj.mp h₂]
        exact n.isDigit
    · obtain ⟨hneg,hunsigned⟩ := Classical.not_imp.mp hsign
      subst hneg
      have hfalse : t.signed = false := by simpa using hunsigned
      refine hnone (h.minus hfalse hparse) rfl (fun n hn => ?_)
      obtain ⟨-,-,hminus⟩ := hsame n hn
      exact hunsigned (n.isSign.signed hminus)

section reads
variable {t : IntType} {b : Nat} {digits : Text}

theorem positive_of_digits (ht : t.Roomy) (hlow : 2 ≤ b) (hhigh : b ≤ 36)
    (hall : AllDigits b digits) :
    safeParsePositiveInt t digits b =
      some (decide (t.min ≤ (total b 0 digits : Int) ∧ (total b 0 digits : Int) ≤ t.max),
        t.nearest (total b 0 digits)) := by
  have hmin := ht.min
  have hmax := ht.max
  rw [safeParsePositiveInt,if_pos (by omega)]
  have hloop := positiveLoop_of_digits ht hlow hhigh 0 (by omega) hall
  rw [Nat.cast_zero] at hloop
  rw [hloop,IntType.nearest]
  by_cases hover : t.max < (total b 0 digits : Int)
  · simp [hover,show ¬ ((total b 0 digits : Int) < t.min) by omega,
      show ¬ ((total b 0 digits : Int) ≤ t.max) by omega]
  · simp [hover,show ¬ ((total b 0 digits : Int) < t.min) by omega,
      show (total b 0 digits : Int) ≤ t.max by omega,
      show t.min ≤ (total b 0 digits : Int) by omega]

theorem negative_of_digits (ht : t.mirror.Roomy) (hlow : 2 ≤ b) (hhigh : b ≤ 36)
    (hall : AllDigits b digits) :
    safeParseNegativeInt t digits b =
      some (decide (t.min ≤ -(total b 0 digits : Int) ∧ -(total b 0 digits : Int) ≤ t.max),
        t.nearest (-(total b 0 digits : Int))) := by
  have hmin : -t.max ≤ 0 := ht.min
  have hmax : 36 ≤ -t.min := ht.max
  rw [safeParseNegativeInt,if_pos (by omega)]
  have hmirror := negativeLoop_eq (t := t) (by omega) b 0 digits
  have hloop := positiveLoop_of_digits ht hlow hhigh 0 (by dsimp [IntType.mirror]; omega)
    hall
  rw [Nat.cast_zero] at hloop
  rw [Int.neg_zero,hloop] at hmirror
  rw [hmirror,IntType.nearest]
  by_cases hover : -t.min < (total b 0 digits : Int)
  · simp [IntType.mirror,show ¬ ((total b 0 digits : Int) ≤ -t.min) by omega,
      show -(total b 0 digits : Int) < t.min by omega,
      show ¬ (t.min ≤ -(total b 0 digits : Int)) by omega]
  · simp [IntType.mirror,show (total b 0 digits : Int) ≤ -t.min by omega,
      show ¬ (-(total b 0 digits : Int) < t.min) by omega,
      show ¬ (t.max < -(total b 0 digits : Int)) by omega,
      show t.min ≤ -(total b 0 digits : Int) by omega,
      show -(total b 0 digits : Int) ≤ t.max by omega]

theorem positive_of_other (ht : t.Roomy) (hlow : 2 ≤ b) (hhigh : b ≤ 36)
    (h : ¬ AllDigits b digits) :
    ∃ stored, safeParsePositiveInt t digits b = some (false,stored) := by
  have hmax := ht.max
  rw [safeParsePositiveInt,if_pos (by omega)]
  exact positiveLoop_of_other ht hlow hhigh 0 h

theorem negative_of_other (ht : t.mirror.Roomy) (hlow : 2 ≤ b) (hhigh : b ≤ 36)
    (h : ¬ AllDigits b digits) :
    ∃ stored, safeParseNegativeInt t digits b = some (false,stored) := by
  have hmax : 36 ≤ -t.min := ht.max
  obtain ⟨stored,hloop⟩ := positiveLoop_of_other ht hlow hhigh 0 h
  rw [Nat.cast_zero] at hloop
  refine ⟨-stored,?_⟩
  have hmirror := negativeLoop_eq (t := t) (by omega) b 0 digits
  rw [Int.neg_zero,hloop] at hmirror
  rw [safeParseNegativeInt,if_pos (by omega),hmirror]
  rfl

theorem int_reads (ht : t.Roomy) (hm : t.mirror.Roomy) : Reads t (safeIntInternal t) where
  none := fun h => by rw [safeIntInternal,h]
  minus := by
    intro text arg digits base hsigned
    have hmin : 36 ≤ -t.min := hm.max
    exact absurd hsigned (by simp [IntType.signed]; omega)
  other := by
    intro text arg digits negative b _ h hlow hhigh hother
    rw [safeIntInternal,h]
    cases negative with
    | false => exact positive_of_other ht hlow hhigh hother
    | true => exact negative_of_other hm hlow hhigh hother
  digits := by
    rintro text arg digits negative b _ h hlow hhigh hall v rfl
    rw [safeIntInternal,h]
    cases negative with
    | false => exact positive_of_digits ht hlow hhigh hall
    | true => exact negative_of_digits hm hlow hhigh hall

theorem uint_reads (ht : t.Roomy) (hunsigned : t.signed = false) :
    Reads t (safeUintInternal t) where
  none := fun h => by rw [safeUintInternal,h]
  minus := by
    intro text arg digits base _ h
    rw [safeUintInternal,h]
    rfl
  other := by
    intro text arg digits negative b hsign h hlow hhigh hother
    rw [safeUintInternal,h]
    cases negative with
    | false => exact positive_of_other ht hlow hhigh hother
    | true => exact absurd (hsign rfl) (by simp [hunsigned])
  digits := by
    rintro text arg digits negative b hsign h hlow hhigh hall v rfl
    rw [safeUintInternal,h]
    cases negative with
    | false => exact positive_of_digits ht hlow hhigh hall
    | true => exact absurd (hsign rfl) (by simp [hunsigned])

end reads

theorem int32_converts : Converts .int32 safeStrto32Base :=
  (int_reads ⟨by decide,by decide⟩ ⟨by decide,by decide⟩).converts

theorem int64_converts : Converts .int64 safeStrto64Base :=
  (int_reads ⟨by decide,by decide⟩ ⟨by decide,by decide⟩).converts

theorem uint32_converts : Converts .uint32 safeStrtou32Base :=
  (uint_reads ⟨by decide,by decide⟩ (by decide)).converts

theorem uint64_converts : Converts .uint64 safeStrtou64Base :=
  (uint_reads ⟨by decide,by decide⟩ (by decide)).converts

/-- Exactly the numerals in range convert, each to its value. -/
theorem strto_base_converts :
    Converts .int32 safeStrto32Base ∧ Converts .int64 safeStrto64Base ∧
      Converts .uint32 safeStrtou32Base ∧ Converts .uint64 safeStrtou64Base :=
  ⟨int32_converts,int64_converts,uint32_converts,uint64_converts⟩

end MprMq.Base
