import Mathlib.Data.List.TakeWhile
import MprMq.Base.Utf8
import MprMq.Lib.Loop
set_option autoImplicit false

/-! `TUtf8Util`: wide strings in UTF-8 and back. -/

namespace MprMq.Epub
open MprMq.Base MprMq.Lib

/-- `UniCharToUTF8`, as what it puts into the buffer; a `wchar_t` is a number with a sign. -/
def uniCharToUTF8 (uniChar : Int) : List UInt8 :=
  let bits := uniChar.toNat
  if uniChar < 0x80 then [UInt8.ofNat (uniChar % 0x100).toNat]
  else if uniChar < 0x800 then
    [(0xC0 : UInt8) ||| UInt8.ofNat (bits >>> 6),(0x80 : UInt8) ||| UInt8.ofNat (bits &&& 0x3F)]
  else if uniChar < 0x10000 then
    [(0xE0 : UInt8) ||| UInt8.ofNat (bits >>> 12),
      (0x80 : UInt8) ||| UInt8.ofNat ((bits >>> 6) &&& 0x3F),
      (0x80 : UInt8) ||| UInt8.ofNat (bits &&& 0x3F)]
  else if uniChar < 0x200000 then
    [(0xF0 : UInt8) ||| UInt8.ofNat (bits >>> 18),
      (0x80 : UInt8) ||| UInt8.ofNat ((bits >>> 12) &&& 0x3F),
      (0x80 : UInt8) ||| UInt8.ofNat ((bits >>> 6) &&& 0x3F),
      (0x80 : UInt8) ||| UInt8.ofNat (bits &&& 0x3F)]
  else []

def uniStrToUTF8Str (uniStr : List Int) : List UInt8 := uniStr.flatMap uniCharToUTF8

def maskedBits (b mask : UInt8) (shift : Nat) : Nat := (b &&& mask).toNat <<< shift

/-- One turn of `UTF8StrToUnicode`: how many bytes it goes on, and the `WideChar`. In the forms of
four and of five bytes the assignments to `WideChar` drop what stood in front of them. `none` is the
`break` where the string ends too early. -/
def wideChar : List UInt8 → Option (Nat × Nat)
  | [] => none
  | b0 :: rest =>
    if b0 &&& 0x80 = 0 then some (1,b0.toNat)
    else if b0 &&& 0xE0 = 0xC0 then
      match rest with
      | b1 :: _ => some (2,maskedBits b0 0x3F 6 ||| maskedBits b1 0x3F 0)
      | _ => none
    else if b0 &&& 0xF0 = 0xE0 then
      match rest with
      | b1 :: b2 :: _ =>
        some (3,maskedBits b0 0x1F 12 ||| maskedBits b1 0x3F 6 ||| maskedBits b2 0x3F 0)
      | _ => none
    else if b0 &&& 0xF8 = 0xF0 then
      match rest with
      | b1 :: b2 :: b3 :: _ =>
        some (4,maskedBits b1 0x3F 12 ||| maskedBits b2 0x3F 6 ||| maskedBits b3 0x3F 0)
      | _ => none
    else
      match rest with
      | _ :: b2 :: b3 :: b4 :: _ =>
        some (5,maskedBits b2 0x3F 12 ||| maskedBits b3 0x3F 6 ||| maskedBits b4 0x3F 0)
      | _ => none

def unicodeTurn (bufferSize : Nat) (s : List UInt8 × List Int) :
    Turn (List UInt8 × List Int) (List Int) :=
  if s.1 = [] then .done s.2
  else if bufferSize ≠ 0 ∧ bufferSize ≤ s.2.length then .done s.2
  else
    match wideChar s.1 with
    | none => .done s.2
    | some (n,c) => .next (s.1.drop n,s.2 ++ [(c : Int)])

def utf8StrToUnicode (fuel : Nat) (source : List UInt8) (bufferSize : Nat) :
    Option (List Int) :=
  runLoop (fun s => some (unicodeTurn bufferSize s)) fuel (source,[])

/-- `UTF8StrToUniStr`: the size is an `int`, and the string that is made ends at the first 0. -/
def utf8StrToUniStr (fuel : Nat) (utf8Str : List UInt8) : Option (List Int) :=
  if utf8Str = [] then some []
  else
    let size := utf8Str.length % 2^32
    (utf8StrToUnicode fuel (utf8Str.take size) size).map fun wide => wide.takeWhile fun c => c ≠ 0

section Ranges

theorem maskedBits_lt (b : UInt8) {mask : UInt8} {k shift n : Nat} (h : mask.toNat < 2^k)
    (hn : k+shift ≤ n) : maskedBits b mask shift < 2^n := by
  have hand : (b &&& mask).toNat < 2^k := by
    rw [UInt8.toNat_and]
    exact Nat.and_lt_two_pow _ h
  rw [maskedBits,Nat.shiftLeft_eq]
  calc (b &&& mask).toNat * 2^shift < 2^k * 2^shift :=
        Nat.mul_lt_mul_of_pos_right hand (Nat.two_pow_pos shift)
    _ = 2^(k+shift) := (Nat.pow_add 2 k shift).symm
    _ ≤ 2^n := Nat.pow_le_pow_right (by decide) hn

/-- No form gives a character that takes more than 18 bits. -/
theorem wideChar_lt {source : List UInt8} {n c : Nat} (h : wideChar source = some (n,c)) :
    c < 2^18 := by
  have hsix : ∀ (b : UInt8) shift, shift ≤ 12 → maskedBits b 0x3F shift < 2^18 :=
    fun b shift hshift => maskedBits_lt b (k := 6) (by decide) (by omega)
  have hlow : ∀ b1 b2 b3 : UInt8,
      maskedBits b1 0x3F 12 ||| maskedBits b2 0x3F 6 ||| maskedBits b3 0x3F 0 < 2^18 :=
    fun b1 b2 b3 => Nat.or_lt_two_pow
      (Nat.or_lt_two_pow (hsix b1 12 (by decide)) (hsix b2 6 (by decide))) (hsix b3 0 (by decide))
  rcases source with _ | ⟨b0,rest⟩
  · cases h
  unfold wideChar at h
  dsimp only at h
  by_cases hone : b0 &&& 0x80 = 0
  · rw [if_pos hone] at h
    cases h
    have hbyte := b0.toNat_lt
    omega
  rw [if_neg hone] at h
  by_cases htwo : b0 &&& 0xE0 = 0xC0
  · rw [if_pos htwo] at h
    split at h
    · cases h
      exact Nat.or_lt_two_pow (hsix _ _ (by decide)) (hsix _ _ (by decide))
    · cases h
  rw [if_neg htwo] at h
  by_cases hthree : b0 &&& 0xF0 = 0xE0
  · rw [if_pos hthree] at h
    split at h
    · cases h
      exact Nat.or_lt_two_pow (Nat.or_lt_two_pow (maskedBits_lt b0 (k := 5) (by decide) (by decide))
        (hsix _ _ (by decide))) (hsix _ _ (by decide))
    · cases h
  rw [if_neg hthree] at h
  by_cases hfour : b0 &&& 0xF8 = 0xF0
  · rw [if_pos hfour] at h
    split at h
    · cases h
      exact hlow _ _ _
    · cases h
  · rw [if_neg hfour] at h
    split at h
    · cases h
      exact hlow _ _ _
    · cases h

end Ranges

section RoundTrip
variable {c : Int}

theorem first_of_three_wide {n : Nat} (h : n < 16) :
    ((0xE0 ||| UInt8.ofNat n) &&& 0x1F : UInt8).toNat = n := by
  have hall : ∀ k : Fin 16, ((0xE0 ||| UInt8.ofNat k.val) &&& 0x1F : UInt8).toNat = k.val := by
    decide
  exact hall ⟨n,h⟩

theorem first_of_two_wide {n : Nat} (h : n < 32) :
    ((0xC0 ||| UInt8.ofNat n) &&& 0x3F : UInt8).toNat = n := by
  have hall : ∀ k : Fin 32, ((0xC0 ||| UInt8.ofNat k.val) &&& 0x3F : UInt8).toNat = k.val := by
    decide
  exact hall ⟨n,h⟩

section Forms
variable {b0 b1 b2 b3 : UInt8}

theorem wideChar_one (h : b0 &&& 0x80 = 0) (rest : List UInt8) :
    wideChar (b0 :: rest) = some (1,b0.toNat) := by
  unfold wideChar
  exact if_pos h

theorem wideChar_two (hmark : b0 &&& 0x80 ≠ 0) (hform : b0 &&& 0xE0 = 0xC0) (rest : List UInt8) :
    wideChar (b0 :: b1 :: rest) = some (2,maskedBits b0 0x3F 6 ||| maskedBits b1 0x3F 0) := by
  unfold wideChar
  dsimp only
  rw [if_neg hmark,if_pos hform]

theorem wideChar_three (hmark : b0 &&& 0x80 ≠ 0) (hother : b0 &&& 0xE0 ≠ 0xC0)
    (hform : b0 &&& 0xF0 = 0xE0) (rest : List UInt8) : wideChar (b0 :: b1 :: b2 :: rest) =
      some (3,maskedBits b0 0x1F 12 ||| maskedBits b1 0x3F 6 ||| maskedBits b2 0x3F 0) := by
  unfold wideChar
  dsimp only
  rw [if_neg hmark,if_neg hother,if_pos hform]

theorem wideChar_four (hmark : b0 &&& 0x80 ≠ 0) (hother : b0 &&& 0xE0 ≠ 0xC0)
    (hother' : b0 &&& 0xF0 ≠ 0xE0) (hform : b0 &&& 0xF8 = 0xF0) (rest : List UInt8) :
    wideChar (b0 :: b1 :: b2 :: b3 :: rest) =
      some (4,maskedBits b1 0x3F 12 ||| maskedBits b2 0x3F 6 ||| maskedBits b3 0x3F 0) := by
  unfold wideChar
  dsimp only
  rw [if_neg hmark,if_neg hother,if_neg hother',if_pos hform]

end Forms

/-- Three groups of six bits put together again. -/
theorem groups_join (n : Nat) :
    ((n >>> 12) % 2^6) <<< 12 ||| ((n >>> 6) % 2^6) <<< 6 ||| n % 2^6 = n % 2^18 := by
  have hagain : n >>> 12 = (n >>> 6) >>> 6 := Nat.shiftRight_add n 6 6
  have hmove : ((n >>> 12) % 2^6) <<< 12 = (((n >>> 12) % 2^6) <<< 6) <<< 6 :=
    Nat.shiftLeft_add _ 6 6
  rw [hmove,← Nat.shiftLeft_or_distrib,hagain,tail_join,tail_join]

/-- A character of at most 18 bits is read back, whatever follows. -/
theorem wideChar_uniCharToUTF8 (hlow : 0 ≤ c) (hhigh : c < 0x40000) (rest : List UInt8) :
    wideChar (uniCharToUTF8 c ++ rest) = some ((uniCharToUTF8 c).length,c.toNat) := by
  obtain ⟨n,rfl⟩ := Int.eq_ofNat_of_zero_le hlow
  have hshift : ∀ k, n >>> k = n / 2^k := Nat.shiftRight_eq_div_pow n
  have htail : ∀ k shift, maskedBits ((0x80 : UInt8) ||| UInt8.ofNat (k &&& 0x3F)) 0x3F shift =
      (k % 2^6) <<< shift := fun k shift => congrArg (· <<< shift) (tailByte_bits k)
  rw [uniCharToUTF8]
  rw [Int.toNat_natCast]
  by_cases hone : (n : Int) < 0x80
  · obtain ⟨hfirst,hvalue⟩ := one_byte (show n < 128 by omega)
    have hbyte : ((n : Int) % 0x100).toNat = n := by omega
    rw [if_pos hone,hbyte,List.singleton_append,wideChar_one hfirst,hvalue]
    rfl
  rw [if_neg hone]
  by_cases htwo : (n : Int) < 0x800
  · have hhead : n >>> 6 < 32 := by rw [hshift]; omega
    obtain ⟨hfirst,hform,_⟩ := first_of_two hhead
    rw [if_pos htwo,List.cons_append,List.cons_append,wideChar_two hfirst hform,htail,maskedBits,
      first_of_two_wide hhead,Nat.shiftLeft_zero,bits_join]
    rfl
  rw [if_neg htwo]
  by_cases hthree : (n : Int) < 0x10000
  · have hhead : n >>> 12 < 16 := by rw [hshift]; omega
    obtain ⟨hfirst,hother,hform,_⟩ := first_of_three hhead
    have hjoin := groups_join n
    rw [Nat.mod_eq_of_lt (by omega : n >>> 12 < 2^6),Nat.mod_eq_of_lt (by omega : n < 2^18)]
      at hjoin
    rw [if_pos hthree,List.cons_append,List.cons_append,List.cons_append,
      wideChar_three hfirst hother hform,htail,htail,maskedBits,first_of_three_wide hhead,
      Nat.shiftLeft_zero,hjoin]
    rfl
  · have hhead : n >>> 18 < 8 := by rw [hshift]; omega
    obtain ⟨hfirst,hother,hother',hform,_⟩ := first_of_four hhead
    have hjoin := groups_join n
    rw [Nat.mod_eq_of_lt (by omega : n < 2^18)] at hjoin
    rw [if_neg hthree,if_pos (by omega),List.cons_append,List.cons_append,List.cons_append,
      List.cons_append,wideChar_four hfirst hother hother' hform,htail,htail,htail,
      Nat.shiftLeft_zero,hjoin]
    rfl

theorem uniCharToUTF8_length (hlow : 0 ≤ c) (hhigh : c < 0x40000) :
    1 ≤ (uniCharToUTF8 c).length ∧ (uniCharToUTF8 c).length ≤ 4 := by
  unfold uniCharToUTF8
  split_ifs
  all_goals simp
  omega

/-- The turns for a string of characters that are read back; the buffer never is too small. -/
theorem runLoop_uniStr {uniStr out : List Int} (h : ∀ c ∈ uniStr, 0 ≤ c ∧ c < 0x40000)
    {bufferSize fuel : Nat} (hbuf : out.length+uniStr.length ≤ bufferSize)
    (hfuel : uniStr.length < fuel) :
    runLoop (fun s => some (unicodeTurn bufferSize s)) fuel (uniStrToUTF8Str uniStr,out) =
      some (out ++ uniStr) := by
  induction uniStr generalizing out fuel with
  | nil =>
    obtain ⟨fuel,rfl⟩ := Nat.exists_eq_add_of_lt hfuel
    rw [runLoop_done (r := out) rfl,List.append_nil]
  | cons c uniStr ih =>
    obtain ⟨⟨hlow,hhigh⟩,hrest⟩ := List.forall_mem_cons.mp h
    obtain ⟨fuel,rfl⟩ := Nat.exists_eq_add_of_lt hfuel
    rw [List.length_cons] at hbuf hfuel
    have hpos := (uniCharToUTF8_length hlow hhigh).1
    have hne : uniStrToUTF8Str (c :: uniStr) ≠ [] := by
      intro hnil
      rw [uniStrToUTF8Str,List.flatMap_cons,List.append_eq_nil_iff] at hnil
      rw [hnil.1] at hpos
      exact absurd hpos (by decide)
    have hturn : unicodeTurn bufferSize (uniStrToUTF8Str (c :: uniStr),out) =
        .next (uniStrToUTF8Str uniStr,out ++ [c]) := by
      rw [unicodeTurn,if_neg hne,if_neg (by dsimp only; omega)]
      dsimp only
      rw [uniStrToUTF8Str,List.flatMap_cons,wideChar_uniCharToUTF8 hlow hhigh]
      dsimp only
      rw [List.drop_left,Int.toNat_of_nonneg hlow]
      rfl
    rw [runLoop_next (congrArg some hturn),ih hrest (by simp; omega)
      (by rw [List.length_cons]; omega),List.append_assoc]
    rfl

/-- What is put out takes no more than 18 bits. -/
theorem utf8StrToUnicode_lt {fuel bufferSize : Nat} {source : List UInt8} {wide : List Int}
    (h : utf8StrToUnicode fuel source bufferSize = some wide) :
    ∀ c ∈ wide, 0 ≤ c ∧ c < 0x40000 := by
  refine runLoop_partial (I := fun s => ∀ c ∈ s.2, 0 ≤ c ∧ c < 0x40000)
    (Q := fun wide => ∀ c ∈ wide, 0 ≤ c ∧ c < 0x40000) ?_ (s := (source,[])) (by simp) h
  rintro s o hs ⟨⟩
  unfold unicodeTurn
  split
  case isTrue => exact hs
  case isFalse =>
    split
    case isTrue => exact hs
    case isFalse =>
      split
      case h_1 => exact hs
      case h_2 n c hwide =>
        intro d hd
        rcases List.mem_append.mp hd with hold | hnew
        · exact hs d hold
        · have hlt := wideChar_lt hwide
          rw [List.mem_singleton.mp hnew]
          omega

theorem uniStrToUTF8Str_length {uniStr : List Int} (h : ∀ c ∈ uniStr, 0 < c ∧ c < 0x40000) :
    uniStr.length ≤ (uniStrToUTF8Str uniStr).length := by
  induction uniStr with
  | nil => exact Nat.zero_le _
  | cons c uniStr ih =>
    obtain ⟨⟨hlow,hhigh⟩,hrest⟩ := List.forall_mem_cons.mp h
    have hpos := (uniCharToUTF8_length (Int.le_of_lt hlow) hhigh).1
    have hmore := ih hrest
    rw [uniStrToUTF8Str] at hmore
    rw [uniStrToUTF8Str,List.flatMap_cons,List.length_append,List.length_cons]
    omega

/-- A wide string comes back from UTF-8 exactly if its characters are not 0 and take no more than
18 bits. -/
theorem utf8StrToUniStr_uniStrToUTF8Str_iff (uniStr : List Int) {fuel : Nat}
    (hsize : (uniStrToUTF8Str uniStr).length < 2^32)
    (hfuel : (uniStrToUTF8Str uniStr).length < fuel) :
    utf8StrToUniStr fuel (uniStrToUTF8Str uniStr) = some uniStr ↔
      ∀ c ∈ uniStr, 0 < c ∧ c < 0x40000 := by
  rw [utf8StrToUniStr]
  constructor
  · intro hback c hc
    split at hback
    case isTrue => cases hback; exact absurd hc List.not_mem_nil
    case isFalse =>
      obtain ⟨wide,hwide,rfl⟩ := Option.map_eq_some_iff.mp hback
      have hrange := utf8StrToUnicode_lt hwide c ((List.takeWhile_prefix _).subset hc)
      have hnot : c ≠ 0 := by simpa using List.mem_takeWhile_imp hc
      omega
  · intro h
    have hlength := uniStrToUTF8Str_length h
    split
    case isTrue hnil =>
      rw [hnil] at hlength
      rw [List.eq_nil_of_length_eq_zero (Nat.le_zero.mp hlength)]
    case isFalse =>
      dsimp only
      rw [Nat.mod_eq_of_lt hsize,List.take_length,utf8StrToUnicode,
        runLoop_uniStr (fun c hc => ⟨Int.le_of_lt (h c hc).1,(h c hc).2⟩)
        (by rw [List.length_nil]; omega) (by omega)]
      rw [List.nil_append,Option.map_some,List.takeWhile_eq_self_iff.mpr]
      intro c hc
      have hpos := (h c hc).1
      exact decide_eq_true (by omega)

/-- A character in each of the four forms. -/
theorem utf8StrToUniStr_forms :
    utf8StrToUniStr 11 (uniStrToUTF8Str [0x61,0xE9,0x4E2D,0x1F600]) =
      some [0x61,0xE9,0x4E2D,0x1F600] :=
  (utf8StrToUniStr_uniStrToUTF8Str_iff [0x61,0xE9,0x4E2D,0x1F600] (by decide) (by decide)).mpr
    (by decide)

end RoundTrip

end MprMq.Epub
