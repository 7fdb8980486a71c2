import Mathlib.Algebra.Group.Nat.Defs
import MprMq.Lib.Buffer
import MprMq.Lib.SelfDelimiting
set_option autoImplicit false

/-! `UTF8Encode` and `UTF8Decode`. -/

namespace MprMq.Base
open Lib Lib.Buffer

/-- What is returned, and the buffer afterwards; `none` is a write outside of it. -/
def utf8Encode (buffer : List UInt8) (bufLen value : Nat) : Option (Nat × List UInt8) :=
  if value ≤ 0x7F ∧ 1 ≤ bufLen then
    (put buffer 0 [UInt8.ofNat value]).map fun buffer => (1,buffer)
  else if value ≤ 0x7FF ∧ 2 ≤ bufLen then
    (put buffer 0 [(0xC0 : UInt8) ||| UInt8.ofNat (value >>> 6),
      (0x80 : UInt8) ||| UInt8.ofNat (value &&& 0x3F)]).map fun buffer => (2,buffer)
  else if value ≤ 0xFFFF ∧ 3 ≤ bufLen then
    (put buffer 0 [(0xE0 : UInt8) ||| UInt8.ofNat (value >>> 12),
      (0x80 : UInt8) ||| UInt8.ofNat ((value >>> 6) &&& 0x3F),
      (0x80 : UInt8) ||| UInt8.ofNat (value &&& 0x3F)]).map fun buffer => (3,buffer)
  else if value ≤ 0x1FFFFF ∧ 4 ≤ bufLen then
    (put buffer 0 [(0xF0 : UInt8) ||| UInt8.ofNat (value >>> 18),
      (0x80 : UInt8) ||| UInt8.ofNat ((value >>> 12) &&& 0x3F),
      (0x80 : UInt8) ||| UInt8.ofNat ((value >>> 6) &&& 0x3F),
      (0x80 : UInt8) ||| UInt8.ofNat (value &&& 0x3F)]).map fun buffer => (4,buffer)
  else some (0,buffer)

/-- What is returned, and the value behind the pointer afterwards; `none` is a read outside of the
source. -/
def utf8Decode (source : List UInt8) (srcLen value : Nat) : Option (Nat × Nat) := do
  let s0 ← source[0]?
  if s0 &&& 0x80 = 0x00 then return (1,s0.toNat)
  if srcLen < 2 then return (0,value)
  let s1 ← source[1]?
  if s1 &&& 0xC0 ≠ 0x80 then return (0,value)
  let value16 := (s1 &&& 0x3F).toNat
  if s0 &&& 0xE0 = 0xC0 then return (2,((s0 &&& 0x1F).toNat <<< 6) ||| value16)
  if srcLen < 3 then return (0,value)
  let s2 ← source[2]?
  if s2 &&& 0xC0 ≠ 0x80 then return (0,value)
  let value16 := (value16 <<< 6) ||| (s2 &&& 0x3F).toNat
  if s0 &&& 0xF0 = 0xE0 then return (3,((s0 &&& 0x0F).toNat <<< 12) ||| value16)
  if srcLen < 4 then return (0,value)
  let s3 ← source[3]?
  if s3 &&& 0xC0 ≠ 0x80 then return (0,value)
  let value16 := (value16 <<< 6) ||| (s3 &&& 0x3F).toNat
  if s0 &&& 0xF8 = 0xF0 then return (4,((s0 &&& 0x07).toNat <<< 18) ||| value16)
  return (0,value)

def utf8Encoded (value : Nat) (buffer : List UInt8) : Option (List UInt8) :=
  (utf8Encode buffer buffer.length value).map fun r => r.2.take r.1

/-- A step of the decoding; `behind` is what lies in memory behind the source, and a step that
returns 0 has failed. -/
def utf8Step (behind source : List UInt8) : Option (Nat × Nat) :=
  (utf8Decode (source ++ behind) source.length 0).bind fun r =>
    if r.1 = 0 then none else some r

def tailByte (n : Nat) : UInt8 := 0x80 ||| UInt8.ofNat (n &&& 0x3F)

def utf8Bytes (value : Nat) : List UInt8 :=
  if value ≤ 0x7F then [UInt8.ofNat value]
  else if value ≤ 0x7FF then [(0xC0 : UInt8) ||| UInt8.ofNat (value >>> 6),tailByte value]
  else if value ≤ 0xFFFF then
    [(0xE0 : UInt8) ||| UInt8.ofNat (value >>> 12),tailByte (value >>> 6),tailByte value]
  else
    [(0xF0 : UInt8) ||| UInt8.ofNat (value >>> 18),tailByte (value >>> 12),
      tailByte (value >>> 6),tailByte value]

def Fits (value bufLen : Nat) : Prop :=
  value ≤ 0x1FFFFF ∧ (utf8Bytes value).length ≤ bufLen

section bytes
variable {n value : Nat}

theorem tailByte_mark (n : Nat) : tailByte n &&& 0xC0 = 0x80 := by
  have hall : ∀ k : Fin 64, (0x80 ||| UInt8.ofNat k.val) &&& 0xC0 = 0x80 := by decide
  have hlt : n &&& 0x3F < 64 := Nat.and_lt_two_pow n (by decide : 0x3F < 2^6)
  exact hall ⟨_,hlt⟩

theorem tailByte_bits (n : Nat) : (tailByte n &&& 0x3F).toNat = n % 2^6 := by
  have hall : ∀ k : Fin 64, ((0x80 ||| UInt8.ofNat k.val) &&& 0x3F).toNat = k.val := by decide
  have hlt : n &&& 0x3F < 64 := Nat.and_lt_two_pow n (by decide : 0x3F < 2^6)
  exact (hall ⟨_,hlt⟩).trans (Nat.and_two_pow_sub_one_eq_mod n 6)

theorem one_byte (h : n < 128) :
    UInt8.ofNat n &&& 0x80 = 0 ∧ (UInt8.ofNat n).toNat = n := by
  have hall : ∀ k : Fin 128, UInt8.ofNat k.val &&& 0x80 = 0 ∧
      (UInt8.ofNat k.val).toNat = k.val := by decide
  exact hall ⟨n,h⟩

theorem first_of_two (h : n < 32) : (0xC0 ||| UInt8.ofNat n) &&& 0x80 ≠ 0 ∧
    (0xC0 ||| UInt8.ofNat n) &&& 0xE0 = 0xC0 ∧
    ((0xC0 ||| UInt8.ofNat n) &&& 0x1F).toNat = n := by
  have hall : ∀ k : Fin 32, (0xC0 ||| UInt8.ofNat k.val) &&& 0x80 ≠ 0 ∧
      (0xC0 ||| UInt8.ofNat k.val) &&& 0xE0 = 0xC0 ∧
      ((0xC0 ||| UInt8.ofNat k.val) &&& 0x1F).toNat = k.val := by decide
  exact hall ⟨n,h⟩

theorem first_of_three (h : n < 16) : (0xE0 ||| UInt8.ofNat n) &&& 0x80 ≠ 0 ∧
    (0xE0 ||| UInt8.ofNat n) &&& 0xE0 ≠ 0xC0 ∧
    (0xE0 ||| UInt8.ofNat n) &&& 0xF0 = 0xE0 ∧
    ((0xE0 ||| UInt8.ofNat n) &&& 0x0F).toNat = n := by
  have hall : ∀ k : Fin 16, (0xE0 ||| UInt8.ofNat k.val) &&& 0x80 ≠ 0 ∧
      (0xE0 ||| UInt8.ofNat k.val) &&& 0xE0 ≠ 0xC0 ∧
      (0xE0 ||| UInt8.ofNat k.val) &&& 0xF0 = 0xE0 ∧
      ((0xE0 ||| UInt8.ofNat k.val) &&& 0x0F).toNat = k.val := by decide
  exact hall ⟨n,h⟩

theorem first_of_four (h : n < 8) : (0xF0 ||| UInt8.ofNat n) &&& 0x80 ≠ 0 ∧
    (0xF0 ||| UInt8.ofNat n) &&& 0xE0 ≠ 0xC0 ∧
    (0xF0 ||| UInt8.ofNat n) &&& 0xF0 ≠ 0xE0 ∧
    (0xF0 ||| UInt8.ofNat n) &&& 0xF8 = 0xF0 ∧
    ((0xF0 ||| UInt8.ofNat n) &&& 0x07).toNat = n := by
  have hall : ∀ k : Fin 8, (0xF0 ||| UInt8.ofNat k.val) &&& 0x80 ≠ 0 ∧
      (0xF0 ||| UInt8.ofNat k.val) &&& 0xE0 ≠ 0xC0 ∧
      (0xF0 ||| UInt8.ofNat k.val) &&& 0xF0 ≠ 0xE0 ∧
      (0xF0 ||| UInt8.ofNat k.val) &&& 0xF8 = 0xF0 ∧
      ((0xF0 ||| UInt8.ofNat k.val) &&& 0x07).toNat = k.val := by decide
  exact hall ⟨n,h⟩

theorem bits_join (n k : Nat) : ((n >>> k) <<< k) ||| n % 2^k = n := by
  rw [← Nat.shiftLeft_add_eq_or_of_lt (Nat.mod_lt n (Nat.two_pow_pos k)),Nat.shiftLeft_eq,
    Nat.shiftRight_eq_div_pow]
  exact Nat.div_add_mod' n (2^k)

theorem tail_join (n a : Nat) :
    (((n >>> 6) % 2^a) <<< 6) ||| n % 2^6 = n % 2^(6+a) := by
  have hjoin := bits_join (n % 2^(6+a)) 6
  have hlow : n % 2^(6+a) % 2^6 = n % 2^6 :=
    Nat.mod_mod_of_dvd n (Nat.pow_dvd_pow 2 (Nat.le_add_right 6 a))
  have hhigh : (n % 2^(6+a)) >>> 6 = (n >>> 6) % 2^a := by
    rw [Nat.shiftRight_eq_div_pow,Nat.shiftRight_eq_div_pow,Nat.pow_add,
      Nat.mod_mul_right_div_self]
  rwa [hlow,hhigh] at hjoin

end bytes

section decoding
variable {s0 s1 s2 s3 : UInt8} {srcLen : Nat}

theorem utf8Decode_one (h : s0 &&& 0x80 = 0) (rest : List UInt8) (srcLen old : Nat) :
    utf8Decode (s0 :: rest) srcLen old = some (1,s0.toNat) := by
  simp [utf8Decode,h]

theorem utf8Decode_two (hlen : 2 ≤ srcLen) (hmark : s0 &&& 0x80 ≠ 0)
    (h1 : s1 &&& 0xC0 = 0x80) (hform : s0 &&& 0xE0 = 0xC0) (rest : List UInt8) (old : Nat) :
    utf8Decode (s0 :: s1 :: rest) srcLen old =
      some (2,((s0 &&& 0x1F).toNat <<< 6) ||| (s1 &&& 0x3F).toNat) := by
  have hlong : ¬srcLen < 2 := by omega
  simp [utf8Decode,hlong,hmark,h1,hform]

theorem utf8Decode_three (hlen : 3 ≤ srcLen) (hmark : s0 &&& 0x80 ≠ 0)
    (h1 : s1 &&& 0xC0 = 0x80) (h2 : s2 &&& 0xC0 = 0x80) (hother : s0 &&& 0xE0 ≠ 0xC0)
    (hform : s0 &&& 0xF0 = 0xE0) (rest : List UInt8) (old : Nat) :
    utf8Decode (s0 :: s1 :: s2 :: rest) srcLen old =
      some (3,((s0 &&& 0x0F).toNat <<< 12) |||
        (((s1 &&& 0x3F).toNat <<< 6) ||| (s2 &&& 0x3F).toNat)) := by
  have hlong : ¬srcLen < 2 ∧ ¬srcLen < 3 := by omega
  simp [utf8Decode,hlong,hmark,h1,h2,hother,hform]

theorem utf8Decode_four (hlen : 4 ≤ srcLen) (hmark : s0 &&& 0x80 ≠ 0)
    (h1 : s1 &&& 0xC0 = 0x80) (h2 : s2 &&& 0xC0 = 0x80) (h3 : s3 &&& 0xC0 = 0x80)
    (hother : s0 &&& 0xE0 ≠ 0xC0) (hother' : s0 &&& 0xF0 ≠ 0xE0)
    (hform : s0 &&& 0xF8 = 0xF0) (rest : List UInt8) (old : Nat) :
    utf8Decode (s0 :: s1 :: s2 :: s3 :: rest) srcLen old =
      some (4,((s0 &&& 0x07).toNat <<< 18) |||
        ((((s1 &&& 0x3F).toNat <<< 6) ||| (s2 &&& 0x3F).toNat) <<< 6 |||
          (s3 &&& 0x3F).toNat)) := by
  have hlong : ¬srcLen < 2 ∧ ¬srcLen < 3 ∧ ¬srcLen < 4 := by omega
  simp [utf8Decode,hlong,hmark,h1,h2,h3,hother,hother',hform]

end decoding

section text
variable {value : Nat}

/-- The form of a value is told by its first byte, whatever follows. -/
theorem utf8Decode_bytes (h : value ≤ 0x1FFFFF) (rest behind : List UInt8) (old : Nat) :
    utf8Decode (utf8Bytes value ++ rest ++ behind) (utf8Bytes value ++ rest).length old =
      some ((utf8Bytes value).length,value) := by
  have hshift : ∀ k, value >>> k = value / 2^k := Nat.shiftRight_eq_div_pow value
  have hmark := tailByte_mark
  have hbits := tailByte_bits
  unfold utf8Bytes
  simp only [List.append_assoc]
  split
  case isTrue hone =>
    obtain ⟨hfirst,hvalue⟩ := one_byte (show value < 128 by omega)
    rw [List.singleton_append,List.singleton_append,utf8Decode_one hfirst,hvalue]
    rfl
  split
  case isTrue htwo =>
    obtain ⟨hfirst,hform,hhead⟩ := first_of_two (show value >>> 6 < 32 by rw [hshift]; omega)
    refine (utf8Decode_two (by simp) hfirst (hmark _) hform _ _).trans ?_
    rw [hhead,hbits,bits_join]
    rfl
  split
  case isTrue hthree =>
    obtain ⟨hfirst,hother,hform,hhead⟩ :=
      first_of_three (show value >>> 12 < 16 by rw [hshift]; omega)
    refine (utf8Decode_three (by simp) hfirst (hmark _) (hmark _) hother hform _ _).trans ?_
    rw [hhead,hbits,hbits,tail_join,bits_join]
    rfl
  case isFalse =>
    obtain ⟨hfirst,hother,hother',hform,hhead⟩ :=
      first_of_four (show value >>> 18 < 8 by rw [hshift]; omega)
    refine (utf8Decode_four (by simp) hfirst (hmark _) (hmark _) (hmark _) hother hother' hform
      _ _).trans ?_
    have hagain : value >>> 12 = (value >>> 6) >>> 6 := (Nat.shiftRight_add value 6 6)
    rw [hhead,hbits,hbits,hbits,hagain,tail_join,tail_join,bits_join]
    rfl

theorem utf8Step_delimits (behind : List UInt8) :
    SelfDelimiting (fun value => value ≤ 0x1FFFFF) utf8Bytes (utf8Step behind) := by
  have hne : ∀ value, utf8Bytes value ≠ [] := by
    intro value
    unfold utf8Bytes
    split_ifs <;> exact List.cons_ne_nil _ _
  refine ⟨fun value _ => hne value,fun value h rest => ?_⟩
  have hlen : (utf8Bytes value).length ≠ 0 := fun hzero =>
    hne value (List.length_eq_zero_iff.mp hzero)
  rw [utf8Step,utf8Decode_bytes h,Option.bind_some,if_neg hlen]

theorem utf8Bytes_length (value : Nat) : (utf8Bytes value).length =
    if value ≤ 0x7F then 1 else if value ≤ 0x7FF then 2 else if value ≤ 0xFFFF then 3 else 4 := by
  unfold utf8Bytes
  split_ifs <;> rfl

theorem fits_iff {bufLen : Nat} : Fits value bufLen ↔
    value ≤ 0x7F ∧ 1 ≤ bufLen ∨ value ≤ 0x7FF ∧ 2 ≤ bufLen ∨ value ≤ 0xFFFF ∧ 3 ≤ bufLen ∨
      value ≤ 0x1FFFFF ∧ 4 ≤ bufLen := by
  rw [Fits,utf8Bytes_length]
  split_ifs <;> omega

/-- The tests for the length select no other form than that of the value. -/
theorem utf8Encode_fits {bufLen : Nat} (h : Fits value bufLen) (buffer : List UInt8) :
    utf8Encode buffer bufLen value =
      (put buffer 0 (utf8Bytes value)).map fun buffer => ((utf8Bytes value).length,buffer) := by
  obtain ⟨hvalue,hlen⟩ := h
  unfold utf8Encode utf8Bytes at *
  by_cases hone : value ≤ 0x7F
  · rw [if_pos hone] at hlen ⊢
    rw [if_pos ⟨hone,hlen⟩]
    rfl
  rw [if_neg hone] at hlen ⊢
  rw [if_neg (not_and_of_not_left _ hone)]
  by_cases htwo : value ≤ 0x7FF
  · rw [if_pos htwo] at hlen ⊢
    rw [if_pos ⟨htwo,hlen⟩]
    rfl
  rw [if_neg htwo] at hlen ⊢
  rw [if_neg (not_and_of_not_left _ htwo)]
  by_cases hthree : value ≤ 0xFFFF
  · rw [if_pos hthree] at hlen ⊢
    rw [if_pos ⟨hthree,hlen⟩]
    rfl
  rw [if_neg hthree] at hlen ⊢
  rw [if_neg (not_and_of_not_left _ hthree),if_pos ⟨hvalue,hlen⟩]
  rfl

theorem utf8Encode_no_room {bufLen : Nat} (h : ¬Fits value bufLen) (buffer : List UInt8) :
    utf8Encode buffer bufLen value = some (0,buffer) := by
  rw [fits_iff,not_or,not_or,not_or] at h
  rw [utf8Encode,if_neg h.1,if_neg h.2.1,if_neg h.2.2.1,if_neg h.2.2.2]

/-- The bytes go to the front of the buffer, and nothing else in memory changes. -/
theorem utf8Encode_room {room : List UInt8} (h : Fits value room.length) (behind : List UInt8) :
    utf8Encode (room ++ behind) room.length value = some ((utf8Bytes value).length,
      utf8Bytes value ++ room.drop (utf8Bytes value).length ++ behind) := by
  have hlen : (utf8Bytes value).length ≤ (room ++ behind).length := by
    rw [List.length_append]
    exact Nat.le_trans h.2 (Nat.le_add_right _ _)
  rw [utf8Encode_fits h,put_at_start hlen,List.drop_append_of_le_length h.2,List.append_assoc]
  rfl

theorem utf8Encoded_eq {buffer : List UInt8} (h : Fits value buffer.length) :
    utf8Encoded value buffer = some (utf8Bytes value) := by
  have hroom := utf8Encode_room h []
  rw [List.append_nil,List.append_nil] at hroom
  rw [utf8Encoded,hroom,Option.map_some,List.take_left]

end text

/-- Texts come back from their encodings, and an encoding stays in its buffer. -/
theorem utf8_round_trip :
    (∀ items : List (Nat × List UInt8),
      (∀ item ∈ items, item.1 ≤ 0x1FFFFF ∧ Fits item.1 item.2.length) →
      ∃ parts, items.mapM (fun item => utf8Encoded item.1 item.2) = some parts ∧
        ∀ behind fuel, items.length ≤ fuel →
          decodeAll (utf8Step behind) fuel parts.flatten = some (items.map Prod.fst)) ∧
    ∀ value room behind, ∃ n after,
      utf8Encode (room ++ behind) room.length value = some (n,after ++ behind) ∧
      after.length = room.length ∧ n ≤ room.length ∧ after.drop n = room.drop n ∧
      (¬Fits value room.length → n = 0 ∧ after = room) := by
  constructor
  · intro items hitems
    refine ⟨(items.map Prod.fst).map utf8Bytes,?_,fun behind fuel hfuel => ?_⟩
    · induction items with
      | nil => rfl
      | cons item items ih =>
        obtain ⟨hitem,hrest⟩ := List.forall_mem_cons.mp hitems
        rw [List.mapM_cons,utf8Encoded_eq hitem.2,ih hrest]
        rfl
    · have hvalid : ∀ value ∈ items.map Prod.fst, value ≤ 0x1FFFFF := by
        intro value hvalue
        obtain ⟨item,hitem,rfl⟩ := List.mem_map.mp hvalue
        exact (hitems item hitem).1
      rw [← List.flatMap_def]
      exact (utf8Step_delimits behind).decodeAll_flatMap hvalid (by rwa [List.length_map])
  · intro value room behind
    by_cases h : Fits value room.length
    · refine ⟨_,_,utf8Encode_room h behind,?_,h.2,?_,fun hnot => absurd h hnot⟩
      · rw [List.length_append,List.length_drop]
        have hlen := h.2
        omega
      · rw [List.drop_left]
    · exact ⟨0,room,utf8Encode_no_room h _,rfl,Nat.zero_le _,rfl,fun _ => ⟨rfl,rfl⟩⟩

end MprMq.Base
