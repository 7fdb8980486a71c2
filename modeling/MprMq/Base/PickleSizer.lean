import MprMq.Base.PickleImage
set_option autoImplicit false

/-! `PickleSizer`, beside the pickle that it foretells the size of. -/

namespace MprMq.Base
open Lib Lib.Buffer

structure PickleSizer where
  payloadSize : Nat

namespace PickleSizer

def new : PickleSizer := ⟨0⟩

/-- The sum and the rounded length are of type `size_t`. -/
def addBytes (length : Int32) (s : PickleSizer) : PickleSizer :=
  ⟨(s.payloadSize+align (SizeT.ofInt length.toInt) 4 % SizeT.modulus) % SizeT.modulus⟩

/-- `AddBytesStatic`; `none` is a failed check, here and below. -/
def addPOD (length : Nat) (s : PickleSizer) : Option PickleSizer :=
  if length ≤ 2^31-1 then some (s.addBytes (Int32.ofNat length)) else none

def addInt32 : PickleSizer → Option PickleSizer := addPOD 4
def addBool : PickleSizer → Option PickleSizer := addInt32
def addInt16 : PickleSizer → Option PickleSizer := addPOD 2
def addInt64 : PickleSizer → Option PickleSizer := addPOD 8
def addUInt16 : PickleSizer → Option PickleSizer := addPOD 2
def addUInt32 : PickleSizer → Option PickleSizer := addPOD 4
def addUInt64 : PickleSizer → Option PickleSizer := addPOD 8
def addFloat : PickleSizer → Option PickleSizer := addPOD 4
def addDouble : PickleSizer → Option PickleSizer := addPOD 8

def addString (value : List UInt8) (s : PickleSizer) : Option PickleSizer := do
  let s ← s.addInt32
  return s.addBytes (Int32.ofNat value.length)

def addData (length : Int32) (s : PickleSizer) : Option PickleSizer :=
  if 0 ≤ length.toInt then do
    let s ← s.addInt32
    return s.addBytes length
  else none

end PickleSizer

/-- A call of a write operation. A pointer comes as the bytes it points to, and its length apart
from them. -/
inductive WriteCall where
  | bool (v : Bool)
  | int16 (v : Int16)
  | int32 (v : Int32)
  | int64 (v : Int64)
  | uint16 (v : UInt16)
  | uint32 (v : UInt32)
  | uint64 (v : UInt64)
  | float (bits : UInt32)
  | double (bits : UInt64)
  | string (v : List UInt8)
  | data (v : List UInt8) (length : Int32)
  | bytes (v : List UInt8) (length : Int32)

def Pickle.perform (p : Pickle) : WriteCall → Option (Bool × Pickle)
  | .bool v => (p.writeBool v).map (true,·)
  | .int16 v => (p.writeInt16 v).map (true,·)
  | .int32 v => (p.writeInt32 v).map (true,·)
  | .int64 v => (p.writeInt64 v).map (true,·)
  | .uint16 v => (p.writeUInt16 v).map (true,·)
  | .uint32 v => (p.writeUInt32 v).map (true,·)
  | .uint64 v => (p.writeUInt64 v).map (true,·)
  | .float bits => (p.writeFloat bits).map (true,·)
  | .double bits => (p.writeDouble bits).map (true,·)
  | .string v => (p.writeString v).map (true,·)
  | .data v length => p.writeData v length
  | .bytes v length => (p.writeBytes v length).map (true,·)

def Pickle.performAll : List WriteCall → Pickle → Option (Bool × Pickle)
  | [], p => some (true,p)
  | call :: calls, p => do
    let (ret,p) ← p.perform call
    let (rets,p) ← performAll calls p
    return (ret && rets,p)

/-- The call of the sizer that corresponds to a write. -/
def PickleSizer.add (s : PickleSizer) : WriteCall → Option PickleSizer
  | .bool _ => s.addBool
  | .int16 _ => s.addInt16
  | .int32 _ => s.addInt32
  | .int64 _ => s.addInt64
  | .uint16 _ => s.addUInt16
  | .uint32 _ => s.addUInt32
  | .uint64 _ => s.addUInt64
  | .float _ => s.addFloat
  | .double _ => s.addDouble
  | .string v => s.addString v
  | .data _ length => s.addData length
  | .bytes _ length => some (s.addBytes length)

def PickleSizer.addAll : List WriteCall → PickleSizer → Option PickleSizer
  | [], s => some s
  | call :: calls, s => (s.add call).bind (addAll calls)

def Pickle.payloadSize (p : Pickle) : Option Nat :=
  match p.header with
  | none => some 0
  | some block => payloadSizeAt block

structure Sized (p : Pickle) (n : Nat) : Prop where
  headerSize : 4 ≤ p.headerSize
  writeOffset : p.writeOffset = n
  payloadSize : p.payloadSize = some n
  small : n < 2^32

theorem store_block {p p' : Pickle} {pos : Nat} {data : List UInt8}
    (h : Pickle.store pos data p = some p') : ∃ block block', p.header = some block ∧
      put block pos (data.map some) = some block' ∧ p' = { p with header := some block' } := by
  obtain ⟨block,hblock,h⟩ := Option.bind_eq_some_iff.mp h
  obtain ⟨block',hput,h⟩ := Option.bind_eq_some_iff.mp h
  cases h
  exact ⟨block,block',hblock,hput,rfl⟩

theorem claim_some {p : Pickle} {length dataLen : Nat} (h : p.claim length = some dataLen) :
    dataLen = align length 4 ∧ p.writeOffset+align length 4 < 2^32 := by
  have hmax : uint32Max = 2^32-1 := rfl
  rw [Pickle.claim,Option.ite_none_right_eq_some] at h
  cases h.2
  exact ⟨rfl,by omega⟩

namespace Sized
variable {p p' : Pickle} {n length : Nat} {data : List UInt8}

theorem writeBytesCommon (h : Sized p n) (hp' : p.writeBytesCommon data length = some p') :
    Sized p' (n+align length 4) := by
  have hheader := writeBytesCommon_headerSize data length p p' hp'
  have hfour := h.headerSize
  rw [Pickle.writeBytesCommon,Option.ite_none_left_eq_some] at hp'
  obtain ⟨⟨mid,write⟩,hclaim,hp'⟩ := Option.bind_eq_some_iff.mp hp'.2
  obtain ⟨bytes,-,hstore⟩ := Option.bind_eq_some_iff.mp hp'
  rw [Pickle.claimUninitializedBytesInternal,Option.ite_none_left_eq_some] at hclaim
  obtain ⟨dataLen,hdata,hclaim⟩ := Option.bind_eq_some_iff.mp hclaim.2
  obtain ⟨grown,hgrown,hclaim⟩ := Option.bind_eq_some_iff.mp hclaim
  obtain ⟨zeroed,-,hclaim⟩ := Option.bind_eq_some_iff.mp hclaim
  obtain ⟨sized,hsized,hclaim⟩ := Option.bind_eq_some_iff.mp hclaim
  cases hclaim
  obtain ⟨rfl,hsmall⟩ := claim_some hdata
  have hgrownHeader := grow_headerSize _ _ _ hgrown
  obtain ⟨block₀,block,-,hput,rfl⟩ := store_block hsized
  obtain ⟨block₁,block₂,hblock,hput',rfl⟩ := store_block hstore
  cases hblock
  rw [h.writeOffset] at hsmall hput ⊢
  have hsize := get_put hput
  rw [List.length_map,length_leBytes] at hsize
  have hkept : get block₂ 0 4 = get block 0 4 := get_put_before hput' (by omega)
  exact ⟨Nat.le_trans hfour (Nat.le_of_eq hheader.symm),rfl,
    payloadSizeAt_eq hsmall (hkept.trans hsize),hsmall⟩

theorem of_fresh (h : Fresh p) : Sized p 0 := by
  have hholds := h.holds
  obtain ⟨block,hblock,-,hsize,-⟩ := hholds.block
  refine ⟨hholds.headerSize,hholds.writeOffset,?_,by decide⟩
  rw [Pickle.payloadSize,hblock]
  exact payloadSizeAt_eq (by decide) hsize

end Sized

/-- The two agree after the call, and the sizer refuses what the pickle returns false for. -/
def Foretold (n : Nat) (ret : Bool) (p' : Pickle) (s' : Option PickleSizer) : Prop :=
  if ret then ∃ n', s' = some ⟨n'⟩ ∧ Sized p' n' else s' = none ∧ Sized p' n

section sizer
variable {p p' : Pickle} {n : Nat} {ret : Bool}

theorem addBytes_eq {length : Int32} (hsmall : n+align (SizeT.ofInt length.toInt) 4 < 2^32) :
    PickleSizer.addBytes length ⟨n⟩ = ⟨n+align (SizeT.ofInt length.toInt) 4⟩ := by
  have hmodulus : SizeT.modulus = 2^64 := rfl
  rw [PickleSizer.addBytes,Nat.mod_eq_of_lt (show align _ 4 < SizeT.modulus by omega),
    Nat.mod_eq_of_lt (by dsimp; omega)]

theorem Sized.writePOD (h : Sized p n) {bytes : List UInt8} (hlength : bytes.length ≤ 8)
    (hp' : p.writePOD bytes = some p') :
    ∃ n', PickleSizer.addPOD bytes.length ⟨n⟩ = some ⟨n'⟩ ∧ Sized p' n' := by
  have hsized := h.writeBytesCommon hp'
  have hint : (Int32.ofNat bytes.length).toInt = bytes.length :=
    Int32.toInt_ofNat_of_lt (by omega)
  have hsize : SizeT.ofInt (Int32.ofNat bytes.length).toInt = bytes.length := by
    have heq := SizeT.ofInt_eq (n := (Int32.ofNat bytes.length).toInt) (by omega) (by omega)
    omega
  refine ⟨_,?_,hsized⟩
  rw [PickleSizer.addPOD,if_pos (by omega),addBytes_eq (by rw [hsize]; exact hsized.small),hsize]

theorem Sized.writeBytes (h : Sized p n) {bytes : List UInt8} {length : Int32}
    (hp' : p.writeBytes bytes length = some p') :
    ∃ n', PickleSizer.addBytes length ⟨n⟩ = ⟨n'⟩ ∧ Sized p' n' := by
  have hsized := h.writeBytesCommon hp'
  exact ⟨_,addBytes_eq hsized.small,hsized⟩

theorem Sized.writeInt32 (h : Sized p n) {v : Int32} (hp' : p.writeInt32 v = some p') :
    ∃ n', PickleSizer.addInt32 ⟨n⟩ = some ⟨n'⟩ ∧ Sized p' n' := by
  have hpod := h.writePOD (by rw [length_leBytes]; decide) hp'
  rwa [length_leBytes] at hpod

theorem Sized.number (h : Sized p n) {bytes : List UInt8} (hlength : bytes.length ≤ 8)
    (hp' : (p.writePOD bytes).map (true,·) = some (ret,p')) :
    Foretold n ret p' (PickleSizer.addPOD bytes.length ⟨n⟩) := by
  obtain ⟨p'',hwrite,heq⟩ := Option.map_eq_some_iff.mp hp'
  cases heq
  exact h.writePOD hlength hwrite

theorem Sized.perform (h : Sized p n) (call : WriteCall)
    (hp' : p.perform call = some (ret,p')) : Foretold n ret p' (PickleSizer.add ⟨n⟩ call) := by
  have hle (k v : Nat) (hk : k ≤ 8) : (leBytes k v).length ≤ 8 := by rwa [length_leBytes]
  have hnumber (k v : Nat) (hk : k ≤ 8)
      (hp' : (p.writePOD (leBytes k v)).map (true,·) = some (ret,p')) :
      Foretold n ret p' (PickleSizer.addPOD k ⟨n⟩) := by
    have hall := h.number (hle k v hk) hp'
    rwa [length_leBytes] at hall
  cases call with
  | string v =>
    obtain ⟨p'',hwrite,heq⟩ := Option.map_eq_some_iff.mp hp'
    cases heq
    obtain ⟨mid,hmid,hlast⟩ := Option.bind_eq_some_iff.mp hwrite
    obtain ⟨n₁,hn₁,h₁⟩ := h.writeInt32 hmid
    obtain ⟨n₂,hn₂,h₂⟩ := h₁.writeBytes hlast
    refine ⟨n₂,?_,h₂⟩
    rw [PickleSizer.add,PickleSizer.addString,hn₁]
    exact congrArg some hn₂
  | data v length =>
    change p.writeData v length = some (ret,p') at hp'
    unfold Pickle.writeData at hp'
    rw [PickleSizer.add,PickleSizer.addData]
    split at hp'
    case isTrue hnegative =>
      cases hp'
      exact ⟨if_neg (by omega),h⟩
    case isFalse hlength =>
      obtain ⟨mid,hmid,hp'⟩ := Option.bind_eq_some_iff.mp hp'
      obtain ⟨last,hlast,hp'⟩ := Option.bind_eq_some_iff.mp hp'
      cases hp'
      obtain ⟨n₁,hn₁,h₁⟩ := h.writeInt32 hmid
      obtain ⟨n₂,hn₂,h₂⟩ := h₁.writeBytes hlast
      refine ⟨n₂,?_,h₂⟩
      rw [if_pos (by omega),hn₁]
      exact congrArg some hn₂
  | bytes v length =>
    obtain ⟨p'',hwrite,heq⟩ := Option.map_eq_some_iff.mp hp'
    cases heq
    obtain ⟨n₁,hn₁,h₁⟩ := h.writeBytes hwrite
    exact ⟨n₁,congrArg some hn₁,h₁⟩
  | bool v => exact hnumber 4 _ (by decide) hp'
  | int16 v => exact hnumber 2 _ (by decide) hp'
  | int32 v => exact hnumber 4 _ (by decide) hp'
  | int64 v => exact hnumber 8 _ (by decide) hp'
  | uint16 v => exact hnumber 2 _ (by decide) hp'
  | uint32 v => exact hnumber 4 _ (by decide) hp'
  | uint64 v => exact hnumber 8 _ (by decide) hp'
  | float bits => exact hnumber 4 _ (by decide) hp'
  | double bits => exact hnumber 8 _ (by decide) hp'

/-- A whole sequence: the sizer refuses one of its calls exactly when a write returns false. -/
theorem Sized.performAll (h : Sized p n) (calls : List WriteCall)
    (hp' : p.performAll calls = some (ret,p')) :
    if ret then ∃ n', PickleSizer.addAll calls ⟨n⟩ = some ⟨n'⟩ ∧ Sized p' n'
      else PickleSizer.addAll calls ⟨n⟩ = none := by
  induction calls generalizing p n ret with
  | nil =>
    cases hp'
    exact ⟨n,rfl,h⟩
  | cons call calls ih =>
    obtain ⟨⟨first,mid⟩,hmid,hp'⟩ := Option.bind_eq_some_iff.mp hp'
    obtain ⟨⟨rets,last⟩,hlast,hp'⟩ := Option.bind_eq_some_iff.mp hp'
    cases hp'
    have hfirst := h.perform call hmid
    rw [PickleSizer.addAll]
    cases first with
    | false =>
      rw [hfirst.1]
      exact rfl
    | true =>
      obtain ⟨n',hn',hsized⟩ := hfirst
      rw [hn',Option.bind_some]
      exact ih hsized hlast

end sizer

/-- The sizer reports the size of the payload, for every sequence whose calls return true; and it
fails its check where one of them returns false. -/
theorem sizer_foretells (start p : Pickle) (calls : List WriteCall) (ret : Bool)
    (hstart : Fresh start) (hp : start.performAll calls = some (ret,p)) :
    (ret = true → ∃ s, PickleSizer.new.addAll calls = some s ∧
      p.payloadSize = some s.payloadSize) ∧
    (ret = false → PickleSizer.new.addAll calls = none) := by
  have hall := (Sized.of_fresh hstart).performAll calls hp
  constructor
  · rintro rfl
    obtain ⟨n,hn,hsized⟩ := hall
    exact ⟨⟨n⟩,hn,hsized.payloadSize⟩
  · rintro rfl
    exact hall

theorem sizer_foretells_mixed : ∃ start p, Fresh start ∧
    start.performAll [.string [104,105],.data [1,2,3,4,5] 5,.bool true] = some (true,p) ∧
    ((true = true → ∃ s,
      PickleSizer.new.addAll [.string [104,105],.data [1,2,3,4,5] 5,.bool true] = some s ∧
        p.payloadSize = some s.payloadSize) ∧
    (true = false →
      PickleSizer.new.addAll [.string [104,105],.data [1,2,3,4,5] 5,.bool true] = none)) := by
  refine ⟨_,_,.inl rfl,rfl,?_⟩
  exact sizer_foretells _ _ _ true (.inl rfl) rfl

end MprMq.Base
