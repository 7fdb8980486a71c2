import MprMq.Base.Pickle
set_option autoImplicit false

/-! `PickleIterator`, and that no data make it read outside them. -/

namespace MprMq.Base
open Lib

/-- Bytes of the block that a read copies or hands out. -/
structure ByteRange where
  start : Nat
  length : Nat
  deriving DecidableEq

/-- `payload` is a position in the block, `none` where it is NULL. -/
structure PickleIterator where
  memory : List Cell
  payload : Option Nat
  readIndex : Nat
  endIndex : Nat

namespace PickleIterator

def ofPickle (p : Pickle) : Option PickleIterator :=
  match p.header with
  | none => some ⟨[],none,0,0⟩
  | some block => (payloadSizeAt block).map fun size => ⟨block,some p.headerSize,0,size⟩

def left (it : PickleIterator) : Nat := SizeT.sub it.endIndex it.readIndex

def toEnd (it : PickleIterator) : PickleIterator := { it with readIndex := it.endIndex }

def advance (size : Nat) (it : PickleIterator) : PickleIterator :=
  let alignedSize := align size 4
  if it.left < alignedSize then it.toEnd
  else { it with readIndex := it.readIndex+alignedSize }

/-- A position and the iterator behind it; there is none in NULL. -/
def take (size : Nat) (it : PickleIterator) : Option ByteRange × PickleIterator :=
  (it.payload.map fun payload => ⟨payload+it.readIndex,size⟩,it.advance size)

def getTypeAndAdvance (size : Nat) (it : PickleIterator) : Option ByteRange × PickleIterator :=
  if it.left < size then (none,it.toEnd) else it.take size

def getReadPointerAndAdvance (numBytes : Int32) (it : PickleIterator) :
    Option ByteRange × PickleIterator :=
  if numBytes.toInt < 0 ∨ it.left < SizeT.ofInt numBytes.toInt then (none,it.toEnd)
  else it.take (SizeT.ofInt numBytes.toInt)

/-- The number and where it stands. The outer `none` is a read of memory outside the block or
never written, the inner one the result false. -/
def readInt32 (it : PickleIterator) : Option (Option (Int32 × ByteRange) × PickleIterator) :=
  match it.getTypeAndAdvance 4 with
  | (none,rest) => some (none,rest)
  | (some field,rest) => (load it.memory field.start field.length).map fun bytes =>
      (some (Int32.ofNat (leValue bytes),field),rest)

end PickleIterator

inductive ReadKind where
  | bool
  | int16
  | int32
  | int64
  | uint16
  | uint32
  | uint64
  | float
  | double
  | length
  | string
  | stringPiece
  | data
  | bytes (length : Int32)
  | skipBytes (numBytes : Int32)
  deriving DecidableEq

namespace PickleIterator

/-- The ranges of a read, the one with the value last; `none` where it returns false. -/
abbrev Got := Option (List ByteRange)

def readSized (it : PickleIterator) : Option (Got × PickleIterator) :=
  it.readInt32.map fun
    | (none,rest) => (none,rest)
    | (some (length,field),rest) =>
      let (range,last) := rest.getReadPointerAndAdvance length
      (range.map fun range => [field,range],last)

def readBuiltinType (size : Nat) (it : PickleIterator) : Option (Got × PickleIterator) :=
  let (range,rest) := it.getTypeAndAdvance size
  some (range.map fun range => [range],rest)

def readBytes (length : Int32) (it : PickleIterator) : Option (Got × PickleIterator) :=
  let (range,rest) := it.getReadPointerAndAdvance length
  some (range.map fun range => [range],rest)

def readLength (it : PickleIterator) : Option (Got × PickleIterator) :=
  it.readInt32.map fun
    | (none,rest) => (none,rest)
    | (some (length,field),rest) => (if 0 ≤ length.toInt then some [field] else none,rest)

def read (it : PickleIterator) : ReadKind → Option (Got × PickleIterator)
  | .bool => it.readBuiltinType 1
  | .int16 => it.readBuiltinType 2
  | .int32 => it.readBuiltinType 4
  | .int64 => it.readBuiltinType 8
  | .uint16 => it.readBuiltinType 2
  | .uint32 => it.readBuiltinType 4
  | .uint64 => it.readBuiltinType 8
  | .float => it.readBuiltinType 4
  | .double => it.readBuiltinType 8
  | .length => it.readLength
  | .string => it.readSized
  | .stringPiece => it.readSized
  | .data => it.readSized
  | .bytes length => it.readBytes length
  | .skipBytes numBytes => it.readBytes numBytes

def lengthField (it : PickleIterator) : ReadKind → Option (Int32 × PickleIterator)
  | .string | .stringPiece | .data =>
    match it.readInt32 with
    | some (some (length,_),rest) => some (length,rest)
    | _ => none
  | .bytes length => some (length,it)
  | .skipBytes numBytes => some (numBytes,it)
  | _ => none

end PickleIterator

theorem align_spec (size : Nat) : size ≤ align size 4 ∧ align size 4 < size+4 ∧
    align size 4 % 4 = 0 := by
  unfold align
  omega

structure After (it rest : PickleIterator) : Prop where
  memory : rest.memory = it.memory
  payload : rest.payload = it.payload
  endIndex : rest.endIndex = it.endIndex
  forward : it.readIndex ≤ rest.readIndex
  index : rest.readIndex ≤ rest.endIndex

theorem After.trans {it mid rest : PickleIterator} (h : After it mid) (h' : After mid rest) :
    After it rest :=
  ⟨h'.memory.trans h.memory,h'.payload.trans h.payload,h'.endIndex.trans h.endIndex,
    Nat.le_trans h.forward h'.forward,h'.index⟩

structure Within (n : Nat) (it : PickleIterator) : Prop where
  index : it.readIndex ≤ it.endIndex
  inside : ∀ base, it.payload = some base → base+it.endIndex ≤ n
  written : ∀ base, it.payload = some base → ∀ start length, start+length ≤ n →
    ∃ bytes, load it.memory start length = some bytes

def ByteRange.Inside (n : Nat) (range : ByteRange) : Prop := range.start+range.length ≤ n

namespace Within
variable {n : Nat} {it rest : PickleIterator}

theorem after (h : Within n it) (hafter : After it rest) : Within n rest := by
  refine ⟨hafter.index,?_,?_⟩
  · rw [hafter.payload,hafter.endIndex]
    exact h.inside
  · rw [hafter.payload,hafter.memory]
    exact h.written

theorem left_eq (h : Within n it) : it.left = it.endIndex-it.readIndex := by
  have hindex := h.index
  rw [PickleIterator.left,SizeT.sub,if_neg (by omega)]

theorem toEnd_after (h : Within n it) : After it it.toEnd :=
  ⟨rfl,rfl,rfl,h.index,Nat.le_refl _⟩

theorem advance_after (h : Within n it) (size : Nat) : After it (it.advance size) := by
  have hindex := h.index
  have hleft := h.left_eq
  unfold PickleIterator.advance
  dsimp only
  split
  · exact h.toEnd_after
  · exact ⟨rfl,rfl,rfl,by dsimp; omega,by dsimp; omega⟩

theorem take_inside (h : Within n it) {size : Nat} (hsize : size ≤ it.left) {range : ByteRange}
    (hrange : (it.take size).1 = some range) : range.Inside n := by
  have hindex := h.index
  rw [h.left_eq] at hsize
  obtain ⟨base,hbase,rfl⟩ := Option.map_eq_some_iff.mp hrange
  have hinside := h.inside base hbase
  unfold ByteRange.Inside
  dsimp only
  omega

theorem getType_after (h : Within n it) (size : Nat) : After it (it.getTypeAndAdvance size).2 := by
  unfold PickleIterator.getTypeAndAdvance
  split
  · exact h.toEnd_after
  · exact h.advance_after size

theorem getType_inside (h : Within n it) {size : Nat} {range : ByteRange}
    (hrange : (it.getTypeAndAdvance size).1 = some range) :
    range.Inside n ∧ ∃ base, it.payload = some base := by
  unfold PickleIterator.getTypeAndAdvance at hrange
  split at hrange
  · cases hrange
  · obtain ⟨base,hbase,-⟩ := Option.map_eq_some_iff.mp hrange
    exact ⟨h.take_inside (by omega) hrange,base,hbase⟩

theorem getRead_after (h : Within n it) (numBytes : Int32) :
    After it (it.getReadPointerAndAdvance numBytes).2 := by
  unfold PickleIterator.getReadPointerAndAdvance
  split
  · exact h.toEnd_after
  · exact h.advance_after _

theorem getRead_inside (h : Within n it) {numBytes : Int32} {range : ByteRange}
    (hrange : (it.getReadPointerAndAdvance numBytes).1 = some range) : range.Inside n := by
  unfold PickleIterator.getReadPointerAndAdvance at hrange
  split at hrange
  · cases hrange
  · exact h.take_inside (by omega) hrange

theorem getRead_refuses (h : Within n it) {numBytes : Int32} (hlength : numBytes.toInt < 0 ∨
    ((it.endIndex-it.readIndex : Nat) : Int) < numBytes.toInt) :
    (it.getReadPointerAndAdvance numBytes).1 = none := by
  have hhigh := numBytes.toInt_lt
  have hleft := h.left_eq
  have hrefuse : numBytes.toInt < 0 ∨ it.left < SizeT.ofInt numBytes.toInt := by
    rcases hlength with hneg | hlong
    · exact .inl hneg
    · by_cases hneg : numBytes.toInt < 0
      · exact .inl hneg
      · have hsize := SizeT.ofInt_eq (n := numBytes.toInt) (by omega) (by omega)
        exact .inr (by omega)
  rw [PickleIterator.getReadPointerAndAdvance,if_pos hrefuse]

theorem readInt32_eq (h : Within n it) : ∃ got rest, it.readInt32 = some (got,rest) ∧
    After it rest ∧ ∀ length field, got = some (length,field) → field.Inside n := by
  have hafter := h.getType_after 4
  have hinside : ∀ range, (it.getTypeAndAdvance 4).1 = some range → range.Inside n ∧
      ∃ base, it.payload = some base := fun range hrange => h.getType_inside hrange
  unfold PickleIterator.readInt32
  revert hafter hinside
  rcases it.getTypeAndAdvance 4 with ⟨_ | field,rest⟩
  · intro hafter _
    exact ⟨none,rest,rfl,hafter,fun _ _ heq => by cases heq⟩
  · intro hafter hinside
    obtain ⟨hfield,base,hbase⟩ := hinside field rfl
    obtain ⟨bytes,hload⟩ := h.written base hbase field.start field.length hfield
    refine ⟨some (Int32.ofNat (leValue bytes),field),rest,?_,hafter,?_⟩
    · simp only [hload,Option.map_some]
    · intro length field' heq
      cases heq
      exact hfield

end Within

structure SafeRead (n : Nat) (it : PickleIterator) (kind : ReadKind) (got : PickleIterator.Got)
    (rest : PickleIterator) : Prop where
  inside : ∀ ranges, got = some ranges → ∀ range ∈ ranges, range.Inside n
  after : After it rest
  length : ∀ length field, it.lengthField kind = some (length,field) → (length.toInt < 0 ∨
    ((field.endIndex-field.readIndex : Nat) : Int) < length.toInt) → got = none

theorem SafeRead.failed {n : Nat} {it rest : PickleIterator} {kind : ReadKind}
    (hafter : After it rest) : SafeRead n it kind none rest where
  inside := nofun
  after := hafter
  length _ _ _ _ := rfl

theorem Within.readBuiltinType {n : Nat} {it : PickleIterator} (h : Within n it) (size : Nat)
    {kind : ReadKind} (hkind : it.lengthField kind = none) :
    ∃ got rest, it.readBuiltinType size = some (got,rest) ∧ SafeRead n it kind got rest := by
  refine ⟨(it.getTypeAndAdvance size).1.map fun range => [range],(it.getTypeAndAdvance size).2,
    rfl,⟨?_,h.getType_after size,?_⟩⟩
  · intro ranges hranges range hmem
    obtain ⟨range',hrange,rfl⟩ := Option.map_eq_some_iff.mp hranges
    cases List.mem_singleton.mp hmem
    exact (h.getType_inside hrange).1
  · intro length field hfield
    rw [hkind] at hfield
    cases hfield

theorem Within.readBytes {n : Nat} {it : PickleIterator} (h : Within n it) (length : Int32)
    {kind : ReadKind} (hkind : it.lengthField kind = some (length,it)) :
    ∃ got rest, it.readBytes length = some (got,rest) ∧ SafeRead n it kind got rest := by
  refine ⟨(it.getReadPointerAndAdvance length).1.map fun range => [range],
    (it.getReadPointerAndAdvance length).2,rfl,⟨?_,h.getRead_after length,?_⟩⟩
  · intro ranges hranges range hmem
    obtain ⟨range',hrange,rfl⟩ := Option.map_eq_some_iff.mp hranges
    cases List.mem_singleton.mp hmem
    exact h.getRead_inside hrange
  · intro length' field hfield hbad
    rw [hkind] at hfield
    cases hfield
    rw [h.getRead_refuses hbad]
    rfl

theorem Within.readSized {n : Nat} {it : PickleIterator} (h : Within n it) {kind : ReadKind}
    (hkind : it.lengthField kind = it.lengthField .string) :
    ∃ got rest, it.readSized = some (got,rest) ∧ SafeRead n it kind got rest := by
  obtain ⟨got,rest,hread,hafter,hinside⟩ := h.readInt32_eq
  have hfield : it.lengthField kind = got.map fun (length,_) => (length,rest) := by
    rw [hkind]
    simp only [PickleIterator.lengthField,hread]
    cases got <;> rfl
  rw [PickleIterator.readSized,hread]
  cases got with
  | none => exact ⟨none,rest,rfl,.failed hafter⟩
  | some found =>
    obtain ⟨length,field⟩ := found
    have hrest : Within n rest := h.after hafter
    refine ⟨(rest.getReadPointerAndAdvance length).1.map fun range => [field,range],
      (rest.getReadPointerAndAdvance length).2,rfl,
      ⟨?_,hafter.trans (hrest.getRead_after length),?_⟩⟩
    · intro ranges hranges range hmem
      obtain ⟨range',hrange,rfl⟩ := Option.map_eq_some_iff.mp hranges
      rcases List.mem_cons.mp hmem with rfl | hmem
      · exact hinside length range rfl
      · cases List.mem_singleton.mp hmem
        exact hrest.getRead_inside hrange
    · intro length' field' hlength hbad
      rw [hfield] at hlength
      cases hlength
      rw [hrest.getRead_refuses hbad]
      rfl

theorem Within.readLength {n : Nat} {it : PickleIterator} (h : Within n it) :
    ∃ got rest, it.readLength = some (got,rest) ∧ SafeRead n it .length got rest := by
  obtain ⟨got,rest,hread,hafter,hinside⟩ := h.readInt32_eq
  rw [PickleIterator.readLength,hread]
  cases got with
  | none => exact ⟨none,rest,rfl,.failed hafter⟩
  | some found =>
    obtain ⟨length,field⟩ := found
    refine ⟨if 0 ≤ length.toInt then some [field] else none,rest,rfl,⟨?_,hafter,?_⟩⟩
    · intro ranges hranges range hmem
      split at hranges
      · cases hranges
        cases List.mem_singleton.mp hmem
        exact hinside length field rfl
      · cases hranges
    · intro length field hlength
      cases hlength

theorem Within.read {n : Nat} {it : PickleIterator} (h : Within n it) (kind : ReadKind) :
    ∃ got rest, it.read kind = some (got,rest) ∧ SafeRead n it kind got rest := by
  cases kind with
  | bool => exact h.readBuiltinType 1 rfl
  | int16 => exact h.readBuiltinType 2 rfl
  | int32 => exact h.readBuiltinType 4 rfl
  | int64 => exact h.readBuiltinType 8 rfl
  | uint16 => exact h.readBuiltinType 2 rfl
  | uint32 => exact h.readBuiltinType 4 rfl
  | uint64 => exact h.readBuiltinType 8 rfl
  | float => exact h.readBuiltinType 4 rfl
  | double => exact h.readBuiltinType 8 rfl
  | length => exact h.readLength
  | string => exact h.readSized rfl
  | stringPiece => exact h.readSized rfl
  | data => exact h.readSized rfl
  | bytes length => exact h.readBytes length rfl
  | skipBytes numBytes => exact h.readBytes numBytes rfl

def PickleIterator.Throughout
    (R : PickleIterator → ReadKind → PickleIterator.Got → PickleIterator → Prop) :
    PickleIterator → List ReadKind → Prop
  | _, [] => True
  | it, kind :: kinds => ∃ got rest, it.read kind = some (got,rest) ∧ R it kind got rest ∧
      PickleIterator.Throughout R rest kinds

theorem Within.throughout {n : Nat} {it : PickleIterator} (h : Within n it)
    (kinds : List ReadKind) : it.Throughout (SafeRead n) kinds := by
  induction kinds generalizing it with
  | nil => trivial
  | cons kind kinds ih =>
    obtain ⟨got,rest,hread,hsafe⟩ := h.read kind
    exact ⟨got,rest,hread,hsafe,ih (h.after hsafe.after)⟩

theorem load_eq {memory : List Cell} {start length : Nat} {bytes : List UInt8}
    (h : Buffer.get memory start length = some (bytes.map some)) :
    load memory start length = some bytes := by
  have hmap (l : List UInt8) : (l.map some).mapM id = some l := by
    induction l with
    | nil => rfl
    | cons b l ih => simp [List.mapM_cons,ih]
  rw [load,h,Option.bind_some,hmap]

theorem load_written {data : List UInt8} {start length : Nat} (h : start+length ≤ data.length) :
    load (data.map some) start length = some ((data.drop start).take length) := by
  apply load_eq
  rw [Buffer.get,if_pos (by rwa [List.length_map]),← List.map_drop,← List.map_take]

theorem dataHeaderSize_eq {dataLen : Int32} {size : Nat} (hlen : 0 ≤ dataLen.toInt)
    (hsize : size < 2^32) (h : Pickle.dataHeaderSize dataLen size ≠ 0) :
    ((Pickle.dataHeaderSize dataLen size+size : Nat) : Int) = dataLen.toInt := by
  have hhigh := dataLen.toInt_lt
  unfold Pickle.dataHeaderSize at h ⊢
  dsimp only at h ⊢
  by_cases hwrap : (dataLen.toInt % 2^32).toNat < ((dataLen.toInt-size) % 2^32).toNat
  · rw [if_pos hwrap] at h
    exact absurd rfl h
  · rw [if_neg hwrap] at h ⊢
    split at h
    · exact absurd rfl h
    · rw [if_neg ‹_›]
      omega

/-- The header and the payload of data fill them, or there is no header. -/
theorem ofData_cases (data : List UInt8) (dataLen : Int32) (h : dataLen.toInt ≤ data.length) :
    ∃ p, Pickle.ofData (data.map some) dataLen = some p ∧ (p.header = none ∨
      ∃ size, p.header = some (data.map some) ∧ payloadSizeAt (data.map some) = some size ∧
        ((p.headerSize+size : Nat) : Int) = dataLen.toInt) := by
  by_cases hfour : 4 ≤ dataLen.toInt
  · have hload : load (data.map some) 0 4 = some ((data.drop 0).take 4) :=
      load_written (by omega)
    have hsize : payloadSizeAt (data.map some) = some (leValue (data.take 4)) := by
      rw [payloadSizeAt,hload]
      rfl
    have hbound : leValue (data.take 4) < 2^32 := by
      have := leValue_lt (data.take 4)
      rwa [List.length_take,Nat.min_eq_left (by omega)] at this
    simp only [Pickle.ofData,if_pos hfour,hsize,Option.map_some,Option.bind_eq_bind,
      Option.bind_some]
    refine ⟨_,rfl,?_⟩
    by_cases hzero : Pickle.dataHeaderSize dataLen (leValue (data.take 4)) = 0
    · exact .inl (if_pos hzero)
    · exact .inr ⟨_,if_neg hzero,rfl,dataHeaderSize_eq (by omega) hbound hzero⟩
  · exact ⟨_,by simp only [Pickle.ofData,if_neg hfour,Option.bind_eq_bind,Option.bind_some]; rfl,
      .inl rfl⟩

theorem ofData_within (data : List UInt8) (dataLen : Int32) (h : dataLen.toInt ≤ data.length) :
    ∃ p it, Pickle.ofData (data.map some) dataLen = some p ∧
      PickleIterator.ofPickle p = some it ∧ Within dataLen.toInt.toNat it := by
  obtain ⟨p,hp,hnone | ⟨size,hheader,hsize,hsum⟩⟩ := ofData_cases data dataLen h
  · refine ⟨p,⟨[],none,0,0⟩,hp,by simp only [PickleIterator.ofPickle,hnone],Nat.le_refl _,?_,?_⟩
    · intro base hbase
      cases hbase
    · intro base hbase
      cases hbase
  · refine ⟨p,⟨data.map some,some p.headerSize,0,size⟩,hp,?_,Nat.zero_le _,?_,?_⟩
    · simp only [PickleIterator.ofPickle,hheader,hsize,Option.map_some]
    · intro base hbase
      cases hbase
      dsimp only
      omega
    · intro base _ start length hle
      exact ⟨_,load_written (by omega)⟩

/-- Whatever the data, every sequence of reads stays inside them and only moves forward. -/
theorem pickle_reads_inside (data : List UInt8) (dataLen : Int32)
    (h : dataLen.toInt ≤ data.length) (kinds : List ReadKind) :
    ∃ p it, Pickle.ofData (data.map some) dataLen = some p ∧
      PickleIterator.ofPickle p = some it ∧ it.Throughout (SafeRead dataLen.toInt.toNat) kinds := by
  obtain ⟨p,it,hp,hit,hwithin⟩ := ofData_within data dataLen h
  exact ⟨p,it,hp,hit,hwithin.throughout kinds⟩

theorem short_length_read_inside :
    ∃ p it, Pickle.ofData ([4,0,0,0,0xFE,0xFF,0xFF,0xFF].map some) 8 = some p ∧
      PickleIterator.ofPickle p = some it ∧
      it.Throughout (SafeRead 8) [.string,.bytes 3,.skipBytes (-1)] :=
  pickle_reads_inside [4,0,0,0,0xFE,0xFF,0xFF,0xFF] 8 (by decide)
    [.string,.bytes 3,.skipBytes (-1)]

end MprMq.Base
