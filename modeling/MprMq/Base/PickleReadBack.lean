import MprMq.Base.PickleRoundTrip
set_option autoImplicit false

/-! What is written to a pickle is read back, from it and from its copies. -/

namespace MprMq.Base
open Lib Lib.Buffer

def ReadKind.decode (bytes : List UInt8) : ReadKind → PickleValue
  | .bool => .bool (leValue bytes = 1)
  | .int16 => .int16 (Int16.ofNat (leValue bytes))
  | .int32 => .int32 (Int32.ofNat (leValue bytes))
  | .int64 => .int64 (Int64.ofNat (leValue bytes))
  | .uint16 => .uint16 (UInt16.ofNat (leValue bytes))
  | .uint32 => .uint32 (UInt32.ofNat (leValue bytes))
  | .uint64 => .uint64 (UInt64.ofNat (leValue bytes))
  | .float => .float (UInt32.ofNat (leValue bytes))
  | .double => .double (UInt64.ofNat (leValue bytes))
  | .length => .int32 (Int32.ofNat (leValue bytes))
  | .string => .string bytes
  | .stringPiece => .string bytes
  | .data => .data bytes
  | .bytes _ => .bytes bytes
  | .skipBytes _ => .bytes bytes

def PickleIterator.value (it : PickleIterator) (kind : ReadKind) (ranges : List ByteRange) :
    Option PickleValue :=
  ranges.getLast?.bind fun range => (load it.memory range.start range.length).map fun bytes =>
    kind.decode bytes

inductive Matches : PickleValue → ReadKind → Prop where
  | bool (v : Bool) : Matches (.bool v) .bool
  | int16 (v : Int16) : Matches (.int16 v) .int16
  | int32 (v : Int32) : Matches (.int32 v) .int32
  | int64 (v : Int64) : Matches (.int64 v) .int64
  | uint16 (v : UInt16) : Matches (.uint16 v) .uint16
  | uint32 (v : UInt32) : Matches (.uint32 v) .uint32
  | uint64 (v : UInt64) : Matches (.uint64 v) .uint64
  | float (bits : UInt32) : Matches (.float bits) .float
  | double (bits : UInt64) : Matches (.double bits) .double
  | string (v : List UInt8) : Matches (.string v) .string
  | stringPiece (v : List UInt8) : Matches (.string v) .stringPiece
  | data (v : List UInt8) : Matches (.data v) .data
  | bytes (v : List UInt8) : Matches (.bytes v) (.bytes (Int32.ofNat v.length))

def PickleIterator.readValues :
    List ReadKind → PickleIterator → Option (List PickleValue × PickleIterator)
  | [], it => some ([],it)
  | kind :: kinds, it => do
    let (got,rest) ← it.read kind
    let v ← it.value kind (← got)
    let (values,last) ← rest.readValues kinds
    return (v :: values,last)

structure Ahead (it : PickleIterator) (bytes : List UInt8) : Prop where
  endIndex : it.endIndex = it.readIndex+bytes.length
  bytes : ∃ base, it.payload = some base ∧
    get it.memory (base+it.readIndex) bytes.length = some (bytes.map some)

def Gives (it : PickleIterator) (kind : ReadKind) (v : PickleValue) (rest : List UInt8) : Prop :=
  ∃ ranges it', it.read kind = some (some ranges,it') ∧ it.value kind ranges = some v ∧
    Ahead it' rest

namespace Ahead
variable {it : PickleIterator} {chunk data rest : List UInt8} {size : Nat}

theorem left_eq (h : Ahead it rest) : it.left = rest.length := by
  have hend := h.endIndex
  rw [PickleIterator.left,SizeT.sub,if_neg (by omega)]
  omega

theorem take (h : Ahead it (chunk ++ rest)) (hchunk : chunk.length = align size 4) :
    ∃ range it', it.take size = (some range,it') ∧ it'.memory = it.memory ∧ Ahead it' rest ∧
      load it.memory range.start range.length = some (chunk.take size) := by
  obtain ⟨base,hbase,hbytes⟩ := h.bytes
  obtain ⟨hle,-,-⟩ := align_spec size
  have hend := h.endIndex
  have hleft := h.left_eq
  rw [List.length_append] at hend hleft hbytes
  have hadvance : it.advance size = { it with readIndex := it.readIndex+align size 4 } :=
    if_neg (by omega)
  refine ⟨⟨base+it.readIndex,size⟩,it.advance size,?_,by rw [hadvance],?_,?_⟩
  · rw [PickleIterator.take,hbase]
    rfl
  · rw [hadvance]
    refine ⟨by dsimp; omega,base,hbase,?_⟩
    have hrest := get_part hbytes (i := chunk.length) (k := rest.length) (by omega)
    rw [← List.map_drop,List.drop_left,← List.map_take,List.take_length,hchunk] at hrest
    rwa [← Nat.add_assoc]
  · have hfirst := get_part hbytes (i := 0) (k := size) (by omega)
    rw [List.drop_zero,← List.map_take,List.take_append_of_le_length (by omega)] at hfirst
    exact load_eq hfirst

theorem getTypeAndAdvance (h : Ahead it (chunk ++ rest)) (hchunk : chunk.length = align size 4) :
    it.getTypeAndAdvance size = it.take size := by
  have hleft := h.left_eq
  obtain ⟨hle,-,-⟩ := align_spec size
  rw [List.length_append] at hleft
  exact if_neg (by omega)

theorem readBuiltinType (h : Ahead it (padded data ++ rest)) (hsize : size ≤ data.length)
    (halign : align data.length 4 = align size 4) {kind : ReadKind} {v : PickleValue}
    (hread : it.read kind = it.readBuiltinType size) (hv : kind.decode (data.take size) = v) :
    Gives it kind v rest := by
  have hchunk : (padded data).length = align size 4 := by rw [length_padded,halign]
  obtain ⟨range,it',htake,-,hahead,hload⟩ := h.take hchunk
  rw [padded,List.take_append_of_le_length hsize] at hload
  refine ⟨[range],it',?_,?_,hahead⟩
  · rw [hread,PickleIterator.readBuiltinType,h.getTypeAndAdvance hchunk,htake]
    rfl
  · rw [← hv]
    simp [PickleIterator.value,hload]

theorem getReadPointer (h : Ahead it (padded data ++ rest)) (hlength : data.length < 2^31) :
    ∃ range it', it.getReadPointerAndAdvance (Int32.ofNat data.length) = (some range,it') ∧
      Ahead it' rest ∧ load it.memory range.start range.length = some data := by
  have hint : (Int32.ofNat data.length).toInt = data.length := Int32.toInt_ofNat_of_lt hlength
  have hsize : SizeT.ofInt (Int32.ofNat data.length).toInt = data.length := by
    have := SizeT.ofInt_eq (n := (Int32.ofNat data.length).toInt) (by omega) (by omega)
    omega
  have hleft := h.left_eq
  obtain ⟨hle,-,-⟩ := align_spec data.length
  rw [List.length_append,length_padded] at hleft
  obtain ⟨range,it',htake,-,hahead,hload⟩ := h.take (length_padded data)
  rw [padded,List.take_left] at hload
  refine ⟨range,it',?_,hahead,hload⟩
  rw [PickleIterator.getReadPointerAndAdvance,hsize,if_neg (by omega),htake]

theorem readBytes (data : List UInt8) (h : Ahead it (padded data ++ rest))
    (hlength : data.length < 2^31) :
    Gives it (.bytes (Int32.ofNat data.length)) (.bytes data) rest := by
  obtain ⟨range,it',hget,hahead,hload⟩ := h.getReadPointer hlength
  refine ⟨[range],it',?_,?_,hahead⟩
  · rw [PickleIterator.read,PickleIterator.readBytes,hget]
    rfl
  · simp [PickleIterator.value,hload,ReadKind.decode]

theorem readSized (h : Ahead it (padded (leBytes 4 data.length) ++ (padded data ++ rest)))
    (hlength : data.length < 2^31) {kind : ReadKind} {v : PickleValue}
    (hread : it.read kind = it.readSized) (hv : kind.decode data = v) :
    Gives it kind v rest := by
  have hchunk : (padded (leBytes 4 data.length)).length = align 4 4 := by
    rw [length_padded,length_leBytes]
  obtain ⟨field,mid,htake,hmemory,hmid,hload⟩ := h.take hchunk
  rw [padded,List.take_left' (length_leBytes _ _)] at hload
  obtain ⟨range,it',hget,hahead,hdata⟩ := hmid.getReadPointer hlength
  refine ⟨[field,range],it',?_,?_,hahead⟩
  · rw [hread,PickleIterator.readSized,PickleIterator.readInt32,h.getTypeAndAdvance hchunk,htake]
    simp only [hload,Option.map_some,leValue_leBytes,
      Nat.mod_eq_of_lt (show data.length < 256^4 by omega),hget]
  · rw [hmemory] at hdata
    simp [PickleIterator.value,hdata,hv]

theorem readNumber {n x : Nat} (h : Ahead it (padded (leBytes n x) ++ rest)) (hx : x < 256^n)
    {kind : ReadKind} {v : PickleValue} (hread : it.read kind = it.readBuiltinType n)
    (hv : ∀ bytes, leValue bytes = x → kind.decode bytes = v) : Gives it kind v rest := by
  have hlength := length_leBytes n x
  refine h.readBuiltinType hlength.ge (by rw [hlength]) hread (hv _ ?_)
  rw [List.take_of_length_le hlength.le,leValue_leBytes,Nat.mod_eq_of_lt hx]

theorem read {v : PickleValue} {kind : ReadKind} (h : Ahead it (v.payload ++ rest))
    (hlength : v.length < 2^31) (hmatches : Matches v kind) : Gives it kind v rest := by
  cases hmatches with
  | bool v => cases v <;> exact h.readBuiltinType (by decide) (by decide) rfl (by decide)
  | int16 v =>
    exact h.readNumber v.toBitVec.isLt rfl fun bytes hbytes => by simp [ReadKind.decode,hbytes]
  | int32 v =>
    exact h.readNumber v.toBitVec.isLt rfl fun bytes hbytes => by simp [ReadKind.decode,hbytes]
  | int64 v =>
    exact h.readNumber v.toBitVec.isLt rfl fun bytes hbytes => by simp [ReadKind.decode,hbytes]
  | uint16 v =>
    exact h.readNumber v.toNat_lt rfl fun bytes hbytes => by simp [ReadKind.decode,hbytes]
  | uint32 v =>
    exact h.readNumber v.toNat_lt rfl fun bytes hbytes => by simp [ReadKind.decode,hbytes]
  | uint64 v =>
    exact h.readNumber v.toNat_lt rfl fun bytes hbytes => by simp [ReadKind.decode,hbytes]
  | float bits =>
    exact h.readNumber bits.toNat_lt rfl fun bytes hbytes => by simp [ReadKind.decode,hbytes]
  | double bits =>
    exact h.readNumber bits.toNat_lt rfl fun bytes hbytes => by simp [ReadKind.decode,hbytes]
  | string v =>
    exact readSized (by rwa [PickleValue.payload,List.append_assoc] at h) hlength rfl rfl
  | stringPiece v =>
    exact readSized (by rwa [PickleValue.payload,List.append_assoc] at h) hlength rfl rfl
  | data v =>
    exact readSized (by rwa [PickleValue.payload,List.append_assoc] at h) hlength rfl rfl
  | bytes v => exact readBytes v h hlength

theorem type_at_end (h : Ahead it []) (hsize : 0 < size) :
    it.getTypeAndAdvance size = (none,it.toEnd) := by
  have hleft : it.left = 0 := h.left_eq
  exact if_pos (by omega)

theorem pointer_at_end (h : Ahead it []) {n : Int32} (hn : n ≠ 0) :
    it.getReadPointerAndAdvance n = (none,it.toEnd) := by
  have hleft : it.left = 0 := h.left_eq
  have hint : n.toInt ≠ 0 := fun hzero => hn (Int32.toInt_inj.mp hzero)
  have hhigh := n.toInt_lt
  refine if_pos ?_
  by_cases hneg : n.toInt < 0
  · exact .inl hneg
  · have hsize := SizeT.ofInt_eq (n := n.toInt) (by omega) (by omega)
    exact .inr (by omega)

/-- Behind the last value only a read of no bytes returns true. -/
theorem read_at_end (h : Ahead it []) {kind : ReadKind} (hbytes : kind ≠ .bytes 0)
    (hskip : kind ≠ .skipBytes 0) : it.read kind = some (none,it.toEnd) := by
  have hbuiltin {n : Nat} (hn : 0 < n) : it.readBuiltinType n = some (none,it.toEnd) := by
    rw [PickleIterator.readBuiltinType,h.type_at_end hn]
    rfl
  have hint : it.readInt32 = some (none,it.toEnd) := by
    rw [PickleIterator.readInt32,h.type_at_end (by decide)]
  have hpointer {n : Int32} (hn : n ≠ 0) : it.readBytes n = some (none,it.toEnd) := by
    rw [PickleIterator.readBytes,h.pointer_at_end hn]
    rfl
  have hsized : it.readSized = some (none,it.toEnd) := by
    rw [PickleIterator.readSized,hint]
    rfl
  cases kind with
  | bool => exact hbuiltin (by decide)
  | int16 => exact hbuiltin (by decide)
  | int32 => exact hbuiltin (by decide)
  | int64 => exact hbuiltin (by decide)
  | uint16 => exact hbuiltin (by decide)
  | uint32 => exact hbuiltin (by decide)
  | uint64 => exact hbuiltin (by decide)
  | float => exact hbuiltin (by decide)
  | double => exact hbuiltin (by decide)
  | length =>
    rw [PickleIterator.read,PickleIterator.readLength,hint]
    rfl
  | string => exact hsized
  | stringPiece => exact hsized
  | data => exact hsized
  | bytes n => exact hpointer fun hzero => hbytes (by rw [hzero])
  | skipBytes n => exact hpointer fun hzero => hskip (by rw [hzero])

theorem readValues (values : List PickleValue) {kinds : List ReadKind}
    (h : Ahead it (payloadOf values)) (hlength : ∀ v ∈ values, v.length < 2^31)
    (hmatches : List.Forall₂ Matches values kinds) :
    ∃ last, it.readValues kinds = some (values,last) ∧ Ahead last [] := by
  induction hmatches generalizing it with
  | nil => exact ⟨it,rfl,h⟩
  | @cons v kind values kinds hv _ ih =>
    rw [payloadOf,List.flatMap_cons] at h
    obtain ⟨ranges,it',hread,hvalue,hahead⟩ := h.read (hlength v List.mem_cons_self) hv
    obtain ⟨last,hlast,hend⟩ := ih hahead fun w hw => hlength w (List.mem_cons_of_mem v hw)
    refine ⟨last,?_,hend⟩
    simp only [PickleIterator.readValues,hread,hvalue,hlast,Option.bind_eq_bind,Option.bind_some]
    rfl

end Ahead

/-- The reads that match the values return true with them, and one more read returns false. -/
def ReadsBack (p : Pickle) (values : List PickleValue) : Prop :=
  ∀ kinds, List.Forall₂ Matches values kinds →
    ∃ it last, PickleIterator.ofPickle p = some it ∧ it.readValues kinds = some (values,last) ∧
      ∀ kind, kind ≠ .bytes 0 → kind ≠ .skipBytes 0 → ∃ rest, last.read kind = some (none,rest)

theorem Carries.ahead {p : Pickle} {content : List UInt8} (h : Carries p content) :
    ∃ it, PickleIterator.ofPickle p = some it ∧ Ahead it content := by
  obtain ⟨block,hblock,hsize,hcontent⟩ := h.block
  refine ⟨⟨block,some p.headerSize,0,content.length⟩,?_,(Nat.zero_add _).symm,_,rfl,hcontent⟩
  simp only [PickleIterator.ofPickle,hblock,payloadSizeAt_eq h.small hsize,Option.map_some]

theorem Carries.readsBack {p : Pickle} {values : List PickleValue}
    (h : Carries p (payloadOf values)) (hlength : ∀ v ∈ values, v.length < 2^31) :
    ReadsBack p values := by
  intro kinds hmatches
  obtain ⟨it,hit,hahead⟩ := h.ahead
  obtain ⟨last,hlast,hend⟩ := hahead.readValues values hlength hmatches
  exact ⟨it,last,hit,hlast,fun kind hbytes hskip => ⟨_,hend.read_at_end hbytes hskip⟩⟩

def Fresh (p : Pickle) : Prop :=
  Pickle.new = some p ∨ ∃ headerSize : Int32, 4 ≤ headerSize.toInt ∧
    headerSize.toInt ≤ kPayloadUnit ∧ Pickle.withHeader headerSize = some p

theorem Fresh.holds {p : Pickle} (h : Fresh p) : Holds p [] := by
  rcases h with hnew | ⟨headerSize,hfour,hunit,hwith⟩
  · obtain ⟨p',hp',hholds⟩ := Holds.new
    rw [hnew] at hp'
    cases hp'
    exact hholds
  · obtain ⟨p',hp',hholds⟩ := Holds.withHeader hfour hunit
    rw [hwith] at hp'
    cases hp'
    exact hholds

/-- What is written is read back, from the pickle, from its copy and from whatever it is assigned
to; and the writes succeed if the reserves do. -/
theorem pickle_reads_back (start : Pickle) (ops : List PickleOp) (hstart : Fresh start)
    (hlength : ∀ v ∈ PickleOp.written ops, v.length < 2^31)
    (htotal : (payloadOf (PickleOp.written ops)).length < 2^32) :
    (ReservesFit 0 ops → ∃ p, Pickle.applyAll ops start = some p) ∧
      ∀ p, Pickle.applyAll ops start = some p → ReadsBack p (PickleOp.written ops) ∧
        (∃ q, p.copy = some q ∧ ReadsBack q (PickleOp.written ops)) ∧
        ∀ target : Pickle, ∃ q, target.assign p = some q ∧ ReadsBack q (PickleOp.written ops) := by
  obtain ⟨hsome,hholds⟩ := hstart.holds.applyAll ops hlength
    (by rwa [List.length_nil,Nat.zero_add])
  refine ⟨hsome,fun p hp => ?_⟩
  have h : Holds p (payloadOf (PickleOp.written ops)) := hholds p hp
  obtain ⟨q,hq,hcopy⟩ := h.copy
  refine ⟨h.carries.readsBack hlength,⟨q,hq,hcopy.carries.readsBack hlength⟩,fun target => ?_⟩
  obtain ⟨q',hq',hassign⟩ := h.assign target
  exact ⟨q',hq',hassign.carries.readsBack hlength⟩

theorem mixed_values_read_back : ∃ start, Pickle.new = some start ∧
    ((ReservesFit 0 [.write (.string [104,105]),.reserve 100,.write (.bool true)] →
      ∃ p, Pickle.applyAll [.write (.string [104,105]),.reserve 100,.write (.bool true)] start =
        some p) ∧
      ∀ p, Pickle.applyAll [.write (.string [104,105]),.reserve 100,.write (.bool true)] start =
        some p → ReadsBack p [.string [104,105],.bool true] ∧
        (∃ q, p.copy = some q ∧ ReadsBack q [.string [104,105],.bool true]) ∧
        ∀ target : Pickle, ∃ q, target.assign p = some q ∧
          ReadsBack q [.string [104,105],.bool true]) := by
  obtain ⟨start,hstart,-⟩ := Holds.new
  exact ⟨start,hstart,pickle_reads_back start _ (.inl hstart) (by decide) (by decide)⟩

/-- A read of no bytes returns true at the end of the payload. -/
theorem empty_read_at_end : ∃ start p it last, Pickle.new = some start ∧
    Pickle.applyAll [.write (.int32 7)] start = some p ∧
    PickleIterator.ofPickle p = some it ∧ it.readValues [.int32] = some ([.int32 7],last) ∧
    ∃ ranges rest, last.read (.bytes 0) = some (some ranges,rest) := by
  obtain ⟨start,hstart,hfresh⟩ := Holds.new
  obtain ⟨p,hp,h⟩ := hfresh.write (.int32 7) (by decide) (by decide)
  obtain ⟨it,hit,hahead⟩ := h.carries.ahead
  obtain ⟨last,hlast,hend⟩ := Ahead.readValues [.int32 7] hahead (by decide)
    (.cons (.int32 7) .nil)
  obtain ⟨ranges,rest,hread,-⟩ := Ahead.readBytes [] (show Ahead last (padded [] ++ []) from hend)
    (by decide)
  refine ⟨start,p,it,last,hstart,?_,hit,hlast,ranges,rest,hread⟩
  rw [Pickle.applyAll,Pickle.apply,hp]
  rfl

end MprMq.Base
