import MprMq.Base.PickleIterator
set_option autoImplicit false

/-! What a pickle holds after it has been written to, reserved and copied. -/

namespace MprMq.Base
open Lib Lib.Buffer

def padded (bytes : List UInt8) : List UInt8 :=
  bytes ++ List.replicate (align bytes.length 4-bytes.length) 0

theorem length_padded (bytes : List UInt8) : (padded bytes).length = align bytes.length 4 := by
  have := align_spec bytes.length
  rw [padded,List.length_append,List.length_replicate]
  omega

def PickleValue.payload : PickleValue → List UInt8
  | .bool v => padded (leBytes 4 (if v then 1 else 0))
  | .int16 v => padded (leBytes 2 v.toBitVec.toNat)
  | .int32 v => padded (leBytes 4 v.toBitVec.toNat)
  | .int64 v => padded (leBytes 8 v.toBitVec.toNat)
  | .uint16 v => padded (leBytes 2 v.toNat)
  | .uint32 v => padded (leBytes 4 v.toNat)
  | .uint64 v => padded (leBytes 8 v.toNat)
  | .float bits => padded (leBytes 4 bits.toNat)
  | .double bits => padded (leBytes 8 bits.toNat)
  | .string v => padded (leBytes 4 v.length) ++ padded v
  | .data v => padded (leBytes 4 v.length) ++ padded v
  | .bytes v => padded v

def PickleValue.length : PickleValue → Nat
  | .string v => v.length
  | .data v => v.length
  | .bytes v => v.length
  | _ => 0

structure Holds (p : Pickle) (content : List UInt8) : Prop where
  headerSize : 4 ≤ p.headerSize
  writeOffset : p.writeOffset = content.length
  capacity : p.capacityAfterHeader % 64 = 0
  small : content.length < 2^32
  block : ∃ block, p.header = some block ∧ block.length = p.headerSize+p.capacityAfterHeader ∧
    get block 0 4 = some ((leBytes 4 content.length).map some) ∧
    get block p.headerSize content.length = some (content.map some)

/-- What can be read of a pickle, also where it is a view of data. -/
structure Carries (p : Pickle) (content : List UInt8) : Prop where
  headerSize : 4 ≤ p.headerSize
  small : content.length < 2^32
  block : ∃ block, p.header = some block ∧
    get block 0 4 = some ((leBytes 4 content.length).map some) ∧
    get block p.headerSize content.length = some (content.map some)

theorem align_unit (n : Nat) : n ≤ align n kPayloadUnit ∧ align n kPayloadUnit % 64 = 0 := by
  unfold align kPayloadUnit
  omega

theorem payloadSizeAt_eq {block : List Cell} {n : Nat} (hsmall : n < 2^32)
    (h : get block 0 4 = some ((leBytes 4 n).map some)) : payloadSizeAt block = some n := by
  rw [payloadSizeAt,load_eq h,Option.map_some,leValue_leBytes,Nat.mod_eq_of_lt (by omega)]

namespace Carries
variable {p : Pickle} {content : List UInt8}

theorem copyFrom (h : Carries p content) {q : Pickle} (hheader : q.headerSize = p.headerSize)
    (hwritable : q.capacityAfterHeader ≠ kCapacityReadOnly) :
    ∃ q', Pickle.copyFrom p q = some q' ∧ q'.writeOffset = q.writeOffset ∧
      Holds { q' with writeOffset := content.length } content := by
  obtain ⟨block,hblock,hsize,hcontent⟩ := h.block
  obtain ⟨hle,hmod⟩ := align_unit content.length
  have hfour := h.headerSize
  have hroom : p.headerSize+content.length ≤ block.length := (le_of_get hcontent).1
  obtain ⟨cells,hcells⟩ : ∃ cells, get block 0 (p.headerSize+content.length) = some cells :=
    ⟨_,if_pos (by omega)⟩
  have hcount := length_of_get hcells
  obtain ⟨block',hput⟩ := exists_put (Buffer.resize none (q.header.getD [])
      (p.headerSize+align content.length kPayloadUnit)) 0 cells (by rw [length_resize]; omega)
  have hlength' := put_length hput
  rw [length_resize] at hlength'
  have hcells' := get_put hput
  rw [hcount] at hcells'
  refine ⟨⟨some block',p.headerSize,align content.length kPayloadUnit,q.writeOffset⟩,?_,rfl,
    hfour,rfl,hmod,h.small,block',rfl,hlength',?_,?_⟩
  · simp only [Pickle.copyFrom,hblock,payloadSizeAt_eq h.small hsize,Pickle.resize,
      if_neg hwritable,Option.bind_eq_bind,Option.bind_some,hcells,hheader,hput]
    rfl
  · rw [get_same hcells hcells' (by omega),hsize]
  · rw [get_same hcells hcells' (by dsimp; omega),hcontent]

theorem copy (h : Carries p content) : ∃ q, p.copy = some q ∧ q.writeOffset = p.writeOffset ∧
    Holds { q with writeOffset := content.length } content :=
  h.copyFrom (q := ⟨none,p.headerSize,0,p.writeOffset⟩) rfl
    (show (0 : Nat) ≠ kCapacityReadOnly by decide)

theorem assign (h : Carries p content) (target : Pickle) :
    ∃ q, target.assign p = some q ∧ q.writeOffset = p.writeOffset ∧
      Holds { q with writeOffset := content.length } content := by
  unfold Pickle.assign
  dsimp only
  generalize hfreed : (if target.capacityAfterHeader = kCapacityReadOnly then
    { target with header := none, capacityAfterHeader := 0 } else target) = freed
  have hwritable : freed.capacityAfterHeader ≠ kCapacityReadOnly := by
    rw [← hfreed]
    split
    · exact (show (0 : Nat) ≠ kCapacityReadOnly by decide)
    · assumption
  generalize hsized : (if freed.headerSize ≠ p.headerSize then
    { freed with header := none, headerSize := p.headerSize } else freed) = sized
  have hsize : sized.headerSize = p.headerSize ∧ sized.capacityAfterHeader ≠ kCapacityReadOnly := by
    rw [← hsized]
    split
    · exact ⟨rfl,hwritable⟩
    · exact ⟨by omega,hwritable⟩
  obtain ⟨q,hq,-,hholds⟩ := h.copyFrom hsize.1 hsize.2
  refine ⟨{ q with writeOffset := p.writeOffset },?_,rfl,hholds⟩
  simp only [hq,Option.bind_eq_bind,Option.bind_some]
  rfl

end Carries

namespace Holds
variable {p : Pickle} {content : List UInt8}

theorem carries (h : Holds p content) : Carries p content := by
  obtain ⟨block,hblock,-,hsize,hcontent⟩ := h.block
  exact ⟨h.headerSize,h.small,block,hblock,hsize,hcontent⟩

theorem writable (h : Holds p content) : p.capacityAfterHeader ≠ kCapacityReadOnly := by
  intro heq
  have hcapacity := h.capacity
  rw [heq] at hcapacity
  exact absurd hcapacity (by decide)

theorem resize (h : Holds p content) {n : Nat} (hn : content.length ≤ n) :
    ∃ p', p.resize n = some p' ∧ Holds p' content ∧ n ≤ p'.capacityAfterHeader := by
  obtain ⟨block,hheader,hlength,hsize,hcontent⟩ := h.block
  obtain ⟨hle,hmod⟩ := align_unit n
  have hfour := h.headerSize
  refine ⟨_,if_neg h.writable,⟨hfour,h.writeOffset,hmod,h.small,_,rfl,length_resize _ _ _,?_,?_⟩,
    hle⟩
  · rw [hheader]
    exact get_resize hsize (by omega)
  · rw [hheader]
    exact get_resize hcontent (by dsimp; omega)

theorem grow (h : Holds p content) (newSize : Nat) (hn : content.length ≤ newSize) :
    ∃ p', p.grow newSize = some p' ∧ Holds p' content ∧ newSize ≤ p'.capacityAfterHeader := by
  unfold Pickle.grow
  split
  · obtain ⟨p',hp',hholds,hcapacity⟩ := h.resize (Nat.le_trans hn (Nat.le_max_right _ newSize))
    exact ⟨p',hp',hholds,Nat.le_trans (Nat.le_max_right _ newSize) hcapacity⟩
  · exact ⟨p,rfl,h,by omega⟩

theorem claim_eq (h : Holds p content) {length : Nat}
    (hfits : content.length+align length 4 < 2^32) : p.claim length = some (align length 4) := by
  have hoffset := h.writeOffset
  have hle := (align_spec length).1
  have hmax : uint32Max = 2^32-1 := rfl
  exact if_pos ⟨hle,by omega,by omega⟩

theorem store_eq {block block' : List Cell} {pos headerSize capacity offset : Nat}
    {data : List UInt8} (hput : put block pos (data.map some) = some block') :
    Pickle.store pos data ⟨some block,headerSize,capacity,offset⟩ =
      some ⟨some block',headerSize,capacity,offset⟩ := by
  simp [Pickle.store,hput]

theorem writeBytesCommon (h : Holds p content) (data : List UInt8)
    (hfits : content.length+align data.length 4 < 2^32) :
    ∃ p', p.writeBytesCommon data data.length = some p' ∧ Holds p' (content ++ padded data) := by
  obtain ⟨hle,-,-⟩ := align_spec data.length
  have hoffset := h.writeOffset
  obtain ⟨p₁,hgrow,h₁,hroom⟩ := h.grow (content.length+align data.length 4) (by omega)
  obtain ⟨block,hheader,hlength,-,hcontent⟩ := h₁.block
  have hfour := h₁.headerSize
  generalize hzeros : List.replicate (align data.length 4-data.length) (0 : UInt8) = zeros
  have hpad : zeros.length = align data.length 4-data.length := by
    rw [← hzeros,List.length_replicate]
  have htotal : (content ++ padded data).length = content.length+align data.length 4 := by
    rw [List.length_append,length_padded]
  obtain ⟨block₁,hput₁⟩ := exists_put block
    (p₁.headerSize+content.length+data.length) (zeros.map some) (by rw [List.length_map]; omega)
  have hlength₁ := put_length hput₁
  obtain ⟨block₂,hput₂⟩ := exists_put block₁ 0
    ((leBytes 4 (content.length+align data.length 4)).map some)
    (by rw [List.length_map,length_leBytes]; omega)
  have hlength₂ := put_length hput₂
  obtain ⟨block₃,hput₃⟩ := exists_put block₂ (p₁.headerSize+content.length)
    (data.map some) (by rw [List.length_map]; omega)
  have hlength₃ := put_length hput₃
  refine ⟨{ p₁ with header := some block₃, writeOffset := content.length+align data.length 4 },?_,
    hfour,htotal.symm,h₁.capacity,by omega,block₃,rfl,by dsimp; omega,?_,?_⟩
  · have hmk : p₁ = ⟨some block,p₁.headerSize,p₁.capacityAfterHeader,content.length⟩ := by
      rw [← hheader,← h₁.writeOffset]
    rw [hmk] at hgrow
    simp only [Pickle.writeBytesCommon,if_neg h.writable,Pickle.claimUninitializedBytesInternal,
      h.claim_eq hfits,Option.bind_eq_bind,Option.bind_some,hoffset,hgrow,hzeros,store_eq hput₁,
      Pickle.setPayloadSize,store_eq hput₂,get_all]
    exact store_eq hput₃
  · rw [get_put_before hput₃ (by omega),htotal]
    have hsize := get_put hput₂
    rwa [List.length_map,length_leBytes] at hsize
  · have hfirst : get block₃ p₁.headerSize content.length = some (content.map some) := by
      rw [get_put_before hput₃ (by omega),
        get_put_after hput₂ (by rw [List.length_map,length_leBytes]; omega),
        get_put_before hput₁ (by omega),hcontent]
    have hmiddle : get block₃ (p₁.headerSize+content.length) data.length =
        some (data.map some) := by
      have := get_put hput₃
      rwa [List.length_map] at this
    have hlast : get block₃ (p₁.headerSize+content.length+data.length) zeros.length =
        some (zeros.map some) := by
      have hzero := get_put hput₁
      rw [List.length_map] at hzero
      rw [get_put_after hput₃ (by rw [List.length_map]),
        get_put_after hput₂ (by rw [List.length_map,length_leBytes]; omega),hzero]
    have hall := get_append hfirst (get_append hmiddle hlast)
    rw [← List.map_append,← List.map_append] at hall
    rw [htotal,padded,hzeros,← hall]
    congr 1
    omega

theorem writePOD (h : Holds p content) (bytes : List UInt8)
    (hfits : content.length+(padded bytes).length < 2^32) :
    ∃ p', p.writePOD bytes = some p' ∧ Holds p' (content ++ padded bytes) :=
  h.writeBytesCommon bytes (by rwa [length_padded] at hfits)

theorem writeBytes (h : Holds p content) (data : List UInt8) (hlength : data.length < 2^31)
    (hfits : content.length+(padded data).length < 2^32) :
    ∃ p', p.writeBytes data (Int32.ofNat data.length) = some p' ∧
      Holds p' (content ++ padded data) := by
  have hint : (Int32.ofNat data.length).toInt = data.length := Int32.toInt_ofNat_of_lt hlength
  have hsize : SizeT.ofInt (Int32.ofNat data.length).toInt = data.length := by
    have := SizeT.ofInt_eq (n := (Int32.ofNat data.length).toInt) (by omega) (by omega)
    omega
  rw [length_padded] at hfits
  unfold Pickle.writeBytes
  rw [hsize]
  exact h.writeBytesCommon data hfits

theorem lengthBytes {n : Nat} (h : n < 2^31) :
    leBytes 4 (Int32.ofNat n).toBitVec.toNat = leBytes 4 n := by
  have hvalue : (Int32.ofNat n).toBitVec.toNat = n % 2^32 := BitVec.toNat_ofNat n 32
  rw [hvalue,Nat.mod_eq_of_lt (by omega)]

theorem writeSized (h : Holds p content) (data : List UInt8) (hlength : data.length < 2^31)
    (hfits : content.length+(padded (leBytes 4 data.length) ++ padded data).length < 2^32) :
    ∃ p', (p.writeInt32 (Int32.ofNat data.length)).bind
        (fun p => p.writeBytes data (Int32.ofNat data.length)) = some p' ∧
      Holds p' (content ++ (padded (leBytes 4 data.length) ++ padded data)) := by
  rw [List.length_append] at hfits
  obtain ⟨p₁,hp₁,h₁⟩ := h.writePOD (leBytes 4 data.length) (by omega)
  obtain ⟨p₂,hp₂,h₂⟩ := h₁.writeBytes data hlength (by rw [List.length_append]; omega)
  refine ⟨p₂,?_,by rwa [List.append_assoc] at h₂⟩
  rw [Pickle.writeInt32,lengthBytes hlength,hp₁]
  exact hp₂

theorem write (h : Holds p content) (v : PickleValue) (hlength : v.length < 2^31)
    (hfits : content.length+v.payload.length < 2^32) :
    ∃ p', p.write v = some p' ∧ Holds p' (content ++ v.payload) := by
  cases v with
  | bool v =>
    have hbytes : leBytes 4 (if v then 1 else 0 : Int32).toBitVec.toNat =
        leBytes 4 (if v then 1 else 0) := by cases v <;> rfl
    obtain ⟨p',hp',hholds⟩ := h.writePOD (leBytes 4 (if v then 1 else 0)) hfits
    refine ⟨p',?_,hholds⟩
    rw [Pickle.write,Pickle.writeBool,Pickle.writeInt32,hbytes,hp']
  | int16 v => exact h.writePOD _ hfits
  | int32 v => exact h.writePOD _ hfits
  | int64 v => exact h.writePOD _ hfits
  | uint16 v => exact h.writePOD _ hfits
  | uint32 v => exact h.writePOD _ hfits
  | uint64 v => exact h.writePOD _ hfits
  | float bits => exact h.writePOD _ hfits
  | double bits => exact h.writePOD _ hfits
  | string v => exact h.writeSized v hlength hfits
  | data v =>
    obtain ⟨p',hp',hholds⟩ := h.writeSized v hlength hfits
    refine ⟨p',?_,hholds⟩
    have hint : (Int32.ofNat v.length).toInt = v.length := Int32.toInt_ofNat_of_lt hlength
    rw [Pickle.write,Pickle.writeData,if_neg (by omega)]
    simpa using hp'
  | bytes v => exact h.writeBytes v hlength hfits

theorem reserve (h : Holds p content) (length : Nat) :
    (content.length+align length 4 < 2^32 → (p.reserve length).isSome) ∧
      ∀ p', p.reserve length = some p' → Holds p' content := by
  have hoffset := h.writeOffset
  obtain ⟨p₁,hp₁,h₁,-⟩ := h.resize
    (n := p.capacityAfterHeader*2+(p.writeOffset+align length 4)) (by omega)
  constructor
  · intro hfits
    simp only [Pickle.reserve,h.claim_eq hfits,Option.bind_eq_bind,Option.bind_some]
    split
    · rw [hp₁]
      rfl
    · rfl
  · intro p' hp'
    simp only [Pickle.reserve,Pickle.claim,Option.bind_eq_bind,Option.bind_eq_some_iff] at hp'
    obtain ⟨dataLen,hdata,hp'⟩ := hp'
    split at hdata
    · cases hdata
      split at hp'
      · rw [hp₁] at hp'
        cases hp'
        exact h₁
      · cases hp'
        exact h
    · cases hdata

theorem ofHeaderSize {headerSize : Nat} (hfour : 4 ≤ headerSize) :
    ∃ p, Pickle.ofHeaderSize headerSize = some p ∧ Holds p [] := by
  have hwritable : (0 : Nat) ≠ kCapacityReadOnly := by decide
  have hunit : align kPayloadUnit kPayloadUnit = 64 := by decide
  obtain ⟨block,hput⟩ := exists_put (Buffer.resize (none : Cell) [] (headerSize+64)) 0
    ((leBytes 4 0).map some)
    (by rw [List.length_map,length_leBytes,length_resize]; omega)
  have hlength := put_length hput
  have hsize := get_put hput
  rw [List.length_map,length_leBytes] at hsize
  rw [length_resize] at hlength
  refine ⟨⟨some block,headerSize,64,0⟩,?_,hfour,rfl,Nat.mod_self 64,by decide,block,rfl,hlength,
    hsize,?_⟩
  · simp only [Pickle.ofHeaderSize,Pickle.resize,if_neg hwritable,hunit,Option.getD_none,
      Option.bind_some,Pickle.setPayloadSize]
    exact store_eq hput
  · rw [Buffer.get,if_pos (by dsimp; omega)]
    rfl

theorem new : ∃ p, Pickle.new = some p ∧ Holds p [] := ofHeaderSize (by decide)

theorem withHeader {headerSize : Int32} (hfour : 4 ≤ headerSize.toInt)
    (hunit : headerSize.toInt ≤ kPayloadUnit) :
    ∃ p, Pickle.withHeader headerSize = some p ∧ Holds p [] := by
  have hmodulus : SizeT.modulus = 2^64 := rfl
  have hsmall : headerSize.toInt ≤ 64 := hunit
  have hsize := SizeT.ofInt_eq (n := headerSize.toInt) (by omega) (by omega)
  obtain ⟨hle,hlt,-⟩ := align_spec (SizeT.ofInt headerSize.toInt)
  rw [Pickle.withHeader,if_pos ⟨by omega,hunit⟩,Nat.mod_eq_of_lt (by omega)]
  exact ofHeaderSize (by omega)

theorem of_writeOffset (h : Holds p content) {q : Pickle} (hoffset : q.writeOffset = p.writeOffset)
    (hholds : Holds { q with writeOffset := content.length } content) : Holds q content := by
  rw [← h.writeOffset,← hoffset] at hholds
  exact hholds

theorem copy (h : Holds p content) : ∃ q, p.copy = some q ∧ Holds q content := by
  obtain ⟨q,hq,hoffset,hholds⟩ := h.carries.copy
  exact ⟨q,hq,h.of_writeOffset hoffset hholds⟩

theorem assign (h : Holds p content) (target : Pickle) :
    ∃ q, target.assign p = some q ∧ Holds q content := by
  obtain ⟨q,hq,hoffset,hholds⟩ := h.carries.assign target
  exact ⟨q,hq,h.of_writeOffset hoffset hholds⟩

end Holds

def PickleOp.written : List PickleOp → List PickleValue
  | [] => []
  | .write v :: ops => v :: written ops
  | .reserve _ :: ops => written ops

def payloadOf (values : List PickleValue) : List UInt8 := values.flatMap PickleValue.payload

def ReservesFit : Nat → List PickleOp → Prop
  | _, [] => True
  | n, .write v :: ops => ReservesFit (n+v.payload.length) ops
  | n, .reserve length :: ops => n+align length 4 < 2^32 ∧ ReservesFit n ops

theorem Holds.applyAll {p : Pickle} {content : List UInt8} (h : Holds p content)
    (ops : List PickleOp) (hlength : ∀ v ∈ PickleOp.written ops, v.length < 2^31)
    (htotal : content.length+(payloadOf (PickleOp.written ops)).length < 2^32) :
    (ReservesFit content.length ops → ∃ p', Pickle.applyAll ops p = some p') ∧
      ∀ p', Pickle.applyAll ops p = some p' →
        Holds p' (content ++ payloadOf (PickleOp.written ops)) := by
  induction ops generalizing p content with
  | nil =>
    refine ⟨fun _ => ⟨p,rfl⟩,fun p' hp' => ?_⟩
    cases hp'
    rwa [PickleOp.written,payloadOf,List.flatMap_nil,List.append_nil]
  | cons op ops ih =>
    cases op with
    | write v =>
      rw [PickleOp.written] at hlength htotal
      rw [payloadOf,List.flatMap_cons,List.length_append] at htotal
      obtain ⟨p₁,hp₁,h₁⟩ := h.write v (hlength v List.mem_cons_self) (by omega)
      have hrest := ih h₁ (fun w hw => hlength w (List.mem_cons_of_mem v hw))
        (by rw [List.length_append,payloadOf]; omega)
      rw [List.append_assoc,List.length_append] at hrest
      rw [Pickle.applyAll,Pickle.apply,hp₁]
      exact hrest
    | reserve length =>
      obtain ⟨hsome,hholds⟩ := h.reserve length
      constructor
      · intro ⟨hfit,hfits⟩
        obtain ⟨p₁,hp₁⟩ := Option.isSome_iff_exists.mp (hsome hfit)
        rw [Pickle.applyAll,Pickle.apply,hp₁]
        exact (ih (hholds p₁ hp₁) hlength htotal).1 hfits
      · intro p' hp'
        obtain ⟨p₁,hp₁,hp'⟩ := Option.bind_eq_some_iff.mp hp'
        exact (ih (hholds p₁ hp₁) hlength htotal).2 p' hp'

end MprMq.Base
