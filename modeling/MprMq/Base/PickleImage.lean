import MprMq.Base.PickleReadBack
set_option autoImplicit false

/-! The bytes that a pickle is sent as, and the view of them. -/

namespace MprMq.Base
open Lib Lib.Buffer

def Pickle.data (p : Pickle) : Option (List Cell) := do
  let block ← p.header
  let size ← payloadSizeAt block
  get block 0 (p.headerSize+size)

structure Built (p : Pickle) (values : List PickleValue) : Prop where
  made : ∃ start ops, Fresh start ∧ Pickle.applyAll ops start = some p ∧
    PickleOp.written ops = values
  lengths : ∀ v ∈ values, v.length < 2^31
  total : (payloadOf values).length < 2^32

structure Image (headerSize : Nat) (content : List UInt8) (image : List Cell) : Prop where
  header : 4 ≤ headerSize ∧ headerSize ≤ 64 ∧ headerSize % 4 = 0
  small : content.length < 2^32
  length : image.length = headerSize+content.length
  size : get image 0 4 = some ((leBytes 4 content.length).map some)
  content : get image headerSize content.length = some (content.map some)

section header
variable {p p' : Pickle}

def KeepsHeaderSize (f : Pickle → Option Pickle) : Prop :=
  ∀ p p', f p = some p' → p'.headerSize = p.headerSize

theorem KeepsHeaderSize.bind {f g : Pickle → Option Pickle} (hf : KeepsHeaderSize f)
    (hg : KeepsHeaderSize g) : KeepsHeaderSize fun p => (f p).bind g := by
  intro p p' h
  obtain ⟨mid,hmid,h⟩ := Option.bind_eq_some_iff.mp h
  rw [hg mid p' h,hf p mid hmid]

theorem resize_headerSize (newCapacity : Nat) : KeepsHeaderSize (Pickle.resize newCapacity) := by
  intro p p' h
  rw [Pickle.resize,Option.ite_none_left_eq_some] at h
  cases h.2
  rfl

theorem store_headerSize (pos : Nat) (data : List UInt8) :
    KeepsHeaderSize (Pickle.store pos data) := by
  intro p p' h
  obtain ⟨block,-,h⟩ := Option.bind_eq_some_iff.mp h
  obtain ⟨block',-,h⟩ := Option.bind_eq_some_iff.mp h
  cases h
  rfl

theorem grow_headerSize (newSize : Nat) : KeepsHeaderSize (Pickle.grow newSize) := by
  intro p p' h
  unfold Pickle.grow at h
  split at h
  · exact resize_headerSize _ p p' h
  · cases h
    rfl

theorem writeBytesCommon_headerSize (data : List UInt8) (length : Nat) :
    KeepsHeaderSize (Pickle.writeBytesCommon data length) := by
  intro p p' h
  rw [Pickle.writeBytesCommon,Option.ite_none_left_eq_some] at h
  obtain ⟨⟨mid,write⟩,hclaim,h⟩ := Option.bind_eq_some_iff.mp h.2
  obtain ⟨bytes,-,h⟩ := Option.bind_eq_some_iff.mp h
  rw [Pickle.claimUninitializedBytesInternal,Option.ite_none_left_eq_some] at hclaim
  obtain ⟨dataLen,-,hclaim⟩ := Option.bind_eq_some_iff.mp hclaim.2
  obtain ⟨grown,hgrown,hclaim⟩ := Option.bind_eq_some_iff.mp hclaim
  obtain ⟨zeroed,hzeroed,hclaim⟩ := Option.bind_eq_some_iff.mp hclaim
  obtain ⟨sized,hsized,hclaim⟩ := Option.bind_eq_some_iff.mp hclaim
  cases hclaim
  have hset : sized.headerSize = zeroed.headerSize := store_headerSize _ _ _ _ hsized
  calc p'.headerSize = sized.headerSize := (store_headerSize _ _ _ _ h).trans rfl
    _ = grown.headerSize := hset.trans (store_headerSize _ _ _ _ hzeroed)
    _ = p.headerSize := grow_headerSize _ _ _ hgrown

theorem write_headerSize (v : PickleValue) : KeepsHeaderSize fun p => p.write v := by
  cases v with
  | string v => exact (writeBytesCommon_headerSize _ _).bind (writeBytesCommon_headerSize _ _)
  | data v =>
    intro p p' h
    obtain ⟨⟨ret,p''⟩,hdata,rfl⟩ := Option.map_eq_some_iff.mp h
    unfold Pickle.writeData at hdata
    split at hdata
    · cases hdata
      rfl
    · obtain ⟨mid,hmid,hdata⟩ := Option.bind_eq_some_iff.mp hdata
      obtain ⟨last,hlast,hdata⟩ := Option.bind_eq_some_iff.mp hdata
      cases hdata
      rw [← writeBytesCommon_headerSize _ _ _ _ hmid]
      exact writeBytesCommon_headerSize _ _ _ _ hlast
  | _ => exact writeBytesCommon_headerSize _ _

theorem apply_headerSize (op : PickleOp) : KeepsHeaderSize fun p => p.apply op := by
  cases op with
  | write v => exact write_headerSize v
  | reserve length =>
    intro p p' h
    obtain ⟨dataLen,-,h⟩ := Option.bind_eq_some_iff.mp h
    dsimp only at h
    split at h
    · exact resize_headerSize _ _ _ h
    · cases h
      rfl

theorem applyAll_headerSize (ops : List PickleOp) : KeepsHeaderSize (Pickle.applyAll ops) := by
  induction ops with
  | nil =>
    intro p p' h
    cases h
    rfl
  | cons op ops ih => exact (apply_headerSize op).bind ih

theorem ofHeaderSize_headerSize {headerSize : Nat} (h : Pickle.ofHeaderSize headerSize = some p) :
    p.headerSize = headerSize := by
  obtain ⟨mid,hmid,h⟩ := Option.bind_eq_some_iff.mp h
  rw [store_headerSize _ _ _ _ h]
  exact resize_headerSize _ _ _ hmid

theorem Fresh.headerSize (h : Fresh p) :
    4 ≤ p.headerSize ∧ p.headerSize ≤ 64 ∧ p.headerSize % 4 = 0 := by
  rcases h with hnew | ⟨headerSize,hfour,hunit,hwith⟩
  · rw [ofHeaderSize_headerSize hnew]
    decide
  · rw [Pickle.withHeader,Option.ite_none_right_eq_some] at hwith
    have hmodulus : SizeT.modulus = 2^64 := rfl
    have hsmall : headerSize.toInt ≤ 64 := hunit
    have hsize := SizeT.ofInt_eq (n := headerSize.toInt) (by omega) (by omega)
    obtain ⟨hle,hlt,hmod⟩ := align_spec (SizeT.ofInt headerSize.toInt)
    rw [ofHeaderSize_headerSize hwith.2,Nat.mod_eq_of_lt (by omega)]
    omega

end header

namespace Built
variable {p : Pickle} {values : List PickleValue}

theorem holds (h : Built p values) : Holds p (payloadOf values) := by
  obtain ⟨⟨start,ops,hstart,hp,rfl⟩,hlengths,htotal⟩ := h
  have hall := (hstart.holds.applyAll ops hlengths (by rwa [List.length_nil,Nat.zero_add])).2 p hp
  rwa [List.nil_append] at hall

theorem image (h : Built p values) : ∃ image, p.data = some image ∧
    Image p.headerSize (payloadOf values) image := by
  obtain ⟨block,hblock,hsize,hcontent⟩ := h.holds.carries.block
  have hsmall := h.total
  have hheader : 4 ≤ p.headerSize ∧ p.headerSize ≤ 64 ∧ p.headerSize % 4 = 0 := by
    obtain ⟨start,ops,hstart,hp,-⟩ := h.made
    rw [applyAll_headerSize ops _ _ hp]
    exact hstart.headerSize
  have hroom : p.headerSize+(payloadOf values).length ≤ block.length := (le_of_get hcontent).1
  obtain ⟨image,himage⟩ : ∃ image,
      get block 0 (p.headerSize+(payloadOf values).length) = some image := ⟨_,if_pos (by omega)⟩
  have hlength := length_of_get himage
  have hall := get_all image
  rw [hlength] at hall
  refine ⟨image,?_,hheader,hsmall,hlength,?_,?_⟩
  · simp only [Pickle.data,hblock,payloadSizeAt_eq hsmall hsize,Option.bind_eq_bind,
      Option.bind_some,himage]
  · rw [get_same himage hall (by omega),hsize]
  · rw [get_same himage hall (by omega),hcontent]

end Built

namespace Image
variable {headerSize : Nat} {content : List UInt8} {image : List Cell}

theorem payloadSizeAt (h : Image headerSize content image) :
    payloadSizeAt image = some content.length := payloadSizeAt_eq h.small h.size

/-- The view finds the header size from the length of the data. -/
theorem ofData (h : Image headerSize content image) (hlength : image.length < 2^31) :
    Pickle.ofData image (Int32.ofNat image.length) =
      some ⟨some image,headerSize,kCapacityReadOnly,0⟩ := by
  obtain ⟨hfour,hunit,hmod⟩ := h.header
  have hsize := h.length
  have hint : (Int32.ofNat image.length).toInt = image.length := Int32.toInt_ofNat_of_lt hlength
  have hheader : Pickle.dataHeaderSize (Int32.ofNat image.length) content.length =
      headerSize := by
    have hless : ¬ ((image.length : Int) % 2^32).toNat < headerSize := by omega
    have hdiff : (((image.length : Int)-content.length) % 2^32).toNat = headerSize := by omega
    have halign : align headerSize 4 = headerSize := by
      unfold align
      omega
    simp only [Pickle.dataHeaderSize,hint,hdiff,if_neg hless,halign,ne_eq,not_true_eq_false,
      if_false]
  simp only [Pickle.ofData,hint,if_pos (show (4 : Int) ≤ image.length by omega),
    h.payloadSizeAt,Option.map_some,Option.bind_eq_bind,Option.bind_some,hheader,
    if_neg (show headerSize ≠ 0 by omega)]
  rfl

theorem carries (h : Image headerSize content image) (capacity offset : Nat) :
    Carries ⟨some image,headerSize,capacity,offset⟩ content :=
  ⟨h.header.1,h.small,image,rfl,h.size,h.content⟩

end Image

end MprMq.Base
