import MprMq.Base.PickleHeap
set_option autoImplicit false

/-! Which copies of a pickle can be written to further. -/

namespace MprMq.Base
open Lib Lib.Buffer

inductive PickleObject.Valid (heap : Heap Cell) : PickleObject → List PickleValue → Prop where
  | built {o : PickleObject} {p : Pickle} {values : List PickleValue} :
      o.value heap = some p → Built p values → Valid heap o values
  | viewed {o : PickleObject} {data headerSize : Nat} {image : List Cell}
      {values : List PickleValue} : heap.blocks data = some image →
      Image headerSize (payloadOf values) image → image.length < 2^31 →
      (∀ v ∈ values, v.length < 2^31) →
      PickleObject.ofData heap data (Int32.ofNat image.length) = some o → Valid heap o values

/-- A copy `x` of `o`: the original is as it was, the offset is where the payload ends, and after
more writes the copy reads as all the values. -/
structure Extends (alloc : Heap.Allocator Cell) (heap : Heap Cell) (o : PickleObject)
    (values : List PickleValue) (x : OnHeap) : Prop where
  unchanged : o.value x.heap = o.value heap
  writeOffset : x.self.payloadSize x.heap = some x.self.writeOffset
  further : ∀ vs : List PickleValue, (∀ v ∈ vs, v.length < 2^31) →
    (payloadOf (values ++ vs)).length < 2^32 → ∃ x', x.writeAll alloc vs = some x' ∧
      o.value x'.heap = o.value heap ∧ x'.self.payloadSize x'.heap = some x'.self.writeOffset ∧
      ∃ p', x'.value = some p' ∧ ReadsBack p' (values ++ vs)

/-- All copies, by construction and by assignment to any other pickle that owns another block. -/
def CopiesExtend (alloc : Heap.Allocator Cell) (heap : Heap Cell) (o : PickleObject)
    (values : List PickleValue) : Prop :=
  (∃ x, OnHeap.copy alloc o heap = some x ∧ Extends alloc heap o values x) ∧
    ∀ target t, target.value heap = some t →
      (∀ a, o.header = some a → target.owned ≠ some a) →
      ∃ x, OnHeap.assign alloc o ⟨heap,target⟩ = some x ∧ Extends alloc heap o values x

section copies
variable {alloc : Heap.Allocator Cell} {heap : Heap Cell} {o : PickleObject} {x : OnHeap}
  {p : Pickle} {values : List PickleValue} {content : List UInt8}

theorem payloadSize_eq (h : x.value = some p) (hcarries : Carries p content) :
    x.self.payloadSize x.heap = some content.length := by
  obtain ⟨block,hblock,hsize,-⟩ := hcarries.block
  obtain ⟨heap,⟨header,headerSize,capacity,offset⟩⟩ := x
  cases header with
  | none =>
    cases h
    cases hblock
  | some a =>
    obtain ⟨block',hblock',rfl⟩ := Option.map_eq_some_iff.mp h
    cases hblock
    change heap.blocks a = some block at hblock'
    simp only [PickleObject.payloadSize,hblock',Option.bind_some,
      payloadSizeAt_eq hcarries.small hsize]

theorem written_writes (vs : List PickleValue) : PickleOp.written (vs.map .write) = vs := by
  induction vs with
  | nil => rfl
  | cons v vs ih => exact congrArg (v :: ·) ih

theorem reservesFit_writes (n : Nat) (vs : List PickleValue) :
    ReservesFit n (vs.map .write) := by
  induction vs generalizing n with
  | nil => trivial
  | cons v vs ih => exact ih _

theorem payloadOf_append (vs ws : List PickleValue) :
    payloadOf (vs ++ ws) = payloadOf vs ++ payloadOf ws := List.flatMap_append

theorem ofData_value {data : Nat} {image : List Cell} {dataLen : Int32}
    (hdata : heap.blocks data = some image)
    (ho : PickleObject.ofData heap data dataLen = some o) :
    o.value heap = Pickle.ofData image dataLen := by
  unfold PickleObject.ofData at ho
  obtain ⟨headerSize,hsize,ho⟩ := Option.bind_eq_some_iff.mp ho
  cases ho
  rw [hdata,Option.bind_some] at hsize
  have hdone : Pickle.ofData image dataLen =
      some ⟨if headerSize = 0 then none else some image,headerSize,kCapacityReadOnly,0⟩ := by
    unfold Pickle.ofData
    dsimp only
    split at hsize
    case isTrue hfour =>
      rw [if_pos hfour,hsize]
      rfl
    case isFalse hshort =>
      rw [if_neg hshort,hsize]
      rfl
  rw [hdone]
  by_cases hzero : headerSize = 0
  · rw [if_pos hzero,if_pos hzero]
    rfl
  · rw [if_neg hzero,if_neg hzero]
    exact Option.map_eq_some_iff.mpr ⟨image,hdata,rfl⟩

namespace PickleObject.Valid

theorem lengths (h : o.Valid heap values) : ∀ v ∈ values, v.length < 2^31 := by
  cases h with
  | built _ hbuilt => exact hbuilt.lengths
  | viewed _ _ _ hlengths _ => exact hlengths

/-- A view stands at the offset 0, and a pickle that was built at the end of its payload. -/
theorem carries (h : o.Valid heap values) : ∃ p, o.value heap = some p ∧
    Carries p (payloadOf values) ∧ o.writeOffset =
      if o.capacityAfterHeader = kCapacityReadOnly then 0 else (payloadOf values).length := by
  cases h with
  | @built p _ hvalue hbuilt =>
    have hholds := hbuilt.holds
    obtain ⟨-,hcapacity,hoffset⟩ := OnHeap.fields (x := ⟨heap,o⟩) hvalue
    refine ⟨p,hvalue,hholds.carries,?_⟩
    rw [if_neg (fun heq => hholds.writable (hcapacity.trans heq)),← hholds.writeOffset,hoffset]
  | @viewed data headerSize image _ hdata himage hlength _ ho =>
    have hvalue := ofData_value hdata ho
    rw [himage.ofData hlength] at hvalue
    obtain ⟨-,hcapacity,hoffset⟩ := OnHeap.fields (x := ⟨heap,o⟩) hvalue
    exact ⟨_,hvalue,himage.carries _ _,by rw [if_pos hcapacity.symm,← hoffset]⟩

end PickleObject.Valid

/-- Once the payload is copied all depends on the offset that is copied with it. -/
theorem extends_iff (h : o.Valid heap values) {mine : Option Nat}
    (hx : x.value = some p) (hwritable : x.self.capacityAfterHeader ≠ kCapacityReadOnly)
    (hframe : Heap.Frame heap x.heap mine x.self.owned)
    (hapart : ∀ a, o.header = some a → mine ≠ some a) (hoffset : p.writeOffset = o.writeOffset)
    (hholds : Holds { p with writeOffset := (payloadOf values).length } (payloadOf values)) :
    Extends alloc heap o values x ↔ o.writeOffset = (payloadOf values).length := by
  obtain ⟨po,hpo,-,-⟩ := h.carries
  have hcarries : Carries p (payloadOf values) := by
    obtain ⟨hheader,hsmall,hblock⟩ := hholds.carries
    exact ⟨hheader,hsmall,hblock⟩
  have hsize := payloadSize_eq hx hcarries
  obtain ⟨-,-,hself⟩ := OnHeap.fields hx
  constructor
  · intro hextends
    have heq := hextends.writeOffset
    rw [hsize,← hself,hoffset] at heq
    exact (Option.some.inj heq).symm
  · intro heq
    have hp : Holds p (payloadOf values) := by
      rw [← heq,← hoffset] at hholds
      exact hholds
    refine ⟨?_,?_,fun vs hlength htotal => ?_⟩
    · rw [value_kept hframe hpo hapart,hpo]
    · rw [hsize,← hself,hoffset,heq]
    · have hall := hp.applyAll (vs.map .write) (by rwa [written_writes])
        (by rwa [written_writes,← List.length_append,← payloadOf_append])
      rw [written_writes,← payloadOf_append] at hall
      obtain ⟨p',hp'⟩ := hall.1 (reservesFit_writes _ vs)
      have hp'' := hall.2 p' hp'
      have hagrees : Agrees x (x.writeAll alloc vs) _ := writeAll_agrees hx hwritable vs
      rw [hp'] at hagrees
      generalize hx' : x.writeAll alloc vs = r at hagrees
      cases hagrees with
      | @done x' _ hvalue' _ hframe' =>
        refine ⟨x',rfl,?_,?_,p',hvalue',?_⟩
        · rw [value_kept (hframe.trans hframe') hpo hapart,hpo]
        · rw [payloadSize_eq hvalue' hp''.carries,← hp''.writeOffset,(OnHeap.fields hvalue').2.2]
        · refine hp''.carries.readsBack fun v hv => ?_
          exact (List.mem_append.mp hv).elim (h.lengths v) (hlength v)

/-- Every copy of a pickle can be written to further, unless the pickle is a view of a payload. -/
theorem copies_extend_iff (alloc : Heap.Allocator Cell) (heap : Heap Cell) (o : PickleObject)
    (values : List PickleValue) (h : o.Valid heap values) :
    CopiesExtend alloc heap o values ↔
      o.capacityAfterHeader ≠ kCapacityReadOnly ∨ payloadOf values = [] := by
  obtain ⟨po,hpo,hcarries,hoffset⟩ := h.carries
  obtain ⟨hheaderSize,-,hself⟩ := OnHeap.fields (x := ⟨heap,o⟩) hpo
  have hwhere : o.writeOffset = (payloadOf values).length ↔
      o.capacityAfterHeader ≠ kCapacityReadOnly ∨ payloadOf values = [] := by
    rw [hoffset]
    split
    case isTrue hview =>
      rw [eq_comm,List.length_eq_zero_iff]
      exact ⟨.inr,fun h => h.resolve_left fun hne => hne hview⟩
    case isFalse hbuilt => exact iff_of_true rfl (.inl hbuilt)
  rw [← hwhere]
  constructor
  · rintro ⟨⟨x,hx,hextends⟩,-⟩
    obtain ⟨q,hq,hq',hholds⟩ := hcarries.copy
    have hagrees : Agrees _ (OnHeap.copy alloc o heap) _ := copy_agrees hpo
    rw [hx,hq] at hagrees
    cases hagrees with
    | done hvalue hwritable hframe =>
      exact (extends_iff h hvalue hwritable hframe (fun _ _ heq => nomatch heq)
        (hq'.trans hself) hholds).mp hextends
  · intro heq
    constructor
    · obtain ⟨q,hq,hq',hholds⟩ := hcarries.copy
      have hagrees : Agrees _ (OnHeap.copy alloc o heap) _ := copy_agrees hpo
      rw [hq] at hagrees
      generalize hx : OnHeap.copy alloc o heap = r at hagrees
      cases hagrees with
      | @done x _ hvalue hwritable hframe =>
        exact ⟨x,rfl,(extends_iff h hvalue hwritable hframe (fun _ _ heq => nomatch heq)
          (hq'.trans hself) hholds).mpr heq⟩
    · intro target t htarget hapart
      obtain ⟨q,hq,hq',hholds⟩ := hcarries.assign t
      have hagrees : Agrees ⟨heap,target⟩ (OnHeap.assign alloc o ⟨heap,target⟩) _ :=
        assign_agrees hpo hapart htarget
      rw [hq] at hagrees
      generalize hx : OnHeap.assign alloc o ⟨heap,target⟩ = r at hagrees
      cases hagrees with
      | @done x _ hvalue hwritable hframe =>
        exact ⟨x,rfl,(extends_iff h hvalue hwritable hframe hapart
          (hq'.trans hself) hholds).mpr heq⟩

end copies

def sevenImage : List Cell := [4,0,0,0,7,0,0,0].map some

def sevenHeap : Heap Cell := Heap.empty.write 0 sevenImage

def sevenView : PickleObject := ⟨some 0,4,kCapacityReadOnly,0⟩

theorem seven_valid : sevenView.Valid sevenHeap [.int32 7] := by
  have himage : Image 4 (payloadOf [.int32 7]) sevenImage :=
    ⟨by decide,by decide,rfl,rfl,rfl⟩
  exact .viewed (Heap.write_self _ _ _) himage (by decide) (by decide) rfl

theorem seven_copies : CopiesExtend .inPlace sevenHeap sevenView [.int32 7] ↔
    sevenView.capacityAfterHeader ≠ kCapacityReadOnly ∨ payloadOf [.int32 7] = [] :=
  copies_extend_iff .inPlace sevenHeap sevenView [.int32 7] seven_valid

/-- What is written to the copy of the view is written over the 7. -/
theorem seven_overwritten : sevenView.Valid sevenHeap [.int32 7] ∧
    ∃ x x', OnHeap.copy .inPlace sevenView sevenHeap = some x ∧ x.self.writeOffset = 0 ∧
      x.self.payloadSize x.heap = some 4 ∧ x.writeAll .inPlace [.int32 9] = some x' ∧
      x'.self.payloadSize x'.heap = some 4 ∧
      ¬ CopiesExtend .inPlace sevenHeap sevenView [.int32 7] := by
  refine ⟨seven_valid,_,_,rfl,rfl,rfl,rfl,rfl,?_⟩
  rintro ⟨⟨x,hx,hextends⟩,-⟩
  cases hx
  exact absurd (Option.some.inj hextends.writeOffset) (by decide)

end MprMq.Base
