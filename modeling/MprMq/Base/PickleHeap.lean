import MprMq.Base.PickleImage
import MprMq.Lib.Heap
set_option autoImplicit false

/-! Pickle objects on the heap, and which blocks their operations change. -/

namespace MprMq.Base
open Lib Lib.Buffer

/-- `header` is the address in `header_`, `none` where it is NULL. -/
structure PickleObject where
  header : Option Nat
  headerSize : Nat
  capacityAfterHeader : Nat
  writeOffset : Nat

namespace PickleObject

def owned (o : PickleObject) : Option Nat :=
  if o.capacityAfterHeader = kCapacityReadOnly then none else o.header

/-- The pickle that an object is, with the block it points to; `none` is a dangling pointer. -/
def value (heap : Heap Cell) (o : PickleObject) : Option Pickle :=
  match o.header with
  | none => some ⟨none,o.headerSize,o.capacityAfterHeader,o.writeOffset⟩
  | some a => (heap.blocks a).map fun block =>
      ⟨some block,o.headerSize,o.capacityAfterHeader,o.writeOffset⟩

def payloadSize (heap : Heap Cell) (o : PickleObject) : Option Nat :=
  match o.header with
  | none => some 0
  | some a => (heap.blocks a).bind payloadSizeAt

def ofData (heap : Heap Cell) (data : Nat) (dataLen : Int32) : Option PickleObject := do
  let headerSize ← (if 4 ≤ dataLen.toInt then
      ((heap.blocks data).bind payloadSizeAt).map (Pickle.dataHeaderSize dataLen)
    else some 0)
  return ⟨if headerSize = 0 then none else some data,headerSize,kCapacityReadOnly,0⟩

def claim (length : Nat) (o : PickleObject) : Option Nat :=
  let dataLen := align length 4
  if length ≤ dataLen ∧ dataLen ≤ uint32Max ∧ o.writeOffset ≤ uint32Max-dataLen then some dataLen
  else none

end PickleObject

structure OnHeap where
  heap : Heap Cell
  self : PickleObject

namespace OnHeap

def value (x : OnHeap) : Option Pickle := x.self.value x.heap

def store (pos : Nat) (cells : List Cell) (x : OnHeap) : Option OnHeap := do
  let a ← x.self.header
  let block ← x.heap.blocks a
  let block ← put block pos cells
  return { x with heap := x.heap.write a block }

def setPayloadSize (size : Nat) : OnHeap → Option OnHeap := store 0 ((leBytes 4 size).map some)

variable (alloc : Heap.Allocator Cell)

def resize (newCapacity : Nat) (x : OnHeap) : Option OnHeap :=
  if x.self.capacityAfterHeader = kCapacityReadOnly then none
  else do
    let capacity := align newCapacity kPayloadUnit
    let (heap,a) ← Heap.realloc alloc none x.heap x.self.header (x.self.headerSize+capacity)
    return ⟨heap,{ x.self with header := some a, capacityAfterHeader := capacity }⟩

/-- The Resize and the `memcpy` of a copy; the size is read of the other pickle each time. -/
def copyFrom (other : PickleObject) (x : OnHeap) : Option OnHeap := do
  let source ← other.header
  let block ← x.heap.blocks source
  let size ← payloadSizeAt block
  let x ← x.resize alloc size
  let block ← x.heap.blocks source
  let size ← payloadSizeAt block
  let cells ← get block 0 (other.headerSize+size)
  x.store 0 cells

def copy (other : PickleObject) (heap : Heap Cell) : Option OnHeap :=
  copyFrom alloc other ⟨heap,⟨none,other.headerSize,0,other.writeOffset⟩⟩

def assign (other : PickleObject) (x : OnHeap) : Option OnHeap := do
  let x := if x.self.capacityAfterHeader = kCapacityReadOnly then
      { x with self.header := none, self.capacityAfterHeader := 0 }
    else x
  let x := if x.self.headerSize ≠ other.headerSize then
      ⟨x.heap.free x.self.header,
        { x.self with header := none, headerSize := other.headerSize }⟩
    else x
  let x ← copyFrom alloc other x
  return { x with self.writeOffset := other.writeOffset }

def grow (newSize : Nat) (x : OnHeap) : Option OnHeap :=
  if x.self.capacityAfterHeader < newSize then
    let newCapacity := x.self.capacityAfterHeader*2
    let newCapacity :=
      if 4096 < newCapacity then align newCapacity 4096-kPayloadUnit else newCapacity
    x.resize alloc (max newCapacity newSize)
  else some x

def claimUninitializedBytesInternal (length : Nat) (x : OnHeap) : Option (OnHeap × Nat) := do
  if x.self.capacityAfterHeader = kCapacityReadOnly then none
  else
    let dataLen ← x.self.claim length
    let newSize := x.self.writeOffset+dataLen
    let x ← x.grow alloc newSize
    let write := x.self.headerSize+x.self.writeOffset
    let x ← x.store (write+length) ((List.replicate (dataLen-length) 0).map some)
    let x ← x.setPayloadSize newSize
    return ({ x with self.writeOffset := newSize },write)

def writeBytesCommon (data : List UInt8) (length : Nat) (x : OnHeap) : Option OnHeap := do
  if x.self.capacityAfterHeader = kCapacityReadOnly then none
  else
    let (x,write) ← x.claimUninitializedBytesInternal alloc length
    let bytes ← get data 0 length
    x.store write (bytes.map some)

def writeBytes (data : List UInt8) (length : Int32) : OnHeap → Option OnHeap :=
  writeBytesCommon alloc data (SizeT.ofInt length.toInt)

def writePOD (bytes : List UInt8) : OnHeap → Option OnHeap :=
  writeBytesCommon alloc bytes bytes.length

def writeInt32 (v : Int32) : OnHeap → Option OnHeap :=
  writePOD alloc (leBytes 4 v.toBitVec.toNat)

def writeString (value : List UInt8) (x : OnHeap) : Option OnHeap := do
  let x ← x.writeInt32 alloc (Int32.ofNat value.length)
  x.writeBytes alloc value (Int32.ofNat value.length)

def writeData (data : List UInt8) (length : Int32) (x : OnHeap) : Option (Bool × OnHeap) := do
  if length.toInt < 0 then some (false,x)
  else
    let x ← x.writeInt32 alloc length
    return (true,← x.writeBytes alloc data length)

def write (x : OnHeap) : PickleValue → Option OnHeap
  | .bool v => x.writeInt32 alloc (if v then 1 else 0)
  | .int16 v => x.writePOD alloc (leBytes 2 v.toBitVec.toNat)
  | .int32 v => x.writeInt32 alloc v
  | .int64 v => x.writePOD alloc (leBytes 8 v.toBitVec.toNat)
  | .uint16 v => x.writePOD alloc (leBytes 2 v.toNat)
  | .uint32 v => x.writePOD alloc (leBytes 4 v.toNat)
  | .uint64 v => x.writePOD alloc (leBytes 8 v.toNat)
  | .float bits => x.writePOD alloc (leBytes 4 bits.toNat)
  | .double bits => x.writePOD alloc (leBytes 8 bits.toNat)
  | .string v => x.writeString alloc v
  | .data v => (x.writeData alloc v (Int32.ofNat v.length)).map Prod.snd
  | .bytes v => x.writeBytes alloc v (Int32.ofNat v.length)

def writeAll : List PickleValue → OnHeap → Option OnHeap
  | [], x => some x
  | v :: vs, x => (x.write alloc v).bind (writeAll vs)

end OnHeap

/-- An operation on the heap has done what the one on values does, and changed no block but the
one that the object owns. -/
inductive Agrees (x : OnHeap) : Option OnHeap → Option Pickle → Prop where
  | failed : Agrees x none none
  | done {x' : OnHeap} {p' : Pickle} : x'.value = some p' →
      x'.self.capacityAfterHeader ≠ kCapacityReadOnly →
      Heap.Frame x.heap x'.heap x.self.owned x'.self.owned → Agrees x (some x') (some p')

section agrees
variable {alloc : Heap.Allocator Cell} {x : OnHeap} {p : Pickle}

theorem owned_of_writable {o : PickleObject} (h : o.capacityAfterHeader ≠ kCapacityReadOnly) :
    o.owned = o.header := if_neg h

theorem Agrees.after {x' : OnHeap} {r : Option OnHeap} {s : Option Pickle}
    (hframe : Heap.Frame x.heap x'.heap x.self.owned x'.self.owned) (h : Agrees x' r s) :
    Agrees x r s := by
  cases h with
  | failed => exact .failed
  | done hvalue hwritable hframe' => exact .done hvalue hwritable (hframe.trans hframe')

theorem Agrees.sameBlocks {x' : OnHeap} {r : Option OnHeap} {s : Option Pickle}
    (h : Agrees x' r s) (hheap : x'.heap = x.heap) (howned : x'.self.owned = x.self.owned) :
    Agrees x r s := by
  refine h.after ?_
  rw [hheap,howned]
  exact .refl _ _

theorem Agrees.bind {r : Option OnHeap} {s : Option Pickle} {k : OnHeap → Option OnHeap}
    {l : Pickle → Option Pickle} (h : Agrees x r s)
    (hk : ∀ x' p', x'.value = some p' → x'.self.capacityAfterHeader ≠ kCapacityReadOnly →
      Heap.Frame x.heap x'.heap x.self.owned x'.self.owned → Agrees x' (k x') (l p')) :
    Agrees x (r.bind k) (s.bind l) := by
  cases h with
  | failed => exact .failed
  | @done x' p' hvalue hwritable hframe =>
    rw [Option.bind_some,Option.bind_some]
    exact (hk x' p' hvalue hwritable hframe).after hframe

theorem OnHeap.fields (h : x.value = some p) : p.headerSize = x.self.headerSize ∧
    p.capacityAfterHeader = x.self.capacityAfterHeader ∧ p.writeOffset = x.self.writeOffset := by
  obtain ⟨heap,⟨header,headerSize,capacity,offset⟩⟩ := x
  cases header with
  | none =>
    cases h
    exact ⟨rfl,rfl,rfl⟩
  | some a =>
    obtain ⟨block,-,rfl⟩ := Option.map_eq_some_iff.mp h
    exact ⟨rfl,rfl,rfl⟩

theorem put_agrees (h : x.value = some p)
    (hwritable : x.self.capacityAfterHeader ≠ kCapacityReadOnly) (pos : Nat)
    (cells : List Cell) : Agrees x (x.store pos cells) (p.header.bind fun block =>
      (put block pos cells).bind fun block => some { p with header := some block }) := by
  obtain ⟨heap,⟨header,headerSize,capacity,offset⟩⟩ := x
  cases header with
  | none =>
    cases h
    exact .failed
  | some a =>
    obtain ⟨block,hblock,rfl⟩ := Option.map_eq_some_iff.mp h
    change heap.blocks a = some block at hblock
    simp only [OnHeap.store,Option.bind_eq_bind,Option.bind_some,hblock]
    cases put block pos cells with
    | none => exact .failed
    | some block' =>
      refine .done ?_ hwritable ?_
      · simp only [OnHeap.value,PickleObject.value,Heap.write_self,Option.map_some]
      · rw [owned_of_writable hwritable]
        exact Heap.Frame.write heap a block'

theorem store_agrees (h : x.value = some p)
    (hwritable : x.self.capacityAfterHeader ≠ kCapacityReadOnly) (pos : Nat)
    (data : List UInt8) : Agrees x (x.store pos (data.map some)) (p.store pos data) :=
  put_agrees h hwritable pos (data.map some)

theorem capacity_writable (n : Nat) : align n kPayloadUnit ≠ kCapacityReadOnly := by
  intro heq
  have hmod := (align_unit n).2
  rw [heq] at hmod
  exact absurd hmod (by decide)

theorem resize_agrees (h : x.value = some p) (newCapacity : Nat) :
    Agrees x (x.resize alloc newCapacity) (p.resize newCapacity) := by
  obtain ⟨hheaderSize,hcapacity,hoffset⟩ := OnHeap.fields h
  by_cases hwritable : x.self.capacityAfterHeader = kCapacityReadOnly
  · rw [OnHeap.resize,Pickle.resize,if_pos hwritable,if_pos (hcapacity.trans hwritable)]
    exact .failed
  · have hcontents : x.heap.contents x.self.header = some (p.header.getD []) := by
      obtain ⟨heap,⟨header,headerSize,capacity,offset⟩⟩ := x
      cases header with
      | none =>
        cases h
        rfl
      | some a =>
        obtain ⟨block,hblock,rfl⟩ := Option.map_eq_some_iff.mp h
        exact hblock
    obtain ⟨heap',a,hrealloc,hblock⟩ := @Heap.realloc_eq _ alloc none _ _
      (x.self.headerSize+align newCapacity kPayloadUnit) _ hcontents
    rw [OnHeap.resize,Pickle.resize,if_neg hwritable,if_neg (by rwa [hcapacity])]
    simp only [hrealloc,Option.bind_eq_bind,Option.bind_some]
    refine .done ?_ (capacity_writable _) ?_
    · simp only [OnHeap.value,PickleObject.value,hblock,Option.map_some,hheaderSize,hoffset]
    · rw [owned_of_writable hwritable,owned_of_writable (capacity_writable _)]
      exact Heap.Frame.realloc hrealloc

theorem grow_agrees (h : x.value = some p)
    (hwritable : x.self.capacityAfterHeader ≠ kCapacityReadOnly) (newSize : Nat) :
    Agrees x (x.grow alloc newSize) (p.grow newSize) := by
  obtain ⟨-,hcapacity,-⟩ := OnHeap.fields h
  unfold OnHeap.grow Pickle.grow
  rw [hcapacity]
  split
  · exact resize_agrees h _
  · exact .done h hwritable (.refl _ _)

theorem claim_agrees (h : x.value = some p) (length : Nat) :
    x.self.claim length = p.claim length := by
  obtain ⟨-,-,hoffset⟩ := OnHeap.fields h
  rw [PickleObject.claim,Pickle.claim,hoffset]

theorem value_writeOffset (h : x.value = some p) (offset : Nat) :
    { x with self.writeOffset := offset }.value = some { p with writeOffset := offset } := by
  obtain ⟨heap,⟨header,headerSize,capacity,offset'⟩⟩ := x
  cases header with
  | none =>
    cases h
    rfl
  | some a =>
    obtain ⟨block,hblock,rfl⟩ := Option.map_eq_some_iff.mp h
    exact Option.map_eq_some_iff.mpr ⟨block,hblock,rfl⟩

theorem writeBytesCommon_agrees (h : x.value = some p) (data : List UInt8) (length : Nat) :
    Agrees x (x.writeBytesCommon alloc data length) (p.writeBytesCommon data length) := by
  obtain ⟨-,hcapacity,hoffset⟩ := OnHeap.fields h
  rw [OnHeap.writeBytesCommon,Pickle.writeBytesCommon,OnHeap.claimUninitializedBytesInternal,
    Pickle.claimUninitializedBytesInternal,hcapacity]
  by_cases hwritable : x.self.capacityAfterHeader = kCapacityReadOnly
  · rw [if_pos hwritable,if_pos hwritable]
    exact .failed
  rw [if_neg hwritable,if_neg hwritable,if_neg hwritable,if_neg hwritable,claim_agrees h,hoffset]
  cases p.claim length with
  | none => exact .failed
  | some dataLen =>
    simp only [Option.bind_eq_bind,Option.bind_some,Option.bind_assoc]
    refine (grow_agrees h hwritable _).bind fun x₁ p₁ h₁ hw₁ _ => ?_
    obtain ⟨hsize₁,-,hoffset₁⟩ := OnHeap.fields h₁
    rw [hsize₁,hoffset₁]
    refine (store_agrees h₁ hw₁ _ _).bind fun x₂ p₂ h₂ hw₂ _ => ?_
    refine (store_agrees h₂ hw₂ _ _).bind fun x₃ p₃ h₃ hw₃ _ => ?_
    cases get data 0 length with
    | none => exact .failed
    | some bytes =>
      have hstore := store_agrees (value_writeOffset h₃ (x.self.writeOffset+dataLen)) hw₃
        (x₁.self.headerSize+x₁.self.writeOffset) bytes
      exact hstore.sameBlocks rfl rfl

theorem write_agrees (h : x.value = some p)
    (hwritable : x.self.capacityAfterHeader ≠ kCapacityReadOnly) (v : PickleValue) :
    Agrees x (x.write alloc v) (p.write v) := by
  cases v with
  | string v =>
    exact (writeBytesCommon_agrees h _ _).bind fun x' p' h' _ _ => writeBytesCommon_agrees h' _ _
  | data v =>
    simp only [OnHeap.write,Pickle.write,OnHeap.writeData,Pickle.writeData]
    by_cases hnegative : (Int32.ofNat v.length).toInt < 0
    · rw [if_pos hnegative,if_pos hnegative]
      exact .done h hwritable (.refl _ _)
    · rw [if_neg hnegative,if_neg hnegative]
      simp only [Option.bind_eq_bind,Option.map_bind,Function.comp_def,Option.pure_def,
        Option.map_some,Option.bind_fun_some]
      exact (writeBytesCommon_agrees h _ _).bind fun x' p' h' _ _ => writeBytesCommon_agrees h' _ _
  | _ => exact writeBytesCommon_agrees h _ _

theorem copyFrom_agrees {other : PickleObject} {po : Pickle}
    (hother : other.value x.heap = some po) (hapart : ∀ a, other.header = some a →
      x.self.owned ≠ some a) (h : x.value = some p) :
    Agrees x (x.copyFrom alloc other) (Pickle.copyFrom po p) := by
  obtain ⟨header,headerSize,capacity,offset⟩ := other
  cases header with
  | none =>
    cases hother
    exact .failed
  | some a =>
    obtain ⟨block,hblock,rfl⟩ := Option.map_eq_some_iff.mp hother
    change x.heap.blocks a = some block at hblock
    simp only [OnHeap.copyFrom,Pickle.copyFrom,Option.bind_eq_bind,Option.bind_some,hblock]
    cases hsize : payloadSizeAt block with
    | none => exact .failed
    | some size =>
      rw [Option.bind_some,Option.bind_some]
      refine (resize_agrees h size).bind fun x' p' h' hwritable' hframe => ?_
      have hsame : x'.heap.blocks a = some block :=
        (hframe.kept a (by rw [hblock]; exact Option.some_ne_none _) (hapart a rfl)).trans hblock
      rw [hsame,Option.bind_some,hsize,Option.bind_some]
      cases get block 0 (headerSize+size) with
      | none =>
        cases p'.header with
        | none => exact .failed
        | some _ => exact .failed
      | some cells => exact put_agrees h' hwritable' 0 cells

theorem copy_agrees {heap : Heap Cell} {other : PickleObject} {po : Pickle}
    (hother : other.value heap = some po) :
    Agrees ⟨heap,⟨none,other.headerSize,0,other.writeOffset⟩⟩ (OnHeap.copy alloc other heap)
      po.copy := by
  obtain ⟨hheaderSize,-,hoffset⟩ := OnHeap.fields (x := ⟨heap,other⟩) hother
  rw [Pickle.copy,hheaderSize,hoffset]
  exact copyFrom_agrees hother (fun _ _ heq => nomatch heq) rfl

theorem value_kept {o : PickleObject} {po : Pickle} {h h' : Heap Cell} {mine mine' : Option Nat}
    (hframe : Heap.Frame h h' mine mine') (hvalue : o.value h = some po)
    (hapart : ∀ a, o.header = some a → mine ≠ some a) : o.value h' = some po := by
  obtain ⟨header,headerSize,capacity,offset⟩ := o
  cases header with
  | none => exact hvalue
  | some a =>
    obtain ⟨block,hblock,rfl⟩ := Option.map_eq_some_iff.mp hvalue
    have hkept := hframe.kept a (by rw [hblock]; exact Option.some_ne_none _) (hapart a rfl)
    exact Option.map_eq_some_iff.mpr ⟨block,hkept.trans hblock,rfl⟩

theorem assign_writable_agrees {other : PickleObject} {po : Pickle}
    (hother : other.value x.heap = some po) (hapart : ∀ a, other.header = some a →
      x.self.owned ≠ some a) (h : x.value = some p)
    (hwritable : x.self.capacityAfterHeader ≠ kCapacityReadOnly) :
    Agrees x (x.assign alloc other) (Pickle.assign p po) := by
  obtain ⟨hheaderSize,hcapacity,-⟩ := OnHeap.fields h
  obtain ⟨hheaderSize',-,hoffset'⟩ := OnHeap.fields (x := ⟨x.heap,other⟩) hother
  simp only [OnHeap.assign,Pickle.assign,hcapacity,if_neg hwritable,hheaderSize,hheaderSize',
    hoffset']
  split
  · have hnone : (⟨none,other.headerSize,x.self.capacityAfterHeader,x.self.writeOffset⟩ :
        PickleObject).owned = none := owned_of_writable hwritable
    have hfree := Heap.Frame.free x.heap x.self.header
    rw [← owned_of_writable hwritable,← hnone] at hfree
    have hfreed : OnHeap.value ⟨x.heap.free x.self.owned,
        ⟨none,other.headerSize,x.self.capacityAfterHeader,x.self.writeOffset⟩⟩ =
          some ⟨none,other.headerSize,x.self.capacityAfterHeader,p.writeOffset⟩ := by
      simp only [OnHeap.value,PickleObject.value,(OnHeap.fields h).2.2]
    rw [← owned_of_writable hwritable]
    refine @Agrees.after x ⟨x.heap.free x.self.owned,
      ⟨none,other.headerSize,x.self.capacityAfterHeader,x.self.writeOffset⟩⟩ _ _ hfree ?_
    refine (copyFrom_agrees (value_kept hfree hother hapart) ?_ hfreed).bind
      fun x' p' h' hwritable' _ => ?_
    · intro a _ heq
      rw [hnone] at heq
      cases heq
    · exact .done (value_writeOffset h' _) hwritable' (.refl _ _)
  · refine (copyFrom_agrees hother hapart h).bind fun x' p' h' hwritable' _ => ?_
    exact .done (value_writeOffset h' _) hwritable' (.refl _ _)

theorem assign_agrees {other : PickleObject} {po : Pickle}
    (hother : other.value x.heap = some po) (hapart : ∀ a, other.header = some a →
      x.self.owned ≠ some a) (h : x.value = some p) :
    Agrees x (x.assign alloc other) (Pickle.assign p po) := by
  by_cases hwritable : x.self.capacityAfterHeader = kCapacityReadOnly
  · obtain ⟨hheaderSize,hcapacity,hoffset⟩ := OnHeap.fields h
    have hzero : (0 : Nat) ≠ kCapacityReadOnly := by decide
    have howned : x.self.owned = none := if_pos hwritable
    have hassign : x.assign alloc other = OnHeap.assign alloc other
        { x with self.header := none, self.capacityAfterHeader := 0 } := by
      simp only [OnHeap.assign,if_pos hwritable,if_neg hzero]
    have hvalue : Pickle.assign p po =
        Pickle.assign { p with header := none, capacityAfterHeader := 0 } po := by
      simp only [Pickle.assign,hcapacity,if_pos hwritable,if_neg hzero]
    rw [hassign,hvalue]
    refine Agrees.sameBlocks (assign_writable_agrees hother (fun _ _ heq => nomatch heq) ?_ hzero)
      rfl howned.symm
    simp only [OnHeap.value,PickleObject.value,hheaderSize,hoffset]
  · exact assign_writable_agrees hother hapart h hwritable

theorem writeAll_agrees (h : x.value = some p)
    (hwritable : x.self.capacityAfterHeader ≠ kCapacityReadOnly) (vs : List PickleValue) :
    Agrees x (x.writeAll alloc vs) (Pickle.applyAll (vs.map .write) p) := by
  induction vs generalizing x p with
  | nil => exact .done h hwritable (.refl _ _)
  | cons v vs ih =>
    exact (write_agrees h hwritable v).bind fun x' p' h' hwritable' _ => ih h' hwritable'

end agrees

end MprMq.Base
