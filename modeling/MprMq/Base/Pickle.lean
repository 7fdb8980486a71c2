import MprMq.Lib.Buffer
import MprMq.Lib.LittleEndian
import MprMq.Lib.SizeT
set_option autoImplicit false

/-! `Pickle`, down to the bytes of its block: the header, whose first four bytes are the payload
size, and then the payload. -/

namespace MprMq.Base
open Lib Lib.Buffer

/-- A byte of memory; `none` has not been written to. -/
abbrev Cell := Option UInt8

def align (size alignment : Nat) : Nat := (size+alignment-1)/alignment*alignment

def uint32Max : Nat := 2^32-1

def kPayloadUnit : Nat := 64

def kCapacityReadOnly : Nat := SizeT.modulus-1

/-- `header_` is the block it points to, `none` where it is NULL. -/
structure Pickle where
  header : Option (List Cell)
  headerSize : Nat
  capacityAfterHeader : Nat
  writeOffset : Nat

def load (memory : List Cell) (start length : Nat) : Option (List UInt8) :=
  (get memory start length).bind fun cells => cells.mapM id

def payloadSizeAt (block : List Cell) : Option Nat := (load block 0 4).map leValue

namespace Pickle

/-- `none` is a failed check, here and below. -/
def resize (newCapacity : Nat) (p : Pickle) : Option Pickle :=
  if p.capacityAfterHeader = kCapacityReadOnly then none
  else
    let capacity := align newCapacity kPayloadUnit
    some { p with
      header := some (Buffer.resize none (p.header.getD []) (p.headerSize+capacity))
      capacityAfterHeader := capacity }

def store (pos : Nat) (data : List UInt8) (p : Pickle) : Option Pickle := do
  let block ← p.header
  let block ← put block pos (data.map some)
  return { p with header := some block }

def setPayloadSize (size : Nat) : Pickle → Option Pickle := store 0 (leBytes 4 size)

/-- The first two constructors; the first one has a header of four bytes. -/
def ofHeaderSize (headerSize : Nat) : Option Pickle :=
  ((⟨none,headerSize,0,0⟩ : Pickle).resize kPayloadUnit).bind (setPayloadSize 0)

def new : Option Pickle := ofHeaderSize 4

def withHeader (headerSize : Int32) : Option Pickle :=
  if 4 ≤ SizeT.ofInt headerSize.toInt ∧ headerSize.toInt ≤ kPayloadUnit then
    ofHeaderSize (align (SizeT.ofInt headerSize.toInt) 4 % SizeT.modulus)
  else none

/-- The header size of data; the subtraction and the comparison are unsigned. -/
def dataHeaderSize (dataLen : Int32) (payloadSize : Nat) : Nat :=
  let headerSize := ((dataLen.toInt-payloadSize) % 2^32).toNat
  let headerSize := if (dataLen.toInt % 2^32).toNat < headerSize then 0 else headerSize
  if headerSize ≠ align headerSize 4 then 0 else headerSize

def ofData (data : List Cell) (dataLen : Int32) : Option Pickle := do
  let headerSize ← if 4 ≤ dataLen.toInt then
      (payloadSizeAt data).map (dataHeaderSize dataLen)
    else some 0
  return ⟨if headerSize = 0 then none else some data,headerSize,kCapacityReadOnly,0⟩

def copyFrom (other : Pickle) (p : Pickle) : Option Pickle := do
  let source ← other.header
  let size ← payloadSizeAt source
  let p ← p.resize size
  let block ← p.header
  let cells ← get source 0 (other.headerSize+size)
  let block ← put block 0 cells
  return { p with header := some block }

def copy (other : Pickle) : Option Pickle :=
  copyFrom other ⟨none,other.headerSize,0,other.writeOffset⟩

def assign (p other : Pickle) : Option Pickle := do
  let p := if p.capacityAfterHeader = kCapacityReadOnly then
      { p with header := none, capacityAfterHeader := 0 }
    else p
  let p := if p.headerSize ≠ other.headerSize then
      { p with header := none, headerSize := other.headerSize }
    else p
  let p ← copyFrom other p
  return { p with writeOffset := other.writeOffset }

/-- The checks that Reserve and the writes make of a length, and the rounded length. -/
def claim (length : Nat) (p : Pickle) : Option Nat :=
  let dataLen := align length 4
  if length ≤ dataLen ∧ dataLen ≤ uint32Max ∧ p.writeOffset ≤ uint32Max-dataLen then some dataLen
  else none

def reserve (length : Nat) (p : Pickle) : Option Pickle := do
  let dataLen ← p.claim length
  let newSize := p.writeOffset+dataLen
  if p.capacityAfterHeader < newSize then p.resize (p.capacityAfterHeader*2+newSize) else some p

def grow (newSize : Nat) (p : Pickle) : Option Pickle :=
  if p.capacityAfterHeader < newSize then
    let newCapacity := p.capacityAfterHeader*2
    let newCapacity :=
      if 4096 < newCapacity then align newCapacity 4096-kPayloadUnit else newCapacity
    p.resize (max newCapacity newSize)
  else some p

def claimUninitializedBytesInternal (length : Nat) (p : Pickle) : Option (Pickle × Nat) := do
  if p.capacityAfterHeader = kCapacityReadOnly then none
  else
    let dataLen ← p.claim length
    let newSize := p.writeOffset+dataLen
    let p ← p.grow newSize
    let write := p.headerSize+p.writeOffset
    let p ← p.store (write+length) (List.replicate (dataLen-length) 0)
    let p ← p.setPayloadSize newSize
    return ({ p with writeOffset := newSize },write)

def writeBytesCommon (data : List UInt8) (length : Nat) (p : Pickle) : Option Pickle := do
  if p.capacityAfterHeader = kCapacityReadOnly then none
  else
    let (p,write) ← p.claimUninitializedBytesInternal length
    let bytes ← get data 0 length
    p.store write bytes

def writeBytes (data : List UInt8) (length : Int32) : Pickle → Option Pickle :=
  writeBytesCommon data (SizeT.ofInt length.toInt)

def writePOD (bytes : List UInt8) : Pickle → Option Pickle := writeBytesCommon bytes bytes.length

def writeInt16 (v : Int16) : Pickle → Option Pickle := writePOD (leBytes 2 v.toBitVec.toNat)
def writeInt32 (v : Int32) : Pickle → Option Pickle := writePOD (leBytes 4 v.toBitVec.toNat)
def writeInt64 (v : Int64) : Pickle → Option Pickle := writePOD (leBytes 8 v.toBitVec.toNat)
def writeUInt16 (v : UInt16) : Pickle → Option Pickle := writePOD (leBytes 2 v.toNat)
def writeUInt32 (v : UInt32) : Pickle → Option Pickle := writePOD (leBytes 4 v.toNat)
def writeUInt64 (v : UInt64) : Pickle → Option Pickle := writePOD (leBytes 8 v.toNat)
def writeBool (v : Bool) : Pickle → Option Pickle := writeInt32 (if v then 1 else 0)

/-- Floating-point numbers are their bit patterns. -/
def writeFloat (bits : UInt32) : Pickle → Option Pickle := writePOD (leBytes 4 bits.toNat)
def writeDouble (bits : UInt64) : Pickle → Option Pickle := writePOD (leBytes 8 bits.toNat)

def writeString (value : List UInt8) (p : Pickle) : Option Pickle := do
  let p ← p.writeInt32 (Int32.ofNat value.length)
  p.writeBytes value (Int32.ofNat value.length)

def writeData (data : List UInt8) (length : Int32) (p : Pickle) : Option (Bool × Pickle) := do
  if length.toInt < 0 then some (false,p)
  else
    let p ← p.writeInt32 length
    return (true,← p.writeBytes data length)

end Pickle

inductive PickleValue where
  | bool (v : Bool)
  | int16 (v : Int16)
  | int32 (v : Int32)
  | int64 (v : Int64)
  | uint16 (v : UInt16)
  | uint32 (v : UInt32)
  | uint64 (v : UInt64)
  | float (bits : UInt32)
  | double (bits : UInt64)
  | string (v : List UInt8)
  | data (v : List UInt8)
  | bytes (v : List UInt8)
  deriving DecidableEq

def Pickle.write (p : Pickle) : PickleValue → Option Pickle
  | .bool v => p.writeBool v
  | .int16 v => p.writeInt16 v
  | .int32 v => p.writeInt32 v
  | .int64 v => p.writeInt64 v
  | .uint16 v => p.writeUInt16 v
  | .uint32 v => p.writeUInt32 v
  | .uint64 v => p.writeUInt64 v
  | .float bits => p.writeFloat bits
  | .double bits => p.writeDouble bits
  | .string v => p.writeString v
  | .data v => (p.writeData v (Int32.ofNat v.length)).map Prod.snd
  | .bytes v => p.writeBytes v (Int32.ofNat v.length)

inductive PickleOp where
  | write (v : PickleValue)
  | reserve (length : Nat)

def Pickle.apply (p : Pickle) : PickleOp → Option Pickle
  | .write v => p.write v
  | .reserve length => p.reserve length

def Pickle.applyAll : List PickleOp → Pickle → Option Pickle
  | [], p => some p
  | op :: ops, p => (p.apply op).bind (applyAll ops)

end MprMq.Base
