import Mathlib.Logic.Function.Basic
import MprMq.Epub.ZipStream
import MprMq.Lib.Loop
import MprMq.Lib.Run
set_option autoImplicit false

/-! `ZipArchiveReader`: the items of an archive, whose streams share the stream of the archive. -/

namespace MprMq.Epub
open MprMq.Base MprMq.Lib

structure InflateResult (S : Type) where
  state : S
  used : Nat
  out : List UInt8
  code : Int

/-- `zlib`: a stream that `inflateInit2` has made, and what `inflate` does with some input and
some room for the output. -/
structure Zlib (S : Type) where
  inflateInit2 : S
  inflate : S → List UInt8 → Nat → InflateResult S

def zOk : Int := 0
def zStreamEnd : Int := 1
def zDeflated : Nat := 8
def unzBufSize : Nat := 16384

structure TZipItemInfo where
  compressionMethod : Nat
  dataOffset : Nat
  compressedSize : Nat
  uncompressedSize : Nat
  deriving DecidableEq, Repr

/-- `availIn` is what the buffer still has for `inflate`. -/
structure DecompressStream (S : Type) where
  status : TStreamStatus
  innerStream : OffsetStream
  inflateStream : S
  availIn : List UInt8
  restUncompressedSize : Nat

namespace DecompressStream
variable {σ S : Type} [IStreamBase σ]

def error (info : TZipItemInfo) (d : DecompressStream S) (zip : σ) : Bool :=
  d.status = .invalid || info.compressionMethod ≠ zDeflated || d.innerStream.error zip ||
    d.innerStream.nSize ≠ info.compressedSize

def eof (d : DecompressStream S) : Bool := d.restUncompressedSize = 0

def rewind (info : TZipItemInfo) (d : DecompressStream S) (zip : σ) : DecompressStream S × σ :=
  ({ d with availIn := [], restUncompressedSize := info.uncompressedSize },
    d.innerStream.rewind zip)

def openStream (zlib : Zlib S) (info : TZipItemInfo) (d : DecompressStream S) (zip : σ) :
    Bool × DecompressStream S × σ :=
  if d.status = .invalid then
    let result := d.innerStream.openStream zip
    let opened : DecompressStream S := { d with status := .opened, innerStream := result.2.1 }
    if result.1 && !opened.error info result.2.2 then
      let ready : DecompressStream S :=
        { opened with inflateStream := zlib.inflateInit2, availIn := [] }
      (true,ready.rewind info result.2.2)
    else (false,{ d with innerStream := result.2.1 },result.2.2)
  else (true,d,zip)

structure InflateState (σ S : Type) where
  stream : DecompressStream S
  zip : σ
  availOut : Nat
  bytes : List UInt8

def inflateTurn (zlib : Zlib S) (s : InflateState σ S) :
    Turn (InflateState σ S) (ReadResult × DecompressStream S × σ) :=
  let result := zlib.inflate s.stream.inflateStream s.stream.availIn s.availOut
  let stream : DecompressStream S := { s.stream with
    inflateStream := result.state
    availIn := s.stream.availIn.drop result.used
    restUncompressedSize := SizeT.sub s.stream.restUncompressedSize result.out.length }
  let bytes := s.bytes ++ result.out
  if result.code = zStreamEnd then .done (delivered bytes,stream,s.zip)
  else if result.code ≠ zOk then .done ((-1,bytes),stream,s.zip)
  else .next ⟨stream,s.zip,s.availOut-result.out.length,bytes⟩

def readTurn (zlib : Zlib S) (s : InflateState σ S) :
    Turn (InflateState σ S) (ReadResult × DecompressStream S × σ) :=
  if s.availOut = 0 then .done (delivered s.bytes,s.stream,s.zip)
  else if s.stream.availIn = [] then
    let result := s.stream.innerStream.read unzBufSize s.zip
    if result.1.1 = 0 then .done (delivered s.bytes,s.stream,result.2)
    else if result.1.1 < 0 then .done ((-1,s.bytes),s.stream,result.2)
    else inflateTurn zlib
      { s with stream := { s.stream with availIn := result.1.2 }, zip := result.2 }
  else inflateTurn zlib s

/-- `none` is a loop that does not end. -/
def read (zlib : Zlib S) (fuel : Nat) (info : TZipItemInfo) (bufSize : Int)
    (d : DecompressStream S) (zip : σ) : Option (ReadResult × DecompressStream S × σ) :=
  if bufSize ≤ 0 then some ((-1,[]),d,zip)
  else if d.error info zip then some ((-1,[]),d,zip)
  else if d.eof then some ((0,[]),d,zip)
  else
    let availOut := if d.restUncompressedSize < bufSize.toNat then d.restUncompressedSize
      else bufSize.toNat
    runLoop (fun s => some (readTurn zlib s)) fuel ⟨d,zip,availOut,[]⟩

def close (d : DecompressStream S) (zip : σ) : DecompressStream S × σ :=
  let result := d.innerStream.close zip
  ({ d with status := .invalid, innerStream := result.1 },result.2)

end DecompressStream

inductive ItemStream (S : Type) where
  | stored (o : OffsetStream)
  | deflated (d : DecompressStream S)

namespace ItemStream
variable {σ S : Type} [IStreamBase σ]

def openStream (zlib : Zlib S) (info : TZipItemInfo) (zip : σ) :
    ItemStream S → Bool × ItemStream S × σ
  | stored o => ((o.openStream zip).1,stored (o.openStream zip).2.1,(o.openStream zip).2.2)
  | deflated d =>
    let result := d.openStream zlib info zip
    (result.1,deflated result.2.1,result.2.2)

def close (zip : σ) : ItemStream S → ItemStream S × σ
  | stored o => (stored (o.close zip).1,(o.close zip).2)
  | deflated d => (deflated (d.close zip).1,(d.close zip).2)

def rewind (info : TZipItemInfo) (zip : σ) : ItemStream S → ItemStream S × σ
  | stored o => (stored o,o.rewind zip)
  | deflated d => (deflated (d.rewind info zip).1,(d.rewind info zip).2)

def read (zlib : Zlib S) (fuel : Nat) (info : TZipItemInfo) (bufSize : Int) (zip : σ) :
    ItemStream S → Option (ReadResult × ItemStream S × σ)
  | stored o => some ((o.read bufSize zip).1,stored o,(o.read bufSize zip).2)
  | deflated d =>
    (d.read zlib fuel info bufSize zip).map fun result =>
      (result.1,deflated result.2.1,result.2.2)

def error (info : TZipItemInfo) (zip : σ) : ItemStream S → Bool
  | stored o => o.error zip
  | deflated d => d.error info zip

end ItemStream

/-- An archive that is open; the key of an item in `mapZipItemInfo` is its handle. -/
structure ZipArchiveReader (σ S : Type) where
  mapZipItemInfo : Text → Option TZipItemInfo
  itemStream : Text → Option (ItemStream S)
  pZipStream : σ

def replaceWin32PathSep (win32Path : Text) : Text :=
  win32Path.map fun c => if c = '\\' then '/' else c

namespace ZipArchiveReader
variable {σ S : Type} [IStreamBase σ]

/-- The stream of an item and that of the archive after a call. -/
def put (hItem : Text) (r : ZipArchiveReader σ S) (result : ItemStream S × σ) :
    ZipArchiveReader σ S :=
  { r with
    itemStream := Function.update r.itemStream hItem (some result.1)
    pZipStream := result.2 }

omit [IStreamBase σ] in
@[simp] theorem put_self (hItem : Text) (r : ZipArchiveReader σ S) (result : ItemStream S × σ) :
    (r.put hItem result).itemStream hItem = some result.1 := Function.update_self hItem _ _

omit [IStreamBase σ] in
@[simp] theorem put_pZipStream (hItem : Text) (r : ZipArchiveReader σ S)
    (result : ItemStream S × σ) : (r.put hItem result).pZipStream = result.2 := rfl

omit [IStreamBase σ] in
@[simp] theorem put_mapZipItemInfo (hItem : Text) (r : ZipArchiveReader σ S)
    (result : ItemStream S × σ) : (r.put hItem result).mapZipItemInfo = r.mapZipItemInfo := rfl

omit [IStreamBase σ] in
theorem put_of_ne {hItem other : Text} (h : other ≠ hItem) (r : ZipArchiveReader σ S)
    (result : ItemStream S × σ) : (r.put hItem result).itemStream other = r.itemStream other :=
  Function.update_of_ne h _ _

def newItemStream (zlib : Zlib S) (info : TZipItemInfo) : Option (ItemStream S) :=
  let offsetStream : OffsetStream := ⟨.invalid,info.dataOffset,info.compressedSize⟩
  if info.compressionMethod = 0 then some (.stored offsetStream)
  else if info.compressionMethod = zDeflated then
    some (.deflated ⟨.invalid,offsetStream,zlib.inflateInit2,[],0⟩)
  else none

def openItem (zlib : Zlib S) (itemPath : Text) (r : ZipArchiveReader σ S) :
    Option Text × ZipArchiveReader σ S :=
  let hItem := replaceWin32PathSep itemPath
  match r.mapZipItemInfo hItem with
  | none => (none,r)
  | some info =>
    match (r.itemStream hItem).or (newItemStream zlib info) with
    | none => (none,r)
    | some stream =>
      let result := stream.openStream zlib info r.pZipStream
      (if result.1 then some hItem else none,r.put hItem result.2)

def readItem (zlib : Zlib S) (fuel : Nat) (hItem : Text) (maxBufLen : Int)
    (r : ZipArchiveReader σ S) : Option (ReadResult × ZipArchiveReader σ S) :=
  match r.mapZipItemInfo hItem,r.itemStream hItem with
  | some info,some stream =>
    (stream.read zlib fuel info maxBufLen r.pZipStream).map fun result =>
      (result.1,r.put hItem result.2)
  | _,_ => some ((-1,[]),r)

def closeItem (hItem : Text) (r : ZipArchiveReader σ S) : ZipArchiveReader σ S :=
  match r.itemStream hItem with
  | some stream => r.put hItem (stream.close r.pZipStream)
  | none => r

def rewindItem (hItem : Text) (r : ZipArchiveReader σ S) : ZipArchiveReader σ S :=
  match r.mapZipItemInfo hItem,r.itemStream hItem with
  | some info,some stream => r.put hItem (stream.rewind info r.pZipStream)
  | _,_ => r

def readAllForItem (zlib : Zlib S) (fuel : Nat) (itemPath : Text) (maxBufLen : Int)
    (r : ZipArchiveReader σ S) : Option (ReadResult × ZipArchiveReader σ S) :=
  let hItem := replaceWin32PathSep itemPath
  if maxBufLen ≤ 0 then some ((-1,[]),r)
  else
    match r.mapZipItemInfo hItem with
    | none => some ((-1,[]),r)
    | some info =>
      if maxBufLen < info.uncompressedSize then some ((0,[]),r)
      else
        let opened := openItem zlib itemPath (r.closeItem hItem)
        if opened.1 = none then some ((-1,[]),opened.2)
        else
          (opened.2.readItem zlib fuel hItem (toInt32 info.uncompressedSize)).map fun result =>
            (result.1,result.2.closeItem hItem)

def readAllForHandle (zlib : Zlib S) (fuel : Nat) (hItem : Text) (maxBufLen : Int)
    (r : ZipArchiveReader σ S) : Option (ReadResult × ZipArchiveReader σ S) :=
  match r.mapZipItemInfo hItem with
  | none => some ((-1,[]),r)
  | some info =>
    if SizeT.ofInt maxBufLen < info.uncompressedSize then some ((0,[]),r)
    else
      match r.itemStream hItem with
      | none => some ((-1,[]),r)
      | some stream =>
        if stream.error info r.pZipStream then some ((-1,[]),r)
        else (r.rewindItem hItem).readItem zlib fuel hItem (toInt32 info.uncompressedSize)

end ZipArchiveReader

/-- The calls of an open archive, with the bytes they hand out. -/
inductive ZipCall where
  | openItem (itemPath : Text)
  | readItem (hItem : Text) (maxBufLen : Int)
  | closeItem (hItem : Text)
  | rewindItem (hItem : Text)
  | readAllForItem (itemPath : Text) (maxBufLen : Int)
  | readAllForHandle (hItem : Text) (maxBufLen : Int)

namespace ZipArchiveReader
variable {σ S : Type} [IStreamBase σ]

/-- `none` is a loop that does not end. -/
def call (zlib : Zlib S) (fuel : Nat) (r : ZipArchiveReader σ S) :
    ZipCall → Option (ZipArchiveReader σ S)
  | .openItem itemPath => some (r.openItem zlib itemPath).2
  | .readItem hItem maxBufLen => (r.readItem zlib fuel hItem maxBufLen).map Prod.snd
  | .closeItem hItem => some (r.closeItem hItem)
  | .rewindItem hItem => some (r.rewindItem hItem)
  | .readAllForItem itemPath maxBufLen =>
    (r.readAllForItem zlib fuel itemPath maxBufLen).map Prod.snd
  | .readAllForHandle hItem maxBufLen =>
    (r.readAllForHandle zlib fuel hItem maxBufLen).map Prod.snd

def system (zlib : Zlib S) (fuel : Nat) (opened : ZipArchiveReader σ S) :
    System (ZipArchiveReader σ S) ZipCall where
  init := opened
  step := call zlib fuel

end ZipArchiveReader

end MprMq.Epub
