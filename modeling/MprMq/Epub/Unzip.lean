import MprMq.Epub.ZipStream
import MprMq.Lib.Scan
set_option autoImplicit false

/-! `unzip.c` over the streams of `zipio`: where the central directory is, and its records. -/

namespace MprMq.Epub
open MprMq.Base MprMq.Lib

variable {σ : Type} [IStreamBase σ]

section IOAdapter

def streamRead (size : Nat) (s : σ) : ReadResult × σ :=
  let result := IStreamBase.read (toInt32 size) s
  (if 0 < result.1.1 then result.1 else (0,result.1.2),result.2)

def streamTell (s : σ) : Nat :=
  if 0 < IStreamBase.tell s then (IStreamBase.tell s).toNat else 0

def streamSeek (offset : Nat) (origin : FromWhere) (s : σ) : Int × σ :=
  IStreamBase.seek (toInt64 offset) origin s

end IOAdapter

def unzOk : Int := 0
def unzEndOfListOfFile : Int := -100
def unzErrno : Int := -1
def unzEof : Int := 0
def unzBadZipFile : Int := -103
def zBzip2ed : Nat := 12
def maxU32 : Nat := 0xffffffff
def sizeCentralDirItem : Nat := 0x2e
def sizeZipLocalHeader : Nat := 0x1e
def bufReadComment : Nat := 0x400

def centralDirSignature : List UInt8 := [0x50,0x4b,0x05,0x06]
def centralDir64Signature : List UInt8 := [0x50,0x4b,0x06,0x07]

/-- `i` is what the byte before has left in the variable; it stays at the end of the file, where
`UNZ_EOF` is the same number as `UNZ_OK`. -/
def getByte (i : Nat) (s : σ) : (Int × Nat) × σ :=
  let result := streamRead 1 s
  if result.1.1 = 1 then ((unzOk,(result.1.2.headD 0).toNat),result.2)
  else if IStreamBase.error result.2 then ((unzErrno,i),result.2)
  else ((unzEof,i),result.2)

/-- `getShort`, `getLong` and `getLong64`, which read two, four and eight bytes; `none` is what
is not `UNZ_OK`. -/
def getBytes : Nat → Nat → σ → Option Nat × σ
  | 0,_,s => (some 0,s)
  | n+1,i,s =>
    let byte := getByte i s
    if byte.1.1 = unzOk then
      let rest := getBytes n byte.1.2 byte.2
      (rest.1.map fun x => byte.1.2+256*x,rest.2)
    else (none,byte.2)

structure Reading (σ : Type) where
  filestream : σ
  err : Int

abbrev Reader (σ : Type) : Type → Type := StateM (Reading σ)

namespace Reader

def number (n : Nat) : Reader σ Nat := fun r =>
  let result := getBytes n 0 r.filestream
  (result.1.getD 0,⟨result.2,if result.1 = none then unzErrno else r.err⟩)

def seek (offset : Nat) (origin : FromWhere) : Reader σ Unit := fun r =>
  let result := streamSeek offset origin r.filestream
  ((),⟨result.2,if result.1 ≠ 0 then unzErrno else r.err⟩)

def bytes (size : Nat) : Reader σ (List UInt8) := fun r =>
  let result := streamRead size r.filestream
  (result.1.2,⟨result.2,if result.1.1 ≠ size then unzErrno else r.err⟩)

def whenOk {α : Type} (m : Reader σ α) (otherwise : α) : Reader σ α := fun r =>
  if r.err = unzOk then m r else (otherwise,r)

def fail (err : Int) : Reader σ Unit := fun r => ((),{ r with err := err })

def check (wrong : Bool) : Reader σ Unit := fun r =>
  ((),if r.err = unzOk ∧ wrong then { r with err := unzBadZipFile } else r)

def magic (signature : Nat) : Reader σ Unit :=
  whenOk (do
    let uMagic ← number 4
    check (uMagic ≠ signature)) ()

end Reader

section SearchCentralDir

def findSignature (signature : List UInt8) (uReadPos uReadSize : Nat) (buf : List UInt8) : Nat :=
  match scanDown (fun i => (buf.drop i).take 4 = signature) (uReadSize-4) with
  | some i => uReadPos+i
  | none => 0

def searchBack (signature : List UInt8) (uSizeFile uMaxBack : Nat) : Nat → Nat → σ → Nat × σ
  | 0,_,s => (0,s)
  | turns+1,uBackRead,s =>
    if uBackRead < uMaxBack then
      let uBackRead :=
        if uMaxBack < uBackRead+bufReadComment then uMaxBack else uBackRead+bufReadComment
      let uReadPos := uSizeFile-uBackRead
      let uReadSize :=
        if bufReadComment+4 < uSizeFile-uReadPos then bufReadComment+4 else uSizeFile-uReadPos
      let sought := streamSeek uReadPos .seekSet s
      if sought.1 ≠ 0 then (0,sought.2)
      else
        let result := streamRead uReadSize sought.2
        if result.1.1 ≠ uReadSize then (0,result.2)
        else
          let uPosFound := findSignature signature uReadPos uReadSize result.1.2
          if uPosFound ≠ 0 then (uPosFound,result.2)
          else searchBack signature uSizeFile uMaxBack turns uBackRead result.2
    else (0,s)

/-- What `SearchCentralDir` and `SearchCentralDir64` begin with; 0 is that nothing is found. -/
def searchSignature (signature : List UInt8) (s : σ) : Nat × σ :=
  let sought := streamSeek 0 .seekEnd s
  if sought.1 ≠ 0 then (0,sought.2)
  else
    let uSizeFile := streamTell sought.2
    let uMaxBack := if uSizeFile < 0xffff then uSizeFile else 0xffff
    searchBack signature uSizeFile uMaxBack uMaxBack 4 sought.2

def searchCentralDir (s : σ) : Nat × σ := searchSignature centralDirSignature s

def seekTo (offset : Nat) : OptionT (StateM σ) Unit := OptionT.mk fun s =>
  let result := streamSeek offset .seekSet s
  (if result.1 = 0 then some () else none,result.2)

/-- The checks of the locator that is found, and where it points to. -/
def checkLocator (uPosFound : Nat) : OptionT (StateM σ) Nat := do
  seekTo uPosFound
  let _ ← OptionT.mk (getBytes 4 0)
  let disk ← OptionT.mk (getBytes 4 0)
  guard (disk = 0)
  let relativeOffset ← OptionT.mk (getBytes 8 0)
  let disks ← OptionT.mk (getBytes 4 0)
  guard (disks = 1)
  seekTo relativeOffset
  let signature ← OptionT.mk (getBytes 4 0)
  guard (signature = 0x06064b50)
  return relativeOffset

def searchCentralDir64 (s : σ) : Nat × σ :=
  let found := searchSignature centralDir64Signature s
  if found.1 = 0 then found
  else
    let checked := (checkLocator found.1).run found.2
    (checked.1.getD 0,checked.2)

end SearchCentralDir

/-- `unz_file_info64`, with the offset of `unz_file_info64_internal`. -/
structure UnzFileInfo where
  version : Nat
  versionNeeded : Nat
  flag : Nat
  compressionMethod : Nat
  dosDate : Nat
  crc : Nat
  compressedSize : Nat
  uncompressedSize : Nat
  sizeFilename : Nat
  sizeFileExtra : Nat
  sizeFileComment : Nat
  diskNumStart : Nat
  internalFa : Nat
  externalFa : Nat
  offsetCurfile : Nat
  deriving DecidableEq, Repr, Inhabited

structure EndOfCentralDir where
  numberEntry : Nat
  sizeCentralDir : Nat
  offsetCentralDir : Nat
  deriving DecidableEq, Repr

namespace Reader

def endOfCentralDir64 (centralPos : Nat) : Reader σ EndOfCentralDir := do
  seek centralPos .seekSet
  let _ ← number 4
  let _ ← number 8
  let _ ← number 2
  let _ ← number 2
  let numberDisk ← number 4
  let numberDiskWithCD ← number 4
  let numberEntry ← number 8
  let numberEntryCD ← number 8
  if numberEntryCD ≠ numberEntry ∨ numberDiskWithCD ≠ 0 ∨ numberDisk ≠ 0 then fail unzBadZipFile
  let sizeCentralDir ← number 8
  let offsetCentralDir ← number 8
  return ⟨numberEntry,sizeCentralDir,offsetCentralDir⟩

def endOfCentralDir (centralPos : Nat) : Reader σ EndOfCentralDir := do
  if centralPos = 0 then fail unzErrno
  seek centralPos .seekSet
  let _ ← number 4
  let numberDisk ← number 2
  let numberDiskWithCD ← number 2
  let numberEntry ← number 2
  let numberEntryCD ← number 2
  if numberEntryCD ≠ numberEntry ∨ numberDiskWithCD ≠ 0 ∨ numberDisk ≠ 0 then fail unzBadZipFile
  let sizeCentralDir ← number 4
  let offsetCentralDir ← number 4
  let _ ← number 2
  return ⟨numberEntry,sizeCentralDir,offsetCentralDir⟩

def orLong64 (value : Nat) : Reader σ Nat := if value = maxU32 then number 8 else pure value

def skipDiskStart (diskNumStart : Nat) : Reader σ Nat :=
  if diskNumStart = maxU32 then number 4 else pure 0

def extraFields : Nat → Nat → UnzFileInfo → Reader σ UnzFileInfo
  | 0,_,info => pure info
  | turns+1,acc,info =>
    if acc < info.sizeFileExtra then do
      let headerId ← number 2
      let dataSize ← number 2
      if headerId = 0x0001 then
        let uncompressedSize ← orLong64 info.uncompressedSize
        let compressedSize ← orLong64 info.compressedSize
        let offsetCurfile ← orLong64 info.offsetCurfile
        let _ ← skipDiskStart info.diskNumStart
        extraFields turns (acc+2+2+dataSize) { info with
          uncompressedSize := uncompressedSize
          compressedSize := compressedSize
          offsetCurfile := offsetCurfile }
      else
        seek dataSize .seekCur
        extraFields turns (acc+2+2+dataSize) info
    else pure info

def fixedPart : Reader σ UnzFileInfo := do
  magic 0x02014b50
  let version ← number 2
  let versionNeeded ← number 2
  let flag ← number 2
  let compressionMethod ← number 2
  let dosDate ← number 4
  let crc ← number 4
  let compressedSize ← number 4
  let uncompressedSize ← number 4
  let sizeFilename ← number 2
  let sizeFileExtra ← number 2
  let sizeFileComment ← number 2
  let diskNumStart ← number 2
  let internalFa ← number 2
  let externalFa ← number 4
  let offsetCurfile ← number 4
  return ⟨version,versionNeeded,flag,compressionMethod,dosDate,crc,compressedSize,
    uncompressedSize,sizeFilename,sizeFileExtra,sizeFileComment,diskNumStart,internalFa,externalFa,
    offsetCurfile⟩

def sizeRead (size bufferSize : Nat) : Nat := if size < bufferSize then size else bufferSize

def nameBytes (sizeFilename fileNameBufferSize : Nat) : Reader σ (List UInt8) :=
  if 0 < sizeFilename ∧ 0 < fileNameBufferSize then bytes (sizeRead sizeFilename fileNameBufferSize)
  else pure []

/-- What a call leaves in the buffer for the name, and `lSeek`. -/
def fileName (sizeFilename : Nat) : Option Nat → Reader σ (List UInt8 × Nat)
  | none => pure ([],sizeFilename)
  | some fileNameBufferSize => do
    let name ← nameBytes sizeFilename fileNameBufferSize
    return (if sizeFilename < fileNameBufferSize then name++[0] else name,
      sizeFilename-sizeRead sizeFilename fileNameBufferSize)

def extraPart (lSeek : Nat) (info : UnzFileInfo) : Reader σ UnzFileInfo :=
  if info.sizeFileExtra = 0 then pure info
  else if lSeek = 0 then extraFields info.sizeFileExtra 0 info
  else do
    seek lSeek .seekCur
    extraFields info.sizeFileExtra 0 info

/-- `GetCurrentFileInfoInternal` without buffers for the extra field and the comment. -/
def currentFileInfo (pos : Nat) (fileNameBufferSize : Option Nat) :
    Reader σ (UnzFileInfo × List UInt8) := do
  seek pos .seekSet
  let info ← fixedPart
  let name ← whenOk (fileName info.sizeFilename fileNameBufferSize) ([],info.sizeFilename)
  let info ← whenOk (extraPart name.2 info) info
  return (info,name.1)

end Reader

structure Unz64 (σ : Type) where
  filestream : σ
  gi : EndOfCentralDir
  byteBeforeTheZipfile : Nat
  numFile : Nat
  posInCentralDir : Nat
  currentFileOk : Bool
  curFileInfo : UnzFileInfo

namespace Reader

def coherencyHeader (info : UnzFileInfo) : Reader σ Nat := do
  magic 0x04034b50
  let _ ← number 2
  let uFlags ← number 2
  let method ← number 2
  check (method ≠ info.compressionMethod)
  check (info.compressionMethod ≠ 0 ∧ info.compressionMethod ≠ zBzip2ed ∧
    info.compressionMethod ≠ 8)
  let _ ← number 4
  let crc ← number 4
  check (crc ≠ info.crc ∧ uFlags &&& 8 = 0)
  let sizeCompr ← number 4
  check (sizeCompr ≠ 0xFFFFFFFF ∧ sizeCompr ≠ info.compressedSize ∧ uFlags &&& 8 = 0)
  let sizeUncompr ← number 4
  check (sizeUncompr ≠ 0xFFFFFFFF ∧ sizeUncompr ≠ info.uncompressedSize ∧ uFlags &&& 8 = 0)
  let sizeFilename ← number 2
  check (sizeFilename ≠ info.sizeFilename)
  let sizeExtraField ← number 2
  return sizeFilename+sizeExtraField

/-- The local header of the current file; the result is `iSizeVar`. -/
def checkCurrentFileCoherencyHeader (info : UnzFileInfo) (byteBefore : Nat) : Reader σ Nat := do
  seek (SizeT.add info.offsetCurfile byteBefore) .seekSet
  whenOk (coherencyHeader info) 0

end Reader

namespace Unz64

/-- `GetCurrentFileInfoInternal` for the current file, which becomes usable or not. -/
def setCurrentFile (fileNameBufferSize : Option Nat) (u : Unz64 σ) :
    (Int × List UInt8) × Unz64 σ :=
  let result := Reader.currentFileInfo (SizeT.add u.posInCentralDir u.byteBeforeTheZipfile)
    fileNameBufferSize ⟨u.filestream,unzOk⟩
  ((result.2.err,result.1.2),{ u with
    filestream := result.2.filestream
    currentFileOk := result.2.err = unzOk
    curFileInfo := if result.2.err = unzOk then result.1.1 else u.curFileInfo })

def unzGoToFirstFileEx (fileNameBufferSize : Option Nat) (u : Unz64 σ) :
    (Int × List UInt8) × Unz64 σ :=
  setCurrentFile fileNameBufferSize
    { u with posInCentralDir := u.gi.offsetCentralDir, numFile := 0 }

def unzGoToNextFileEx (fileNameBufferSize : Option Nat) (u : Unz64 σ) :
    (Int × List UInt8) × Unz64 σ :=
  if !u.currentFileOk then ((unzEndOfListOfFile,[]),u)
  else if u.gi.numberEntry ≠ 0xffff ∧ u.numFile+1 = u.gi.numberEntry then
    ((unzEndOfListOfFile,[]),u)
  else
    setCurrentFile fileNameBufferSize { u with
      posInCentralDir := SizeT.add u.posInCentralDir (sizeCentralDirItem+
        u.curFileInfo.sizeFilename+u.curFileInfo.sizeFileExtra+u.curFileInfo.sizeFileComment)
      numFile := u.numFile+1 }

def unzGetCurrentFileZStreamPosEx64 (u : Unz64 σ) : Nat × Unz64 σ :=
  let result := Reader.checkCurrentFileCoherencyHeader u.curFileInfo u.byteBeforeTheZipfile
    ⟨u.filestream,unzOk⟩
  (if result.2.err = unzOk then
      SizeT.add (SizeT.add u.byteBeforeTheZipfile u.curFileInfo.offsetCurfile)
        (sizeZipLocalHeader+result.1)
    else 0,{ u with filestream := result.2.filestream })

end Unz64

/-- The end of the archive: `central_pos`, what it says, and the `err` there has been. -/
def readEnd (s : σ) : (Nat × EndOfCentralDir) × Reading σ :=
  let found64 := searchCentralDir64 s
  if found64.1 ≠ 0 then
    let result := Reader.endOfCentralDir64 found64.1 ⟨found64.2,unzOk⟩
    ((found64.1,result.1),result.2)
  else
    let found := searchCentralDir found64.2
    let result := Reader.endOfCentralDir found.1 ⟨found.2,unzOk⟩
    ((found.1,result.1),result.2)

/-- `none` is `NULL`. -/
def unzOpenInternal (s : σ) : Option (Unz64 σ) :=
  let opened := IStreamBase.openStream s
  if !opened.1 then none
  else
    let ending := readEnd opened.2
    let centralPos := ending.1.1
    let gi := ending.1.2
    let centralEnd := SizeT.add gi.offsetCentralDir gi.sizeCentralDir
    if ending.2.err ≠ unzOk ∨ centralPos < centralEnd then none
    else
      let u : Unz64 σ := {
        filestream := ending.2.filestream
        gi := gi
        byteBeforeTheZipfile := centralPos-centralEnd
        numFile := 0
        posInCentralDir := 0
        currentFileOk := false
        curFileInfo := default }
      some (u.unzGoToFirstFileEx none).2

end MprMq.Epub
