import Mathlib.Data.Char
import MprMq.Epub.Unzip
import MprMq.Epub.ZipArchive
import MprMq.Lib.Keyed
set_option autoImplicit false

/-! `ZipArchiveReader::Open`: the items that an archive has, and an archive within an archive. -/

namespace MprMq.Epub
open MprMq.Base MprMq.Lib

/-- The characters of a `std::string` are its bytes. -/
def textOf (bytes : List UInt8) : Text := bytes.map fun b => Char.ofNat b.toNat

/-- A `char *` made a `std::string`; `none` is that it runs past its buffer. -/
def cString (buffer : List UInt8) : Option Text :=
  if 0 ∈ buffer then some (textOf (buffer.takeWhile (· ≠ 0))) else none

abbrev ItemMap : Type := List (Text × TZipItemInfo)

def ItemMap.find (m : ItemMap) (itemPath : Text) : Option TZipItemInfo :=
  (m.find? fun x => x.1 = itemPath).map Prod.snd

variable {σ S : Type} [IStreamBase σ]

namespace Unz64

def addItem (szFileName : List UInt8) (m : ItemMap) (u : Unz64 σ) : Option (ItemMap × Unz64 σ) :=
  let pos := if 0 < u.curFileInfo.compressedSize then u.unzGetCurrentFileZStreamPosEx64 else (0,u)
  if 0 < pos.1 ∨ u.curFileInfo.compressedSize = 0 then do
    let filename ← cString szFileName
    return (insertNew filename ⟨u.curFileInfo.compressionMethod,pos.1,
      u.curFileInfo.compressedSize,u.curFileInfo.uncompressedSize⟩ m,pos.2)
  else some (m,pos.2)

def itemLoop : Nat → Int × List UInt8 → ItemMap → Unz64 σ → Option (ItemMap × Unz64 σ)
  | 0,_,m,u => some (m,u)
  | n+1,(err,szFileName),m,u => do
    let (m,u) ← if err = unzOk then addItem szFileName m u else some (m,u)
    let next := u.unzGoToNextFileEx (some 512)
    itemLoop n next.1 m next.2

def getZipItemInfo (u : Unz64 σ) : Option (ItemMap × Unz64 σ) :=
  let first := u.unzGoToFirstFileEx (some 512)
  itemLoop u.gi.numberEntry first.1 [] first.2

end Unz64

/-- `InitZipArchive`; `none` is that there is no archive, or a name that runs past its buffer. -/
def initZipArchive (pZipStream : σ) : Option (ItemMap × σ) := do
  let u ← unzOpenInternal pZipStream
  let (m,u) ← u.getZipItemInfo
  return (m,u.filestream)

def ZipArchiveReader.ofItems (opened : ItemMap × σ) : ZipArchiveReader σ S :=
  ⟨opened.1.find,fun _ => none,opened.2⟩

section Files

variable (files : Text → Option (List UInt8))

/-- `files` is what stands under the paths. -/
def newFileStream (filename : Text) (flagSelfClose : Bool) : FileStream :=
  ⟨files filename,none,0,flagSelfClose⟩

def openEpub (filename : Text) : Option (ItemMap × FileStream) :=
  initZipArchive (newFileStream files filename true)

def openPart (mprxFilePath epubFilePath : Text) : Option (ItemMap × PartStream FileStream) := do
  let mprxHandler ← openEpub files mprxFilePath
  let info ← mprxHandler.1.find (replaceWin32PathSep epubFilePath)
  if info.compressionMethod ≠ 0 then none
  else initZipArchive ⟨⟨.invalid,info.dataOffset,info.compressedSize⟩,
    newFileStream files mprxFilePath false,true⟩

def getFileExtName (filename : Text) : Text :=
  if '.' ∈ filename then
    '.' :: ((filename.reverse.takeWhile (· ≠ '.')).reverse.map fun c => Char.ofNat (c.toNat ||| 32))
  else []

def isEpubItem (item : Text × TZipItemInfo) : Bool :=
  getFileExtName item.1 = ['.','e','p','u','b'] && item.2.compressionMethod = 0

/-- The path of the first item that is a book, and the empty path without one. -/
def tryToLocateEpubItem (mprxfile : Text) : Text :=
  if mprxfile = [] then []
  else
    match openEpub files mprxfile with
    | some mprxHandler => ((mprxHandler.1.find? isEpubItem).map Prod.fst).getD []
    | none => []

/-- An archive that has been opened from a file, or within another archive. -/
inductive OpenedZip (S : Type) where
  | file (reader : ZipArchiveReader FileStream S)
  | part (reader : ZipArchiveReader (PartStream FileStream) S)

def hintFor (filename : Text) (hint : Int) : Int :=
  if hint = 0 then if getFileExtName filename = ['.','m','p','r','x'] then 2 else 1 else hint

/-- `Open` with a hint, for an archive that is not encrypted. -/
def openByHint (filename : Text) (hint : Int) : Option (OpenedZip S) :=
  if filename = [] then none
  else if hintFor filename hint = 1 then
    (openEpub files filename).map fun opened => .file (.ofItems opened)
  else if hintFor filename hint = 2 then
    let epubFilePath := tryToLocateEpubItem files filename
    if epubFilePath = [] then none
    else (openPart files filename epubFilePath).map fun opened => .part (.ofItems opened)
  else none

def openByPath (mprxFileName epubPath : Text) : Option (OpenedZip S) :=
  if mprxFileName = [] ∨ epubPath = [] then none
  else (openPart files mprxFileName (replaceWin32PathSep epubPath)).map fun opened =>
    .part (.ofItems opened)

end Files

end MprMq.Epub
