import MprMq.Base.CreateDirectory
import MprMq.Base.PathAppend
import MprMq.Base.Time
import MprMq.Lib.Loop
set_option autoImplicit false

/-! `FileEnumerator`, over what the system answers about directories and files. -/

namespace MprMq.Base
open Lib

structure StatBuf extends Stat where
  stMode : Nat
  stSize : Int

def StatBuf.zero : StatBuf := ⟨⟨⟨0,0⟩,⟨0,0⟩,⟨0,0⟩⟩,0,0⟩

/-- What the calls answer: the names of a directory that can be opened, in the order in which they
are read, and the `stat` of a file; `fnmatch` is true where it does not match. -/
structure DirCalls where
  opendir : FilePath → Option (List Text)
  lstat : FilePath → Except Errno StatBuf
  stat : FilePath → Except Errno StatBuf
  fnmatch : Text → Text → Bool

namespace FileEnumerator

structure FileInfo where
  stat : StatBuf
  filename : FilePath

def FileInfo.isDirectory (info : FileInfo) : Bool := sIsDir info.stat.stMode

def kFiles : Nat := 1
def kDirectories : Nat := 2
def kIncludeDotDot : Nat := 4
def kShowSymLinks : Nat := 16

end FileEnumerator

structure FileEnumerator where
  directoryEntries : List FileEnumerator.FileInfo
  currentDirectoryEntry : Nat
  rootPath : FilePath
  recursive : Bool
  fileType : Nat
  pattern : Text
  /-- The top is in front. -/
  pendingPaths : List FilePath

namespace FileEnumerator

/-- The constructor; `none` is the failed `DCHECK`. -/
def create (rootPath : FilePath) (recursive : Bool) (fileType : Nat) : Option FileEnumerator :=
  if recursive ∧ fileType &&& kIncludeDotDot ≠ 0 then none
  else some ⟨[],0,rootPath,recursive,fileType,[],[rootPath]⟩

def createMatching (rootPath : FilePath) (recursive : Bool) (fileType : Nat) (pattern : Text) :
    Option FileEnumerator := do
  let enumerator ← create rootPath recursive fileType
  let fullPattern ← rootPath.append pattern
  return {enumerator with pattern := if pattern = [] then [] else fullPattern.value}

def has (enumerator : FileEnumerator) (flag : Nat) : Bool := enumerator.fileType &&& flag ≠ 0

def readEntry (os : DirCalls) (source : FilePath) (showLinks : Bool) (dName : Text) :
    Option FileInfo := do
  let fullName ← source.append dName
  let ret := if showLinks then os.lstat fullName else os.stat fullName
  return ⟨ret.toOption.getD .zero,.ofText dName⟩

/-- `ReadDirectory`: the entries, unless the directory cannot be opened; `none` outside is a failed
`DCHECK`. -/
def readDirectory (os : DirCalls) (source : FilePath) (showLinks : Bool) :
    Option (Option (List FileInfo)) :=
  match os.opendir source with
  | none => some none
  | some dNames => (dNames.mapM (readEntry os source showLinks)).map some

def shouldSkip (enumerator : FileEnumerator) (path : FilePath) : Bool :=
  let basename := path.baseName.value
  basename = kCurrentDirectory ∨
    (basename = kParentDirectory ∧ ¬enumerator.has kIncludeDotDot)

def takeEntry (os : DirCalls) (enumerator : FileEnumerator) (i : FileInfo) :
    Option FileEnumerator := do
  let fullPath ← enumerator.rootPath.append i.filename.value
  if enumerator.shouldSkip fullPath then return enumerator
  if enumerator.pattern ≠ [] ∧ os.fnmatch enumerator.pattern fullPath.value then return enumerator
  let pendingPaths :=
    if enumerator.recursive ∧ sIsDir i.stat.stMode then fullPath :: enumerator.pendingPaths
    else enumerator.pendingPaths
  let directoryEntries :=
    if (sIsDir i.stat.stMode ∧ enumerator.has kDirectories) ∨
        (¬sIsDir i.stat.stMode ∧ enumerator.has kFiles) then enumerator.directoryEntries ++ [i]
    else enumerator.directoryEntries
  return {enumerator with pendingPaths, directoryEntries}

def nextTurn (os : DirCalls) (enumerator : FileEnumerator) :
    Option (Turn FileEnumerator (FilePath × FileEnumerator)) :=
  match enumerator.directoryEntries[enumerator.currentDirectoryEntry]? with
  | some info => do
    return .done (← enumerator.rootPath.append info.filename.value,enumerator)
  | none =>
    match enumerator.pendingPaths with
    | [] => some (.done (.ofText [],enumerator))
    | top :: pendingPaths => do
      let enumerator := {enumerator with rootPath := top.stripTrailingSeparators, pendingPaths}
      match ← readDirectory os enumerator.rootPath (enumerator.has kShowSymLinks) with
      | none => return .next enumerator
      | some entries =>
        let enumerator := {enumerator with directoryEntries := [], currentDirectoryEntry := 0}
        return .next (← entries.foldlM (takeEntry os) enumerator)

def next (os : DirCalls) (fuel : Nat) (enumerator : FileEnumerator) :
    Option (FilePath × FileEnumerator) :=
  runLoop (nextTurn os) fuel
    {enumerator with currentDirectoryEntry := enumerator.currentDirectoryEntry+1}

/-- `GetInfo`; `none` is an index outside of the entries. -/
def getInfo (enumerator : FileEnumerator) : Option FileInfo :=
  enumerator.directoryEntries[enumerator.currentDirectoryEntry]?

def nextCalls (os : DirCalls) (fuel : Nat) : Nat → FileEnumerator →
    Option (List (FilePath × Option FileInfo))
  | 0, _ => some []
  | calls+1, enumerator => do
    let (path,enumerator) ← next os fuel enumerator
    let rest ← nextCalls os fuel calls enumerator
    return (path,enumerator.getInfo) :: rest

end FileEnumerator

end MprMq.Base
