import MprMq.Base.CreateDirectory
import MprMq.Base.HexEncode
import MprMq.Service.Message
set_option autoImplicit false

/-! `RpcTranscoderServiceHandler::Handle`. What the remote services, the directory and
the database answer is a parameter; what the handler sends and writes is a list. The
file operations under `DCHECK` succeed. -/

namespace MprMq.Service
open MprMq.Base

@[ext] structure DirEntry where
  name : Text
  nonempty : name ≠ []
  noNul : nul ∉ name
  noSeparator : ∀ c ∈ name, isSeparator c = false

instance : DecidableEq DirEntry :=
  fun _ _ => decidable_of_iff _ DirEntry.ext_iff.symm

/-- A directory as it is read: no name twice. -/
structure Listing where
  entries : List DirEntry
  distinct : entries.Nodup

/-- What the `UPDATE` comes to: it runs, or `DBException` or something else is thrown. -/
inductive UpdateResult where
  | executed | dbException | otherException
  deriving DecidableEq, Repr

/-- `progress` is the duration and the time of each response of `Transcode`,
`transcoded` is what `Finish` says; `cbcEncrypted n` is the answer to request `n`. -/
structure Remote where
  symmetricKey : Option Text
  keyPair : Option (Text × Text)
  progress : List (Text × Text)
  transcoded : Bool
  listing : Listing
  cbcEncrypted : Nat → Bool
  ecbEncrypted : Bool
  cipher : Option Text
  m3u8Content : Text
  update : UpdateResult

structure TranscodeRequest where
  mediaSourcePath : Text
  mediaTargetPath : Text
  sample : Text
  frameSize : Text
  frameAspect : Text
  frameRate : Text
  rateBit : Text
  time : Text
  urlPrefix : Text
  m3u8Name : Text
  deriving DecidableEq

structure TargetRow where
  m3u8Key : Text
  m3u8Path : Text
  videoKey : Text
  encryptedTargetContentPath : Text
  id : Int
  deriving DecidableEq

inductive Sent where
  | createSymmetricKey : Sent
  | createKeyPair : Sent
  | transcode : TranscodeRequest → Sent
  | createDirectory : Text → Sent
  | setPosixFilePermissions : Text → Nat → Sent
  | cbcEncryptFile : Text → Text → Text → Sent
  | ecbEncryptFile : Text → Text → Text → Sent
  | writeFile : Text → List UInt8 → Sent
  | publicKeyEncrypt : Text → Text → Sent
  | update : TargetRow → Sent
  deriving DecidableEq

structure World where
  directory : Text → Bool
  sent : List Sent
  output : Text

/-- How `Handle` ends: a failed check, an exception, or a status. -/
inductive Exit where
  | aborted : Exit
  | threw : Exit
  | returned : Status → Exit
  deriving DecidableEq

def World.send (w : World) (c : Sent) : World := { w with sent := w.sent ++ [c] }

/-- `DeleteFile` of a directory, recursive. -/
def World.deleteFile (w : World) (path : Text) : World :=
  { w with
    directory := fun p => w.directory p && p ≠ path && !(path ++ ['/']).isPrefixOf p }

def subpaths : Nat → FilePath → List Text
  | 0, path => [path.value]
  | n+1, path =>
    if path.dirName = path then [path.value] else path.value :: subpaths n path.dirName

theorem subpathsLoop_eq (n fuel : Nat) (path : FilePath) (acc : List FilePath) (hfuel : n < fuel)
    (hfixed : FilePath.Fixed (FilePath.dirText^[n] path.value)) :
    ∃ above, subpathsLoop fuel path.dirName path acc = some (acc ++ above) ∧
      path.value :: above.map FilePath.value = subpaths n path := by
  induction n generalizing fuel path acc with
  | zero =>
    obtain ⟨fuel,rfl⟩ := Nat.exists_eq_succ_of_ne_zero (Nat.ne_of_gt hfuel)
    have hsame := (FilePath.dirName_eq_iff path).mpr hfixed
    refine ⟨[],?_,rfl⟩
    rw [subpathsLoop_step,if_pos hsame,List.append_nil]
  | succ n ih =>
    obtain ⟨fuel,rfl⟩ := Nat.exists_eq_succ_of_ne_zero (Nat.ne_of_gt (by omega : 0 < fuel))
    rw [subpathsLoop_step,subpaths]
    split
    case isTrue => exact ⟨[],by rw [List.append_nil],rfl⟩
    case isFalse =>
      rw [Function.iterate_succ_apply,← FilePath.dirName_value] at hfixed
      obtain ⟨above,hloop,habove⟩ := ih fuel path.dirName (acc ++ [path.dirName]) (by omega) hfixed
      refine ⟨path.dirName :: above,?_,?_⟩
      · rw [hloop,List.append_assoc,List.singleton_append]
      · rw [List.map_cons,habove]

/-- They are the paths that `CreateDirectoryAndGetError` goes through. -/
theorem subpaths_collected (path : FilePath) :
    ∃ collected, subpathsLoop (path.value.length+2) path.dirName path [path] = some collected ∧
      collected.map FilePath.value = subpaths (path.value.length+1) path := by
  obtain ⟨n,hn,hfixed⟩ := FilePath.dirText_reaches path.value
  have hlast : FilePath.Fixed (FilePath.dirText^[path.value.length+1] path.value) := by
    have hsame := (FilePath.dirText_fixed_iff _).mpr hfixed
    have hadd : path.value.length+1 = (path.value.length+1-n)+n := by omega
    rw [hadd,Function.iterate_add_apply,Function.iterate_fixed hsame]
    exact hfixed
  obtain ⟨above,hloop,habove⟩ :=
    subpathsLoop_eq _ (path.value.length+2) path [path] (by omega) hlast
  exact ⟨path :: above,hloop,habove⟩

def World.createDirectory (w : World) (path : FilePath) : World :=
  { w with
    directory := fun p => w.directory p || (subpaths (path.value.length+1) path).contains p
    sent := w.sent ++ [.createDirectory path.value] }

/-- `WriteFile` returns how much it wrote, so the check fails for nothing at all. -/
def World.writeFile (w : World) (path : Text) (data : List UInt8) : Option World :=
  if data = [] then none else some (w.send (.writeFile path data))

/-- `FILE_PERMISSION_MASK`: all for the user, the group and others. -/
def filePermissionMask : Nat := 511

def bytes (t : Text) : List UInt8 := t.map (fun c => UInt8.ofNat c.toNat)

def replaceAllLoop (search replace : Text) : Nat → Text → Nat → Option Text
  | 0, _, _ => none
  | fuel+1, source, pos =>
    match find source search pos with
    | none => some source
    | some pos =>
      replaceAllLoop search replace fuel
        (source.take pos ++ replace ++ source.drop (pos+search.length)) (pos+replace.length)

def replaceAll (source search replace : Text) : Option Text :=
  replaceAllLoop search replace (source.length+1) source 0

def makeExtM3u8KeyPath (httpKeyPath : Text) : Text :=
  "METHOD=AES-128,URI=".toList ++ ['"'] ++ httpKeyPath ++ ['"']

def rewriteM3u8 (content cipher : Text) : Option Text :=
  (replaceAll content "/orig/".toList "/enc/".toList).bind (fun content =>
    replaceAll content "#EXTM3U\n".toList
      ("#EXTM3U\n".toList ++ "#EXT-X-KEY:".toList ++ cipher ++ "\n".toList))

def isTs (name : Text) : Bool :=
  name ≠ "..".toList && name ≠ ".".toList &&
    compareCaseInsensitiveASCII (FilePath.ofText name).extension ".ts".toList = 0

structure Job where
  fields : TranscoderFields
  remote : Remote
  cbcKey : Text
  publicKey : Text
  privateKey : Text

def Job.origPath (j : Job) : FilePath := FilePath.ofText j.fields.videoTargetPath

def internal (text : String) : Exit := .returned (.error .internal text.toList)

/-- "Update DB": a `DBException` is caught and logged. -/
def updateRow (j : Job) (encM3u8Path fullVideoTarget : FilePath) (w : World) : World × Exit :=
  match j.remote.update with
  | .executed =>
    (w.send (.update ⟨j.privateKey,encM3u8Path.value,j.cbcKey,fullVideoTarget.value,
      stringAsValue j.fields.targetId⟩),.returned .ok)
  | .dbException => (w,.returned .ok)
  | .otherException => (w,.threw)

/-- "Handle m3u8 content". -/
def writeM3u8 (j : Job) (encPath fullVideoTarget : FilePath) (cipher : Text) (w : World) :
    World × Exit :=
  match encPath.append j.fields.m3u8Name,rewriteM3u8 j.remote.m3u8Content cipher with
  | some encM3u8Path,some content =>
    match w.writeFile encM3u8Path.value (bytes content) with
    | some w => updateRow j encM3u8Path fullVideoTarget w
    | none => (w,.aborted)
  | _,_ => (w,.aborted)

/-- "Handle Sm2". -/
def encryptUrl (j : Job) (encPath fullVideoTarget : FilePath) (w : World) : World × Exit :=
  let origUrlPath := FilePath.ofText j.fields.urlPrefix
  match (origUrlPath.dirName.append "enc".toList).bind (fun p => p.append "video.key".toList) with
  | some encUrlPath =>
    let w := w.send (.publicKeyEncrypt j.publicKey (makeExtM3u8KeyPath encUrlPath.value))
    match j.remote.cipher with
    | some cipher => writeM3u8 j encPath fullVideoTarget cipher w
    | none => (w,internal "encrypt video key path error")
  | none => (w,.aborted)

/-- "Handle M3U8": the paths, and the key file. -/
def writeKey (j : Job) (encPath fullVideoTarget : FilePath) (w : World) : World × Exit :=
  match j.origPath.append j.fields.m3u8Name,encPath.append "video.key".toList,
    hexDecode j.cbcKey with
  | some _,some videoKeyPath,some cbcKeyHex =>
    match w.writeFile videoKeyPath.value cbcKeyHex with
    | some w => encryptUrl j encPath fullVideoTarget w
    | none => (w,.aborted)
  | _,_,_ => (w,.aborted)

/-- "Encrypt MP4 media". -/
def encryptSource (j : Job) (encPath : FilePath) (w : World) : World × Exit :=
  let videoSourceFp := FilePath.ofText j.fields.videoSourcePath
  match encPath.append videoSourceFp.baseName.value with
  | some fullVideoTarget =>
    let w := w.send (.ecbEncryptFile j.fields.videoSourcePath fullVideoTarget.value j.cbcKey)
    if j.remote.ecbEncrypted then writeKey j encPath fullVideoTarget w
    else (w.deleteFile encPath.value,internal "ECB encrypt_file error")
  | none => (w,.aborted)

/-- The loop over the directory; `none` when it comes to the end. -/
def encryptLoop (j : Job) (encPath : FilePath) :
    List DirEntry → Nat → World → World × Option Exit
  | [], _, w => (w,none)
  | e :: rest, n, w =>
    if isTs e.name then
      match j.origPath.append e.name,encPath.append e.name with
      | some source,some target =>
        let w := w.send (.cbcEncryptFile source.value target.value j.cbcKey)
        if j.remote.cbcEncrypted n then encryptLoop j encPath rest (n+1) w
        else (w.deleteFile encPath.value,some (internal "encrypt_file error"))
      | _,_ => (w,some .aborted)
    else encryptLoop j encPath rest n w

/-- "Encrypt ts Media". -/
def encryptSegments (j : Job) (w : World) : World × Exit :=
  match j.origPath.dirName.append "enc".toList with
  | some encPath =>
    let w := if w.directory encPath.value then w.deleteFile encPath.value else w
    let w := (w.createDirectory encPath).send
      (.setPosixFilePermissions encPath.value filePermissionMask)
    match encryptLoop j encPath j.remote.listing.entries 0 w with
    | (w,none) => encryptSource j encPath w
    | (w,some exit) => (w,exit)
  | none => (w,.aborted)

def TranscoderFields.request (f : TranscoderFields) : TranscodeRequest :=
  ⟨f.videoSourcePath,f.videoTargetPath,f.sample,f.frameSize,f.frameAspect,f.frameRate,f.rateBit,
    f.time,f.urlPrefix,f.videoTargetPath ++ f.m3u8Name⟩

/-- "Transcode And Segment". -/
def transcode (j : Job) (w : World) : World × Exit :=
  let w := w.send (.transcode j.fields.request)
  if j.remote.progress.all (fun p => (safeStrto64 p.1).1 && (safeStrto64 p.2).1) then
    if j.remote.transcoded then encryptSegments j w
    else (w,internal "trancode and segment error")
  else (w,.aborted)

/-- `Handle` from its first remote call on. -/
def handleFields (r : Remote) (f : TranscoderFields) (w : World) : World × Exit :=
  let w := { w with output := "hello, world".toList }.send .createSymmetricKey
  match r.symmetricKey with
  | none => (w,internal "rpc generate cbc key error")
  | some cbcKey =>
    let w := w.send .createKeyPair
    match r.keyPair with
    | none => (w,internal "rpc generate sm2 key error")
    | some (publicKey,privateKey) => transcode ⟨f,r,cbcKey,publicKey,privateKey⟩ w

def handle (parse : Text → Option Json) (r : Remote) (message : Text) (w : World) :
    World × Exit :=
  match readTranscoder parse message with
  | .aborted => (w,.aborted)
  | .returned status => (w,.returned status)
  | .proceeds f => handleFields r f w

end MprMq.Service
