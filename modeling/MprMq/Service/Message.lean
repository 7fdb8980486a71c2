import MprMq.Base.FilePath
import MprMq.Base.StringAsValue
set_option autoImplicit false

/-! The messages of the queue, and what the two handlers do with them before their
first remote call. The parser is a parameter: which text is which document is its
business, and a text it rejects is `none`. -/

namespace MprMq.Service
open MprMq.Base

inductive Json where
  | null : Json
  | bool : Bool → Json
  | number : Text → Json
  | string : Text → Json
  | array : List Json → Json
  | object : List (Text × Json) → Json

namespace Json

/-- `HasMember`; `none` is the failed assertion on what is no object. -/
def hasMember (name : Text) : Json → Option Bool
  | .object members => some (members.lookup name).isSome
  | _ => none

/-- `operator[]`; `none` is the failed assertion, also for a missing member. -/
def member (name : Text) : Json → Option Json
  | .object members => members.lookup name
  | _ => none

/-- `GetString`, as the `std::string` made from it; `none` is the failed assertion. -/
def getString : Json → Option Text
  | .string t => some (cString t)
  | _ => none

def field (name : Text) (d : Json) : Option Text := (d.member name).bind getString

end Json

/-- How far a handler gets: the process dies, or `Handle` returns, or it has what it
reads of the message and goes on. -/
inductive Reading (φ : Type) where
  | aborted : Reading φ
  | returned : Status → Reading φ
  | proceeds : φ → Reading φ
  deriving DecidableEq

def cannotParse (message : Text) : Status :=
  .error .invalidArgument ("Can't parse json: ".toList ++ message)

structure EpubFields where
  bookId : Text
  bookPath : Text
  deriving DecidableEq

def EpubFields.named (f : EpubFields) : List (Text × Text) :=
  [("book_id".toList,f.bookId),("book_path".toList,f.bookPath)]

def EpubFields.catalogPath (f : EpubFields) : FilePath :=
  (FilePath.ofText f.bookPath).replaceExtension ".info".toList

def EpubFields.bookIdInt (f : EpubFields) : Int := stringAsValue f.bookId

def EpubFields.read (d : Json) : Option EpubFields := do
  let bookIdVal ← d.member "book_id".toList
  let bookPathVal ← d.member "book_path".toList
  let bookId ← bookIdVal.getString
  let bookPath ← bookPathVal.getString
  pure ⟨bookId,bookPath⟩

/-- `RpcEpubInfoServiceHandler::Handle` up to the request. -/
def readEpub (parse : Text → Option Json) (message : Text) : Reading EpubFields :=
  match parse (cString message) with
  | none => .returned (cannotParse message)
  | some d =>
    match d.hasMember "book_id".toList,d.hasMember "book_path".toList with
    | some hasId,some hasPath =>
      if !hasId && !hasPath then
        .returned (.error .invalidArgument "expect book_id and book_path".toList)
      else
        match EpubFields.read d with
        | some f => .proceeds f
        | none => .aborted
    | _,_ => .aborted

structure TranscoderFields where
  videoSourcePath : Text
  videoTargetPath : Text
  targetId : Text
  sample : Text
  frameSize : Text
  frameAspect : Text
  frameRate : Text
  rateBit : Text
  time : Text
  urlPrefix : Text
  m3u8Name : Text
  deriving DecidableEq

def TranscoderFields.named (f : TranscoderFields) : List (Text × Text) :=
  [("video_source_path".toList,f.videoSourcePath),("video_target_path".toList,f.videoTargetPath),
    ("target_id".toList,f.targetId),("sample".toList,f.sample),("frame_size".toList,f.frameSize),
    ("frame_aspect".toList,f.frameAspect),("frame_rate".toList,f.frameRate),
    ("rate_bit".toList,f.rateBit),("time".toList,f.time),("url_prefix".toList,f.urlPrefix),
    ("m3u8_name".toList,f.m3u8Name)]

def TranscoderFields.read (d : Json) : Option TranscoderFields := do
  let videoSourcePath ← d.field "video_source_path".toList
  let videoTargetPath ← d.field "video_target_path".toList
  let targetId ← d.field "target_id".toList
  let sample ← d.field "sample".toList
  let frameSize ← d.field "frame_size".toList
  let frameAspect ← d.field "frame_aspect".toList
  let frameRate ← d.field "frame_rate".toList
  let rateBit ← d.field "rate_bit".toList
  let time ← d.field "time".toList
  let urlPrefix ← d.field "url_prefix".toList
  let m3u8Name ← d.field "m3u8_name".toList
  pure ⟨videoSourcePath,videoTargetPath,targetId,sample,frameSize,frameAspect,frameRate,rateBit,
    time,urlPrefix,m3u8Name⟩

/-- `RpcTranscoderServiceHandler::Handle` up to its first remote call. -/
def readTranscoder (parse : Text → Option Json) (message : Text) : Reading TranscoderFields :=
  match parse (cString message) with
  | none => .returned (cannotParse message)
  | some d =>
    match TranscoderFields.read d with
    | some f => .proceeds f
    | none => .aborted

end MprMq.Service
