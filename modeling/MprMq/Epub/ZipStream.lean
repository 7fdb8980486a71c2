import MprMq.Base.RefCounted
import MprMq.Base.Status
import MprMq.Lib.SizeT
set_option autoImplicit false

/-! The streams of `zipio` that are read at any place: a file, and a part of another stream. -/

namespace MprMq.Epub
open MprMq.Base MprMq.Lib

def toInt64 (n : Int) : Int := Int.bmod n (2^64)

theorem toInt64_of_range {n : Int} (hlow : -2^63 ≤ n) (hhigh : n < 2^63) : toInt64 n = n := by
  apply Int.bmod_eq_of_le_mul_two <;> omega

inductive FromWhere where
  | seekSet
  | seekCur
  | seekEnd
  deriving DecidableEq, Repr

def FromWhere.start (pos length : Nat) : FromWhere → Int
  | .seekSet => 0
  | .seekCur => pos
  | .seekEnd => length

inductive TStreamStatus where
  | invalid
  | opened
  | eof
  | error
  deriving DecidableEq, Repr

/-- What a read returns, and what it has put into the buffer. -/
abbrev ReadResult : Type := Int × List UInt8

def delivered (bytes : List UInt8) : ReadResult := (bytes.length,bytes)

class IStreamBase (σ : Type) where
  size : σ → Nat
  seekable : σ → Bool
  openStream : σ → Bool × σ
  tell : σ → Int
  rewind : σ → σ
  seek : Int → FromWhere → σ → Int × σ
  read : Int → σ → ReadResult × σ
  close : σ → σ
  eof : σ → Bool
  error : σ → Bool
  /-- `STREAM_FLAG_SELF_CLOSE`. -/
  selfClose : σ → Bool

structure File where
  contents : List UInt8
  pos : Nat
  eof : Bool
  deriving DecidableEq, Repr

namespace File

def fseek (offset : Int) (fromWhere : FromWhere) (f : File) : Int × File :=
  let base : Int := match fromWhere with
    | .seekSet => 0
    | .seekCur => f.pos
    | .seekEnd => f.contents.length
  if base+offset < 0 then (-1,f)
  else (0,{ f with pos := (base+offset).toNat, eof := false })

def fread (count : Nat) (f : File) : List UInt8 × File :=
  let bytes := (f.contents.drop f.pos).take count
  (bytes,{ f with pos := f.pos+bytes.length, eof := f.eof || bytes.length < count })

end File

/-- `file` is what `fopen` finds at the path of the stream. -/
structure FileStream where
  file : Option (List UInt8)
  hFile : Option File
  nSize : Nat
  flagSelfClose : Bool
  deriving DecidableEq, Repr

namespace FileStream

def openStream (s : FileStream) : Bool × FileStream :=
  match s.hFile,s.file with
  | some _,_ => (true,s)
  | none,some contents =>
    (true,{ s with hFile := some ⟨contents,0,false⟩, nSize := contents.length })
  | none,none => (false,s)

def tell (s : FileStream) : Int :=
  match s.hFile with
  | some f => f.pos
  | none => -1

def rewind (s : FileStream) : FileStream :=
  { s with hFile := s.hFile.map fun f => { f with pos := 0, eof := false } }

def seek (offset : Int) (fromWhere : FromWhere) (s : FileStream) : Int × FileStream :=
  match s.hFile with
  | some f => ((f.fseek offset fromWhere).1,{ s with hFile := some (f.fseek offset fromWhere).2 })
  | none => (-1,s)

def read (bufSize : Int) (s : FileStream) : ReadResult × FileStream :=
  match s.hFile with
  | some f =>
    let result := f.fread (SizeT.ofInt bufSize)
    ((toInt32 result.1.length,result.1),{ s with hFile := some result.2 })
  | none => ((-1,[]),s)

def close (s : FileStream) : FileStream :=
  match s.hFile with
  | some _ => { s with hFile := none, nSize := 0 }
  | none => s

def eof (s : FileStream) : Bool :=
  match s.hFile with
  | some f => f.eof
  | none => true

def error (s : FileStream) : Bool := s.hFile.isNone

instance : IStreamBase FileStream where
  size s := s.nSize
  seekable _ := true
  openStream := openStream
  tell := tell
  rewind := rewind
  seek := seek
  read := read
  close := close
  eof := eof
  error := error
  selfClose s := s.flagSelfClose

end FileStream

/-- What an `OffsetStream` has of its own; the stream inside it may be shared with others. -/
structure OffsetStream where
  status : TStreamStatus
  nOffset : Nat
  nSize : Nat
  deriving DecidableEq, Repr

namespace OffsetStream
variable {σ : Type} [IStreamBase σ]

def error (o : OffsetStream) (inner : σ) : Bool :=
  o.status = .invalid || o.nSize = 0 || IStreamBase.error inner ||
    IStreamBase.size inner < SizeT.add o.nOffset o.nSize

def rewind (o : OffsetStream) (inner : σ) : σ :=
  (IStreamBase.seek (toInt64 o.nOffset) .seekSet inner).2

def openStream (o : OffsetStream) (inner : σ) : Bool × OffsetStream × σ :=
  if o.status = .invalid then
    let opened : OffsetStream := { o with status := .opened }
    let result := IStreamBase.openStream inner
    if result.1 && !opened.error result.2 then (true,opened,opened.rewind result.2)
    else (false,o,result.2)
  else (true,o,inner)

def tell (o : OffsetStream) (inner : σ) : Int :=
  if IStreamBase.tell inner ≠ -1 then toInt64 (IStreamBase.tell inner - o.nOffset) else -1

def seek (offset : Int) (fromWhere : FromWhere) (o : OffsetStream) (inner : σ) : Int × σ :=
  if !IStreamBase.seekable inner then (-1,inner)
  else match fromWhere with
  | .seekSet => IStreamBase.seek (toInt64 (o.nOffset+offset)) .seekSet inner
  | .seekCur =>
    if IStreamBase.tell inner = -1 then (-1,inner)
    else IStreamBase.seek (toInt64 (IStreamBase.tell inner + offset)) .seekSet inner
  | .seekEnd => IStreamBase.seek (toInt64 (o.nOffset+(o.nSize+offset))) .seekSet inner

def eof (o : OffsetStream) (inner : σ) : Bool :=
  IStreamBase.tell inner ≠ -1 ∧
    SizeT.add o.nOffset o.nSize ≤ SizeT.ofInt (IStreamBase.tell inner)

def read (bufSize : Int) (o : OffsetStream) (inner : σ) : ReadResult × σ :=
  if bufSize ≤ 0 then ((-1,[]),inner)
  else if o.error inner then ((-1,[]),inner)
  else if o.eof inner then ((0,[]),inner)
  else
    let pos := IStreamBase.tell inner
    if SizeT.ofInt pos < o.nOffset then ((-1,[]),inner)
    else if SizeT.add o.nOffset o.nSize ≤ SizeT.ofInt pos then ((0,[]),inner)
    else
      let nRead := toInt32 (o.nOffset+o.nSize-pos)
      IStreamBase.read (if bufSize < nRead then bufSize else nRead) inner

def close (o : OffsetStream) (inner : σ) : OffsetStream × σ :=
  ({ o with status := .invalid },
    if IStreamBase.selfClose inner then inner else IStreamBase.close inner)

end OffsetStream

/-- An `OffsetStream` that is alone with the stream inside it. -/
structure PartStream (σ : Type) where
  own : OffsetStream
  inner : σ
  flagSelfClose : Bool

instance {σ : Type} [IStreamBase σ] : IStreamBase (PartStream σ) where
  size s := s.own.nSize
  seekable s := IStreamBase.seekable s.inner
  openStream s :=
    let result := s.own.openStream s.inner
    (result.1,{ s with own := result.2.1, inner := result.2.2 })
  tell s := s.own.tell s.inner
  rewind s := { s with inner := s.own.rewind s.inner }
  seek offset fromWhere s :=
    let result := s.own.seek offset fromWhere s.inner
    (result.1,{ s with inner := result.2 })
  read bufSize s :=
    let result := s.own.read bufSize s.inner
    (result.1,{ s with inner := result.2 })
  close s :=
    let result := s.own.close s.inner
    { s with own := result.1, inner := result.2 }
  eof s := s.own.eof s.inner
  error s := s.own.error s.inner
  selfClose s := s.flagSelfClose

/-- What it is to be open on some contents and to stand at a place of them. -/
class RandomAccess (σ : Type) [IStreamBase σ] where
  At : List UInt8 → Nat → σ → Prop
  le {contents : List UInt8} {pos : Nat} {s : σ} : At contents pos s → pos ≤ contents.length
  length_lt {contents : List UInt8} {pos : Nat} {s : σ} : At contents pos s →
    contents.length < 2^63
  size_eq {contents : List UInt8} {pos : Nat} {s : σ} : At contents pos s →
    IStreamBase.size s = contents.length
  seekable_eq {contents : List UInt8} {pos : Nat} {s : σ} : At contents pos s →
    IStreamBase.seekable s = true
  openStream_eq {contents : List UInt8} {pos : Nat} {s : σ} : At contents pos s →
    IStreamBase.openStream s = (true,s)
  tell_eq {contents : List UInt8} {pos : Nat} {s : σ} : At contents pos s →
    IStreamBase.tell s = pos
  error_eq {contents : List UInt8} {pos : Nat} {s : σ} : At contents pos s →
    IStreamBase.error s = false
  seek_spec {contents : List UInt8} {pos offset : Nat} {s : σ} : At contents pos s →
    offset ≤ contents.length →
    ∃ t, IStreamBase.seek offset .seekSet s = (0,t) ∧ At contents offset t ∧
      IStreamBase.selfClose t = IStreamBase.selfClose s
  seekCur_spec {contents : List UInt8} {pos offset : Nat} {s : σ} : At contents pos s →
    pos+offset ≤ contents.length →
    ∃ t, IStreamBase.seek offset .seekCur s = (0,t) ∧ At contents (pos+offset) t ∧
      IStreamBase.selfClose t = IStreamBase.selfClose s
  seekEnd_spec {contents : List UInt8} {pos : Nat} {s : σ} : At contents pos s →
    ∃ t, IStreamBase.seek 0 .seekEnd s = (0,t) ∧ At contents contents.length t ∧
      IStreamBase.selfClose t = IStreamBase.selfClose s
  read_spec {contents : List UInt8} {pos count : Nat} {s : σ} : At contents pos s →
    0 < count → count < 2^31 →
    ∃ t, IStreamBase.read count s = (delivered ((contents.drop pos).take count),t) ∧
      At contents (pos+((contents.drop pos).take count).length) t ∧
      IStreamBase.selfClose t = IStreamBase.selfClose s

namespace FileStream

structure OpenAt (contents : List UInt8) (pos : Nat) (s : FileStream) : Prop where
  hFile : ∃ eof, s.hFile = some ⟨contents,pos,eof⟩
  nSize : s.nSize = contents.length
  le : pos ≤ contents.length
  length_lt : contents.length < 2^63

variable {contents : List UInt8} {pos : Nat} {s : FileStream}

theorem OpenAt.seek (h : OpenAt contents pos s) {offset : Int} {fromWhere : FromWhere} {next : Nat}
    (hle : next ≤ contents.length)
    (hnext : (next : Int) = fromWhere.start pos contents.length+offset) :
    ∃ t, s.seek offset fromWhere = (0,t) ∧ OpenAt contents next t ∧
      t.flagSelfClose = s.flagSelfClose := by
  obtain ⟨eof,hfile⟩ := h.hFile
  refine ⟨{ s with hFile := some ⟨contents,next,false⟩ },?_,⟨⟨false,rfl⟩,h.nSize,hle,h.length_lt⟩,
    rfl⟩
  have hfseek : (⟨contents,pos,eof⟩ : File).fseek offset fromWhere =
      (0,⟨contents,next,false⟩) := by
    have hbase : (⟨contents,pos,eof⟩ : File).fseek offset fromWhere =
        if fromWhere.start pos contents.length+offset < 0 then (-1,⟨contents,pos,eof⟩)
        else (0,⟨contents,(fromWhere.start pos contents.length+offset).toNat,false⟩) := by
      cases fromWhere with
      | seekSet => rfl
      | seekCur => rfl
      | seekEnd => rfl
    rw [hbase,← hnext,if_neg (by omega),Int.toNat_natCast]
  unfold FileStream.seek
  rw [hfile]
  dsimp only
  rw [hfseek]

theorem OpenAt.read (h : OpenAt contents pos s) {count : Nat} (hcount : count < 2^31) :
    ∃ t, s.read count = (delivered ((contents.drop pos).take count),t) ∧
      OpenAt contents (pos+((contents.drop pos).take count).length) t ∧
      t.flagSelfClose = s.flagSelfClose := by
  obtain ⟨eof,hfile⟩ := h.hFile
  have hsize : SizeT.ofInt count = count := by
    have heq := SizeT.ofInt_eq (n := count) (by omega) (by omega)
    omega
  have hlen : ((contents.drop pos).take count).length ≤ count := List.length_take_le count _
  have hint := toInt32_of_range (n := (((contents.drop pos).take count).length : Nat))
    (by omega) (by omega)
  have hfread : (⟨contents,pos,eof⟩ : File).fread count = ((contents.drop pos).take count,
      ⟨contents,pos+((contents.drop pos).take count).length,
        eof || ((contents.drop pos).take count).length < count⟩) := rfl
  unfold FileStream.read
  rw [hfile]
  dsimp only
  rw [hsize,hfread]
  dsimp only
  rw [hint]
  refine ⟨_,rfl,⟨⟨_,rfl⟩,h.nSize,?_,h.length_lt⟩,rfl⟩
  have hle := h.le
  simp
  omega

instance : RandomAccess FileStream where
  At := OpenAt
  le h := h.le
  length_lt h := h.length_lt
  size_eq h := h.nSize
  seekable_eq _ := rfl
  openStream_eq h := by
    obtain ⟨eof,hfile⟩ := h.hFile
    simp [IStreamBase.openStream,openStream,hfile]
  tell_eq h := by
    obtain ⟨eof,hfile⟩ := h.hFile
    simp [IStreamBase.tell,tell,hfile]
  error_eq h := by
    obtain ⟨eof,hfile⟩ := h.hFile
    simp [IStreamBase.error,error,hfile]
  seek_spec h hle := h.seek hle (by simp [FromWhere.start])
  seekCur_spec h hle := h.seek hle rfl
  seekEnd_spec h := h.seek (Nat.le_refl _) (by simp [FromWhere.start])
  read_spec h _ hcount := h.read hcount

end FileStream

namespace OffsetStream

def part (o : OffsetStream) (contents : List UInt8) : List UInt8 :=
  (contents.drop o.nOffset).take o.nSize

/-- The part is all there, and an `int` counts it. -/
structure Inside (contents : List UInt8) (o : OffsetStream) : Prop where
  le : o.nOffset+o.nSize ≤ contents.length
  nSize : o.nSize < 2^31

variable {σ : Type} [IStreamBase σ] [RandomAccess σ] {contents : List UInt8} {pos : Nat}
  {o : OffsetStream} {inner : σ}

theorem Inside.length_part (h : Inside contents o) : (o.part contents).length = o.nSize := by
  have hle := h.le
  simp [part]
  omega

theorem Inside.add_eq (h : Inside contents o) (hat : RandomAccess.At contents pos inner) :
    SizeT.add o.nOffset o.nSize = o.nOffset+o.nSize := by
  have hle := h.le
  have hlt := RandomAccess.length_lt hat
  exact SizeT.add_eq (by rw [SizeT.modulus]; omega)

theorem error_eq (h : Inside contents o) (hat : RandomAccess.At contents pos inner) :
    o.error inner = decide (o.status = .invalid ∨ o.nSize = 0) := by
  have hle := h.le
  rw [error,h.add_eq hat,RandomAccess.error_eq hat,RandomAccess.size_eq hat,Bool.or_false,
    decide_eq_false (by omega : ¬ contents.length < o.nOffset+o.nSize),Bool.or_false,
    Bool.decide_or]

theorem ofInt_tell (hat : RandomAccess.At contents pos inner) :
    SizeT.ofInt (IStreamBase.tell inner) = pos := by
  have hle := RandomAccess.le hat
  have hlt := RandomAccess.length_lt hat
  have heq := SizeT.ofInt_eq (n := pos) (by omega) (by omega)
  rw [RandomAccess.tell_eq hat]
  omega

theorem eof_eq (h : Inside contents o) (hat : RandomAccess.At contents pos inner) :
    o.eof inner = decide (o.nOffset+o.nSize ≤ pos) := by
  rw [eof,h.add_eq hat,ofInt_tell hat,RandomAccess.tell_eq hat]
  simp

/-- Where there is nothing to be read, nothing happens. -/
theorem read_outside (h : Inside contents o) (hat : RandomAccess.At contents pos inner)
    {bufSize : Int} (hout : bufSize ≤ 0 ∨ o.status = .invalid ∨ o.nSize = 0 ∨ pos < o.nOffset ∨
      o.nOffset+o.nSize ≤ pos) :
    ∃ n ≤ 0, o.read bufSize inner = ((n,[]),inner) := by
  unfold OffsetStream.read
  rw [error_eq h hat,eof_eq h hat]
  dsimp only
  rw [ofInt_tell hat]
  split
  case isTrue => exact ⟨-1,by omega,rfl⟩
  case isFalse hbuf =>
    split
    case isTrue => exact ⟨-1,by omega,rfl⟩
    case isFalse herror =>
      split
      case isTrue => exact ⟨0,by omega,rfl⟩
      case isFalse heof =>
        split
        case isTrue => exact ⟨-1,by omega,rfl⟩
        case isFalse hlow =>
          rw [decide_eq_true_eq,not_or] at herror
          rw [decide_eq_true_eq] at heof
          rcases hout with hout | hout | hout | hout | hout
          · exact absurd hout hbuf
          · exact absurd hout herror.1
          · exact absurd hout herror.2
          · exact absurd hout hlow
          · exact absurd hout heof

/-- Within the part, a read is one of the part. -/
theorem read_inside (h : Inside contents o) (hat : RandomAccess.At contents pos inner)
    (hstatus : o.status ≠ .invalid) (hlow : o.nOffset ≤ pos) (hhigh : pos < o.nOffset+o.nSize)
    {bufSize : Nat} (hbuf : 0 < bufSize) :
    ∃ t, o.read bufSize inner =
        (delivered (((o.part contents).drop (pos-o.nOffset)).take bufSize),t) ∧
      RandomAccess.At contents
        (pos+(((o.part contents).drop (pos-o.nOffset)).take bufSize).length) t ∧
      IStreamBase.selfClose t = IStreamBase.selfClose inner := by
  have hsize := h.nSize
  have hbytes : ((o.part contents).drop (pos-o.nOffset)).take bufSize =
      (contents.drop pos).take (min bufSize (o.nOffset+o.nSize-pos)) := by
    rw [part,List.drop_take,List.drop_drop,List.take_take]
    congr 1
    · omega
    · congr 1
      omega
  have hint : toInt32 (o.nOffset+o.nSize-pos) = (o.nOffset+o.nSize-pos : Nat) := by
    rw [toInt32_of_range (by omega) (by omega)]
    omega
  have hcount : (if (bufSize : Int) < (o.nOffset+o.nSize-pos : Nat) then (bufSize : Int)
      else (o.nOffset+o.nSize-pos : Nat)) = (min bufSize (o.nOffset+o.nSize-pos) : Nat) := by
    split
    case isTrue => omega
    case isFalse => omega
  obtain ⟨t,hread,hnext,hflag⟩ := RandomAccess.read_spec hat
    (by omega : 0 < min bufSize (o.nOffset+o.nSize-pos)) (by omega)
  refine ⟨t,?_,by rw [hbytes]; exact hnext,hflag⟩
  unfold OffsetStream.read
  rw [error_eq h hat,eof_eq h hat]
  dsimp only
  rw [ofInt_tell hat,h.add_eq hat,RandomAccess.tell_eq hat,hint,hcount,hread,hbytes,
    if_neg (by omega),if_neg (by simp [hstatus]; omega),if_neg (by simp; omega),
    if_neg (by omega),if_neg (by omega)]

theorem read_end (h : Inside contents o) (hat : RandomAccess.At contents pos inner)
    (hstatus : o.status ≠ .invalid) (hsize : 0 < o.nSize) (hpos : o.nOffset+o.nSize ≤ pos)
    {bufSize : Nat} (hbuf : 0 < bufSize) : o.read bufSize inner = ((0,[]),inner) := by
  unfold OffsetStream.read
  rw [error_eq h hat,eof_eq h hat,if_neg (by omega),if_neg (by simp [hstatus]; omega),
    if_pos (by simp [hpos])]

theorem toInt64_offset (h : Inside contents o) (hat : RandomAccess.At contents pos inner)
    {offset : Nat} (hle : offset ≤ o.nSize) :
    toInt64 (o.nOffset+offset) = (o.nOffset+offset : Nat) := by
  have hin := h.le
  have hlt := RandomAccess.length_lt hat
  rw [toInt64_of_range (by omega) (by omega)]
  omega

theorem rewind_spec (h : Inside contents o) (hat : RandomAccess.At contents pos inner) :
    RandomAccess.At contents o.nOffset (o.rewind inner) ∧
      IStreamBase.selfClose (o.rewind inner) = IStreamBase.selfClose inner := by
  have hin := h.le
  have hoffset := toInt64_offset h hat (Nat.zero_le _)
  rw [Nat.add_zero,Int.natCast_zero,Int.add_zero] at hoffset
  obtain ⟨t,hseek,hnext,hflag⟩ := RandomAccess.seek_spec hat (by omega : o.nOffset ≤ _)
  rw [rewind,hoffset,hseek]
  exact ⟨hnext,hflag⟩

theorem openStream_spec (h : Inside contents o) (hat : RandomAccess.At contents pos inner)
    (hstatus : o.status = .invalid) : o.openStream inner =
      if o.nSize = 0 then (false,o,inner)
      else (true,{ o with status := .opened },o.rewind inner) := by
  have hopened : Inside contents { o with status := .opened } := ⟨h.le,h.nSize⟩
  unfold OffsetStream.openStream
  rw [if_pos hstatus]
  dsimp only
  rw [RandomAccess.openStream_eq hat,error_eq hopened hat]
  by_cases hsize : o.nSize = 0
  · simp [hsize]
  · simp [hsize,rewind]

end OffsetStream

namespace PartStream

/-- Open, with the place of the stream inside it in the part. -/
structure OpenAt {σ : Type} [IStreamBase σ] [RandomAccess σ] (bytes : List UInt8) (pos : Nat)
    (s : PartStream σ) : Prop where
  inner : ∃ contents, RandomAccess.At contents (s.own.nOffset+pos) s.inner ∧
    OffsetStream.Inside contents s.own ∧ bytes = s.own.part contents
  status : s.own.status ≠ .invalid
  nSize : 0 < s.own.nSize
  le : pos ≤ s.own.nSize

variable {σ : Type} [IStreamBase σ] [RandomAccess σ] {bytes : List UInt8} {pos : Nat}
  {s : PartStream σ}

theorem OpenAt.seek (h : OpenAt bytes pos s) {offset : Int} {fromWhere : FromWhere} {next : Nat}
    (hle : next ≤ bytes.length)
    (hnext : (next : Int) = fromWhere.start pos bytes.length+offset) :
    ∃ t, IStreamBase.seek offset fromWhere s = (0,t) ∧ OpenAt bytes next t ∧
      IStreamBase.selfClose t = IStreamBase.selfClose s := by
  obtain ⟨contents,hat,hin,rfl⟩ := h.inner
  rw [hin.length_part] at hle hnext
  have hbound := hin.le
  have hpos := OffsetStream.toInt64_offset hin hat hle
  obtain ⟨t,hseek,hat',hflag⟩ := RandomAccess.seek_spec hat
    (by omega : s.own.nOffset+next ≤ contents.length)
  refine ⟨{ s with inner := t },?_,⟨⟨contents,hat',hin,rfl⟩,h.status,h.nSize,hle⟩,rfl⟩
  have hown : s.own.seek offset fromWhere s.inner = (0,t) := by
    unfold OffsetStream.seek
    rw [if_neg (by rw [RandomAccess.seekable_eq hat]; decide),← hseek,← hpos]
    cases fromWhere with
    | seekSet =>
      rw [hnext,FromWhere.start,Int.zero_add]
    | seekCur =>
      dsimp only
      rw [RandomAccess.tell_eq hat,if_neg (by omega),hnext,FromWhere.start,Int.natCast_add,
        Int.add_assoc]
    | seekEnd => rw [hnext,FromWhere.start]
  show ((s.own.seek offset fromWhere s.inner).1,
    { s with inner := (s.own.seek offset fromWhere s.inner).2 }) = _
  rw [hown]

theorem OpenAt.read (h : OpenAt bytes pos s) {count : Nat} (hcount : 0 < count) :
    ∃ t, IStreamBase.read count s = (delivered ((bytes.drop pos).take count),t) ∧
      OpenAt bytes (pos+((bytes.drop pos).take count).length) t ∧
      IStreamBase.selfClose t = IStreamBase.selfClose s := by
  obtain ⟨contents,hat,hin,rfl⟩ := h.inner
  have hle := h.le
  by_cases hend : pos = s.own.nSize
  · have hread := OffsetStream.read_end hin hat h.status h.nSize (by omega) hcount
    have hnone : (s.own.part contents).drop pos = [] :=
      List.drop_eq_nil_of_le (by rw [hin.length_part]; omega)
    rw [hnone,List.take_nil]
    refine ⟨s,?_,h,rfl⟩
    show ((s.own.read count s.inner).1,
      { s with inner := (s.own.read count s.inner).2 }) = _
    rw [hread]
    rfl
  · obtain ⟨t,hread,hnext,hflag⟩ := OffsetStream.read_inside hin hat h.status (by omega)
      (by omega) hcount
    rw [Nat.add_sub_cancel_left] at hread hnext
    rw [Nat.add_assoc] at hnext
    refine ⟨{ s with inner := t },?_,⟨⟨contents,hnext,hin,rfl⟩,h.status,h.nSize,?_⟩,rfl⟩
    · show ((s.own.read count s.inner).1,
        { s with inner := (s.own.read count s.inner).2 }) = _
      rw [hread]
    · rw [List.length_take,List.length_drop,hin.length_part]
      show _ ≤ s.own.nSize
      omega

instance : RandomAccess (PartStream σ) where
  At := OpenAt
  le h := by
    obtain ⟨contents,hat,hin,rfl⟩ := h.inner
    rw [hin.length_part]
    exact h.le
  length_lt h := by
    obtain ⟨contents,hat,hin,rfl⟩ := h.inner
    have hsize := hin.nSize
    rw [hin.length_part]
    omega
  size_eq h := by
    obtain ⟨contents,hat,hin,rfl⟩ := h.inner
    exact hin.length_part.symm
  seekable_eq {_ _ s} h := by
    obtain ⟨contents,hat,hin,rfl⟩ := h.inner
    show IStreamBase.seekable s.inner = true
    exact RandomAccess.seekable_eq hat
  openStream_eq {_ _ s} h := by
    show ((s.own.openStream s.inner).1,_) = _
    rw [OffsetStream.openStream,if_neg h.status]
  tell_eq {_ pos s} h := by
    obtain ⟨contents,hat,hin,rfl⟩ := h.inner
    have hsize := hin.nSize
    have hle := h.le
    show s.own.tell s.inner = pos
    rw [OffsetStream.tell,RandomAccess.tell_eq hat,if_pos (by omega),
      toInt64_of_range (by omega) (by omega)]
    omega
  error_eq {_ _ s} h := by
    obtain ⟨contents,hat,hin,rfl⟩ := h.inner
    have hsize := h.nSize
    show s.own.error s.inner = false
    rw [OffsetStream.error_eq hin hat]
    simp [h.status]
    omega
  seek_spec h hle := h.seek hle (by simp [FromWhere.start])
  seekCur_spec h hle := h.seek hle rfl
  seekEnd_spec h := h.seek (Nat.le_refl _) (by simp [FromWhere.start])
  read_spec h hcount _ := h.read hcount

end PartStream

end MprMq.Epub
