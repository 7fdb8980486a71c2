import MprMq.Epub.UnzipSearch
import MprMq.Lib.LittleEndian
set_option autoImplicit false

/-! The records of an archive, and that `unzip.c` reads what they say. -/

namespace MprMq.Epub
open MprMq.Base MprMq.Lib

variable {σ : Type} [IStreamBase σ] [RandomAccess σ] {contents rest : List UInt8} {err : Int}

/-- The stream stands where these bytes follow. -/
def Following (contents rest : List UInt8) (s : σ) : Prop :=
  ∃ pos, Standing contents pos s ∧ contents.drop pos = rest

/-- The same for a function with this `err`. -/
def Ahead (contents : List UInt8) (next : List UInt8 × Int) (r : Reading σ) : Prop :=
  r.err = next.2 ∧ Following contents next.1 r.filestream

section Bytes

theorem getByte_reads (i : Nat) (b : UInt8) :
    Reads (Following (σ := σ) contents) (getByte i) (b :: rest) (unzOk,b.toNat) rest := by
  rintro s ⟨pos,hs,hrest⟩
  obtain ⟨hread,hnext⟩ := streamRead_reads (by decide : 0 < 1) (by decide) s hs
  have htake : (contents.drop pos).take 1 = [b] := by rw [hrest]; rfl
  have hdrop : contents.drop (pos+1) = rest := by rw [← List.drop_drop,hrest]; rfl
  rw [htake] at hread hnext
  unfold getByte
  dsimp only
  rw [hread]
  exact ⟨rfl,pos+1,hnext,hdrop⟩

theorem getBytes_reads (bytes : List UInt8) (i : Nat) :
    Reads (Following (σ := σ) contents) (getBytes bytes.length i) (bytes++rest)
      (some (leValue bytes)) rest := by
  induction bytes generalizing i with
  | nil => exact fun s hs => ⟨rfl,hs⟩
  | cons b bytes ih =>
    intro s hs
    obtain ⟨hbyte,hnext⟩ := getByte_reads i b s hs
    obtain ⟨hbytes,hlast⟩ := ih b.toNat _ hnext
    rw [List.length_cons,getBytes]
    dsimp only
    rw [hbyte,if_pos rfl]
    dsimp only
    rw [hbytes]
    exact ⟨rfl,hlast⟩

end Bytes

namespace Reader

theorem number_reads {n v : Nat} (hv : v < 256^n) :
    Reads (Ahead (σ := σ) contents) (number n) (leBytes n v++rest,err) v (rest,err) := by
  rintro r ⟨herr,hr⟩
  have hbytes := getBytes_reads (leBytes n v) 0 _ hr
  rw [length_leBytes,leValue_leBytes,Nat.mod_eq_of_lt hv] at hbytes
  unfold number
  dsimp only
  rw [hbytes.1]
  exact ⟨rfl,herr,hbytes.2⟩

section Fields
variable {α : Type} {f : Nat → Reader σ α} {a : α} {next : List UInt8 × Int}

/-- A field of a record. -/
theorem field {n v : Nat} (hv : v < 256^n) (hf : Reads (Ahead contents) (f v) (rest,err) a next) :
    Reads (Ahead contents) (number n >>= f) (leBytes n v++rest,err) a next :=
  Reads.bind (number_reads hv) hf

theorem short (v : UInt16) (hf : Reads (Ahead contents) (f v.toNat) (rest,err) a next) :
    Reads (Ahead contents) (number 2 >>= f) (leBytes 2 v.toNat++rest,err) a next :=
  field v.toNat_lt hf

theorem long (v : UInt32) (hf : Reads (Ahead contents) (f v.toNat) (rest,err) a next) :
    Reads (Ahead contents) (number 4 >>= f) (leBytes 4 v.toNat++rest,err) a next :=
  field v.toNat_lt hf

end Fields

theorem seek_reads {offset : Nat} (hle : offset ≤ contents.length) :
    Reads (Ahead (σ := σ) contents) (seek offset .seekSet) (rest,err) ()
      (contents.drop offset,err) := by
  rintro r ⟨herr,pos,hr,_⟩
  obtain ⟨hseek,hnext⟩ := streamSeek_reads hle _ hr
  unfold seek
  dsimp only
  rw [hseek]
  exact ⟨rfl,herr,offset,hnext,rfl⟩

theorem skip_reads (skip : List UInt8) :
    Reads (Ahead (σ := σ) contents) (seek skip.length .seekCur) (skip++rest,err) () (rest,err) := by
  rintro r ⟨herr,pos,hr,hrest⟩
  have hlength := congrArg List.length hrest
  rw [List.length_drop,List.length_append] at hlength
  have hle := RandomAccess.le hr.at_pos
  obtain ⟨hseek,hnext⟩ := streamSeekCur_reads (by omega : pos+skip.length ≤ _) _ hr
  unfold seek
  dsimp only
  rw [hseek]
  refine ⟨rfl,herr,_,hnext,?_⟩
  rw [← List.drop_drop,hrest,List.drop_left]

theorem bytes_reads {name : List UInt8} (hlow : 0 < name.length) (hhigh : name.length < 2^31) :
    Reads (Ahead (σ := σ) contents) (bytes name.length) (name++rest,err) name (rest,err) := by
  rintro r ⟨herr,pos,hr,hrest⟩
  obtain ⟨hread,hnext⟩ := streamRead_reads hlow hhigh _ hr
  rw [hrest,List.take_left] at hread hnext
  unfold bytes
  dsimp only
  rw [hread,delivered]
  dsimp only
  rw [if_neg (by simp)]
  refine ⟨rfl,herr,_,hnext,?_⟩
  rw [← List.drop_drop,hrest,List.drop_left]

theorem whenOk_reads {α : Type} {m : Reader σ α} {a b : α} {next : List UInt8 × Int}
    (h : Reads (Ahead contents) m (rest,unzOk) a next) :
    Reads (Ahead contents) (whenOk m b) (rest,unzOk) a next := by
  intro s hs
  unfold whenOk
  rw [if_pos hs.1]
  exact h s hs

def checked (wrong : Bool) (err : Int) : Int := if err = unzOk ∧ wrong then unzBadZipFile else err

theorem checked_eq_unzOk {wrong : Bool} : checked wrong err = unzOk ↔ err = unzOk ∧ ¬ wrong := by
  unfold checked
  split
  case isTrue h => simp [h.2,unzBadZipFile,unzOk]
  case isFalse h => exact ⟨fun herr => ⟨herr,fun hwrong => h ⟨herr,hwrong⟩⟩,fun h => h.1⟩

theorem check_reads (wrong : Bool) :
    Reads (Ahead (σ := σ) contents) (check wrong) (rest,err) () (rest,checked wrong err) := by
  rintro r ⟨herr,hr⟩
  unfold check checked
  refine ⟨rfl,?_⟩
  rw [← show r.err = err from herr]
  split
  case isTrue => exact ⟨rfl,hr⟩
  case isFalse => exact ⟨rfl,hr⟩

theorem magic_reads {signature : Nat} (h : signature < 256^4) :
    Reads (Ahead (σ := σ) contents) (magic signature) (leBytes 4 signature++rest,unzOk) ()
      (rest,unzOk) := by
  have hcheck : Reads (Ahead (σ := σ) contents) (check (signature ≠ signature)) (rest,unzOk) ()
      (rest,checked (signature ≠ signature) unzOk) := check_reads _
  rw [checked,if_neg (by simp)] at hcheck
  exact whenOk_reads (field h hcheck)

end Reader

/-- A local header, which stands before the data of an item. -/
structure LocalHeader where
  versionNeeded : UInt16
  flag : UInt16
  compressionMethod : UInt16
  dosDate : UInt32
  crc : UInt32
  compressedSize : UInt32
  uncompressedSize : UInt32
  sizeFilename : UInt16
  sizeExtraField : UInt16
  deriving DecidableEq, Repr

def LocalHeader.bytes (l : LocalHeader) : List UInt8 :=
  leBytes 4 0x04034b50++(leBytes 2 l.versionNeeded.toNat++(leBytes 2 l.flag.toNat++
    (leBytes 2 l.compressionMethod.toNat++(leBytes 4 l.dosDate.toNat++(leBytes 4 l.crc.toNat++
      (leBytes 4 l.compressedSize.toNat++(leBytes 4 l.uncompressedSize.toNat++
        (leBytes 2 l.sizeFilename.toNat++leBytes 2 l.sizeExtraField.toNat))))))))

@[simp] theorem LocalHeader.length_bytes (l : LocalHeader) : l.bytes.length = 30 := by
  simp [LocalHeader.bytes]

/-- What a record has 32 bits for; a value that does not fit stands in the extra field. -/
def low32 (v : UInt64) : Nat := if v.toNat < maxU32 then v.toNat else maxU32

def wide (v : UInt64) : List UInt8 := if v.toNat < maxU32 then [] else leBytes 8 v.toNat

def extraField (headerId : UInt16) (data : List UInt8) : List UInt8 :=
  leBytes 2 headerId.toNat++(leBytes 2 data.length++data)

theorem extraField_append (headerId : UInt16) (data rest : List UInt8) :
    extraField headerId data++rest =
      leBytes 2 headerId.toNat++(leBytes 2 data.length++(data++rest)) := by
  rw [extraField,List.append_assoc,List.append_assoc]

theorem length_extraField (headerId : UInt16) (data : List UInt8) :
    (extraField headerId data).length = 4+data.length := by
  rw [extraField,List.length_append,List.length_append,length_leBytes,length_leBytes]
  omega

/-- The extra field of a record: the values that do not fit, and fields of other kinds. -/
def extraBytes (values : List UInt8) (extra : List (UInt16 × List UInt8)) : List UInt8 :=
  (if values = [] then [] else extraField 1 values)++extra.flatMap fun f => extraField f.1 f.2

/-- An item of an archive, as the central directory and its local header have it. -/
structure Entry where
  version : UInt16
  versionNeeded : UInt16
  flag : UInt16
  compressionMethod : UInt16
  dosDate : UInt32
  crc : UInt32
  compressedSize : UInt64
  uncompressedSize : UInt64
  diskNumStart : UInt16
  internalFa : UInt16
  externalFa : UInt32
  offsetCurfile : UInt64
  name : List UInt8
  extra : List (UInt16 × List UInt8)
  comment : List UInt8
  header : LocalHeader
  name_lt : name.length < 512
  extra_ne : ∀ f ∈ extra, f.1 ≠ 1
  extra_lt : (extraBytes (wide uncompressedSize++wide compressedSize++wide offsetCurfile)
    extra).length < 2^16
  comment_lt : comment.length < 2^16

namespace Entry

def values (e : Entry) : List UInt8 :=
  wide e.uncompressedSize++wide e.compressedSize++wide e.offsetCurfile

def extraBytes (e : Entry) : List UInt8 := Epub.extraBytes e.values e.extra

def info (e : Entry) : UnzFileInfo where
  version := e.version.toNat
  versionNeeded := e.versionNeeded.toNat
  flag := e.flag.toNat
  compressionMethod := e.compressionMethod.toNat
  dosDate := e.dosDate.toNat
  crc := e.crc.toNat
  compressedSize := e.compressedSize.toNat
  uncompressedSize := e.uncompressedSize.toNat
  sizeFilename := e.name.length
  sizeFileExtra := e.extraBytes.length
  sizeFileComment := e.comment.length
  diskNumStart := e.diskNumStart.toNat
  internalFa := e.internalFa.toNat
  externalFa := e.externalFa.toNat
  offsetCurfile := e.offsetCurfile.toNat

def shown (e : Entry) : UnzFileInfo :=
  { e.info with
    compressedSize := low32 e.compressedSize
    uncompressedSize := low32 e.uncompressedSize
    offsetCurfile := low32 e.offsetCurfile }

def fixedBytes (e : Entry) : List UInt8 :=
  leBytes 4 0x02014b50++(leBytes 2 e.version.toNat++(leBytes 2 e.versionNeeded.toNat++
    (leBytes 2 e.flag.toNat++(leBytes 2 e.compressionMethod.toNat++(leBytes 4 e.dosDate.toNat++
      (leBytes 4 e.crc.toNat++(leBytes 4 (low32 e.compressedSize)++
        (leBytes 4 (low32 e.uncompressedSize)++(leBytes 2 e.name.length++
          (leBytes 2 e.extraBytes.length++(leBytes 2 e.comment.length++
            (leBytes 2 e.diskNumStart.toNat++(leBytes 2 e.internalFa.toNat++
              (leBytes 4 e.externalFa.toNat++leBytes 4 (low32 e.offsetCurfile)))))))))))))))

def bytes (e : Entry) : List UInt8 := e.fixedBytes++(e.name++(e.extraBytes++e.comment))

theorem length_bytes (e : Entry) : e.bytes.length =
    sizeCentralDirItem+e.name.length+e.extraBytes.length+e.comment.length := by
  have hsize : sizeCentralDirItem = 46 := rfl
  simp only [bytes,fixedBytes,List.length_append,length_leBytes]
  omega

end Entry

section Records
open Reader

theorem low32_lt (v : UInt64) : low32 v < 256^4 := by
  unfold low32 maxU32
  split
  case isTrue => omega
  case isFalse => decide

theorem Entry.fixedPart_reads (e : Entry) :
    Reads (Ahead (σ := σ) contents) fixedPart (e.fixedBytes++rest,unzOk) e.shown (rest,unzOk) := by
  have hname := e.name_lt
  unfold fixedPart Entry.fixedBytes
  simp only [List.append_assoc]
  refine Reads.bind (magic_reads (by decide)) ?_
  refine short e.version (short e.versionNeeded ?_)
  refine short e.flag (short e.compressionMethod ?_)
  refine long e.dosDate (long e.crc ?_)
  refine field (low32_lt _) (field (low32_lt _) ?_)
  refine field (by omega) (field e.extra_lt (field e.comment_lt ?_))
  refine short e.diskNumStart (short e.internalFa (long e.externalFa ?_))
  exact field (low32_lt _) (Reads.pure _ _)

/-- A value that may stand in the extra field. -/
theorem wide_reads (v : UInt64) :
    Reads (Ahead (σ := σ) contents) (orLong64 (low32 v)) (wide v++rest,err) v.toNat
      (rest,err) := by
  unfold orLong64 low32 wide
  by_cases h : v.toNat < maxU32
  · rw [if_pos h,if_pos h,if_neg (by omega)]
    exact Reads.pure _ _
  · rw [if_neg h,if_neg h,if_pos rfl]
    exact number_reads v.toNat_lt

/-- The fields of other kinds are passed over. -/
theorem extraFields_others {extra : List (UInt16 × List UInt8)} (hextra : ∀ f ∈ extra, f.1 ≠ 1)
    {info : UnzFileInfo} (hsize : info.sizeFileExtra < 2^16) {turns acc : Nat}
    (hturns : info.sizeFileExtra ≤ acc+turns)
    (hacc : acc+(extra.flatMap fun f => extraField f.1 f.2).length = info.sizeFileExtra) :
    Reads (Ahead (σ := σ) contents) (extraFields turns acc info)
      ((extra.flatMap fun f => extraField f.1 f.2)++rest,err) info (rest,err) := by
  induction extra generalizing turns acc with
  | nil =>
    have hend : ¬ acc < info.sizeFileExtra := by
      simp at hacc
      omega
    cases turns with
    | zero => exact Reads.pure _ _
    | succ turns =>
      rw [extraFields,if_neg hend]
      exact Reads.pure _ _
  | cons f extra ih =>
    rw [List.flatMap_cons] at *
    rw [List.length_append] at hacc
    have hlength := length_extraField f.1 f.2
    have hother : ¬ f.1.toNat = 1 := by
      intro hone
      exact hextra f (List.mem_cons_self ..) (UInt16.toNat_inj.mp hone)
    cases turns with
    | zero => omega
    | succ turns =>
      rw [extraFields,if_pos (by omega),List.append_assoc,extraField_append]
      refine short f.1 (field (by omega) ?_)
      rw [if_neg hother]
      refine Reads.bind (skip_reads f.2) ?_
      exact ih (fun g hg => hextra g (List.mem_cons_of_mem _ hg)) (by omega) (by omega)

theorem toNat_of_wide {v : UInt64} (h : wide v = []) : low32 v = v.toNat := by
  unfold wide at h
  unfold low32
  split at h
  case isTrue hlt => exact if_pos hlt
  case isFalse =>
    have hlength := congrArg List.length h
    rw [length_leBytes] at hlength
    cases hlength

theorem Entry.shown_eq {e : Entry} (h : e.values = []) : e.shown = e.info := by
  obtain ⟨hfirst,hoffset⟩ := List.append_eq_nil_iff.mp h
  obtain ⟨huncompressed,hcompressed⟩ := List.append_eq_nil_iff.mp hfirst
  rw [Entry.shown,toNat_of_wide huncompressed,toNat_of_wide hcompressed,toNat_of_wide hoffset]
  rfl

/-- The extra field makes the values whole. -/
theorem Entry.extraFields_reads (e : Entry) :
    Reads (Ahead (σ := σ) contents) (extraFields e.extraBytes.length 0 e.shown)
      (e.extraBytes++rest,err) e.info (rest,err) := by
  have hlt : e.extraBytes.length < 2^16 := e.extra_lt
  by_cases hvalues : e.values = []
  · have hbytes : e.extraBytes = e.extra.flatMap fun f => extraField f.1 f.2 := by
      rw [Entry.extraBytes,Epub.extraBytes,if_pos hvalues,List.nil_append]
    have hothers : Reads (Ahead (σ := σ) contents) (extraFields e.extraBytes.length 0 e.info)
        ((e.extra.flatMap fun f => extraField f.1 f.2)++rest,err) e.info (rest,err) :=
      extraFields_others e.extra_ne hlt (by rw [Nat.zero_add]; exact Nat.le_refl _)
        (by rw [Nat.zero_add,← hbytes]; rfl)
    rw [← hbytes] at hothers
    rw [Entry.shown_eq hvalues]
    exact hothers
  · have hbytes : e.extraBytes = extraField 1 e.values++e.extra.flatMap fun f =>
        extraField f.1 f.2 := by
      rw [Entry.extraBytes,Epub.extraBytes,if_neg hvalues]
    have hlength : e.extraBytes.length = 4+e.values.length+(e.extra.flatMap fun f =>
        extraField f.1 f.2).length := by
      rw [hbytes,List.length_append,length_extraField]
    have hdisk : ¬ e.shown.diskNumStart = maxU32 := by
      have hlt := e.diskNumStart.toNat_lt
      show ¬ e.diskNumStart.toNat = maxU32
      unfold maxU32
      omega
    have hwide : ∀ r, e.values++r = wide e.uncompressedSize++(wide e.compressedSize++
        (wide e.offsetCurfile++r)) := fun r => by simp only [Entry.values,List.append_assoc]
    obtain ⟨turns,hturns⟩ := Nat.exists_eq_add_of_lt (by omega : 0 < e.extraBytes.length)
    rw [hturns,extraFields,if_pos (by show 0 < e.extraBytes.length; omega),hbytes,
      List.append_assoc,extraField_append]
    refine short 1 (field (by omega) ?_)
    rw [if_pos (by decide),hwide]
    refine Reads.bind (wide_reads e.uncompressedSize) ?_
    refine Reads.bind (wide_reads e.compressedSize) ?_
    refine Reads.bind (wide_reads e.offsetCurfile) ?_
    have hskip : ∀ next, Reads (Ahead (σ := σ) contents) (skipDiskStart e.shown.diskNumStart) next 0
        next := by
      intro next
      rw [skipDiskStart,if_neg hdisk]
      exact Reads.pure _ _
    refine Reads.bind (hskip _) ?_
    show Reads (Ahead contents) (extraFields _ _ e.info) _ e.info _
    exact extraFields_others e.extra_ne hlt (by show e.extraBytes.length ≤ _; omega)
      (by show _ = e.extraBytes.length; omega)

/-- The name, and how far it is from there to the extra field. -/
theorem fileName_reads {name : List UInt8} (h : name.length < 512) :
    Reads (Ahead (σ := σ) contents) (fileName name.length (some 512)) (name++rest,err)
      (name++[0],0) (rest,err) := by
  have hsize : sizeRead name.length 512 = name.length := if_pos h
  have hbytes : Reads (Ahead (σ := σ) contents) (nameBytes name.length 512) (name++rest,err) name
      (rest,err) := by
    unfold nameBytes
    rw [hsize]
    cases name with
    | nil => exact Reads.pure _ _
    | cons b name =>
      rw [if_pos (by simp)]
      exact bytes_reads (by simp) (by omega)
  unfold fileName
  refine Reads.bind hbytes ?_
  rw [if_pos h,hsize,Nat.sub_self]
  exact Reads.pure _ _

def Entry.buffer (e : Entry) : Option Nat → List UInt8
  | none => []
  | some _ => e.name++[0]

theorem Entry.extraPart_reads (e : Entry) (skip : List UInt8) :
    ∃ r, Reads (Ahead (σ := σ) contents) (extraPart skip.length e.shown)
      (skip++(e.extraBytes++rest),err) e.info (r,err) := by
  unfold extraPart
  split
  case isTrue hnone =>
    have hvalues : e.values = [] := by
      by_contra hvalues
      have hlength : e.extraBytes.length = 0 := hnone
      rw [Entry.extraBytes,Epub.extraBytes,if_neg hvalues,List.length_append,
        length_extraField] at hlength
      omega
    rw [Entry.shown_eq hvalues]
    exact ⟨_,Reads.pure _ _⟩
  case isFalse =>
    split
    case isTrue hskip =>
      rw [List.eq_nil_of_length_eq_zero hskip]
      exact ⟨_,e.extraFields_reads⟩
    case isFalse => exact ⟨_,Reads.bind (skip_reads skip) e.extraFields_reads⟩

/-- A record is read, whether its name is asked for or not. -/
theorem Entry.currentFileInfo_reads (e : Entry) {pos : Nat} (hpos : pos ≤ contents.length)
    (hat : contents.drop pos = e.bytes++rest) {size : Option Nat}
    (hsize : size = none ∨ size = some 512) (r : List UInt8) :
    ∃ r', Reads (Ahead (σ := σ) contents) (currentFileInfo pos size) (r,unzOk)
      (e.info,e.buffer size) (r',unzOk) := by
  rw [Entry.bytes] at hat
  simp only [List.append_assoc] at hat
  have hseek : Reads (Ahead (σ := σ) contents) (seek pos .seekSet) (r,unzOk) ()
      (contents.drop pos,unzOk) := seek_reads hpos
  rw [hat] at hseek
  have hextra : ∀ skip, ∃ r', Reads (Ahead (σ := σ) contents) (extraPart skip.length e.shown)
      (skip++(e.extraBytes++(e.comment++rest)),unzOk) e.info (r',unzOk) := e.extraPart_reads
  rcases hsize with rfl | rfl
  · obtain ⟨r',hextra⟩ := hextra e.name
    refine ⟨r',Reads.bind hseek (Reads.bind e.fixedPart_reads ?_)⟩
    refine Reads.bind (whenOk_reads (Reads.pure _ _)) ?_
    exact Reads.bind (whenOk_reads hextra) (Reads.pure _ _)
  · obtain ⟨r',hextra⟩ := hextra []
    refine ⟨r',Reads.bind hseek (Reads.bind e.fixedPart_reads ?_)⟩
    refine Reads.bind (whenOk_reads (fileName_reads e.name_lt)) ?_
    exact Reads.bind (whenOk_reads hextra) (Reads.pure _ _)

/-- A size of a local header that is the whole value, or stands for one that does not fit. -/
def SizeAgrees (size : UInt32) (whole : UInt64) : Prop :=
  size.toNat = 0xFFFFFFFF ∨ size.toNat = whole.toNat

/-- The local header goes with the record: the method is known and the same, the name as long,
and what is not left to a data descriptor is the same. -/
structure Entry.Coherent (e : Entry) : Prop where
  compressionMethod : e.header.compressionMethod.toNat = e.compressionMethod.toNat
  known : e.compressionMethod.toNat = 0 ∨ e.compressionMethod.toNat = zBzip2ed ∨
    e.compressionMethod.toNat = 8
  values : e.header.flag.toNat &&& 8 ≠ 0 ∨ e.header.crc.toNat = e.crc.toNat ∧
    SizeAgrees e.header.compressedSize e.compressedSize ∧
    SizeAgrees e.header.uncompressedSize e.uncompressedSize
  sizeFilename : e.header.sizeFilename.toNat = e.name.length

def LocalHeader.sizeVar (l : LocalHeader) : Nat := l.sizeFilename.toNat+l.sizeExtraField.toNat

def Entry.headerErr (e : Entry) : Int :=
  let l := e.header
  let isCut := l.flag.toNat &&& 8 = 0
  checked (l.sizeFilename.toNat ≠ e.info.sizeFilename)
    (checked (l.uncompressedSize.toNat ≠ 0xFFFFFFFF ∧
        l.uncompressedSize.toNat ≠ e.info.uncompressedSize ∧ isCut)
      (checked (l.compressedSize.toNat ≠ 0xFFFFFFFF ∧
          l.compressedSize.toNat ≠ e.info.compressedSize ∧ isCut)
        (checked (l.crc.toNat ≠ e.info.crc ∧ isCut)
          (checked (e.info.compressionMethod ≠ 0 ∧ e.info.compressionMethod ≠ zBzip2ed ∧
              e.info.compressionMethod ≠ 8)
            (checked (l.compressionMethod.toNat ≠ e.info.compressionMethod) unzOk)))))

theorem Entry.coherencyHeader_reads (e : Entry) :
    Reads (Ahead (σ := σ) contents) (coherencyHeader e.info) (e.header.bytes++rest,unzOk)
      e.header.sizeVar (rest,e.headerErr) := by
  unfold coherencyHeader LocalHeader.bytes
  simp only [List.append_assoc]
  refine Reads.bind (magic_reads (by decide)) ?_
  refine short e.header.versionNeeded (short e.header.flag ?_)
  refine short e.header.compressionMethod (Reads.bind (check_reads _) ?_)
  refine Reads.bind (check_reads _) ?_
  refine long e.header.dosDate (long e.header.crc (Reads.bind (check_reads _) ?_))
  refine long e.header.compressedSize (Reads.bind (check_reads _) ?_)
  refine long e.header.uncompressedSize (Reads.bind (check_reads _) ?_)
  refine short e.header.sizeFilename (Reads.bind (check_reads _) ?_)
  exact short e.header.sizeExtraField (Reads.pure _ _)

theorem Entry.headerErr_eq (e : Entry) : e.headerErr = unzOk ↔ e.Coherent := by
  unfold Entry.headerErr
  simp only [checked_eq_unzOk,decide_eq_true_eq,true_and]
  simp only [Entry.info]
  constructor
  · rintro ⟨⟨⟨⟨⟨hmethod,hknown⟩,hcrc⟩,hcompressed⟩,huncompressed⟩,hname⟩
    generalize hflag : e.header.flag.toNat &&& 8 = flag at *
    refine ⟨not_not.mp hmethod,by omega,?_,not_not.mp hname⟩
    rw [hflag,SizeAgrees,SizeAgrees]
    omega
  · rintro ⟨hmethod,hknown,hvalues,hname⟩
    rw [SizeAgrees,SizeAgrees] at hvalues
    generalize e.header.flag.toNat &&& 8 = flag at *
    exact ⟨⟨⟨⟨⟨by omega,by omega⟩,by omega⟩,by omega⟩,by omega⟩,by omega⟩

structure EndRecord where
  numberEntry : UInt16
  sizeCentralDir : UInt32
  offsetCentralDir : UInt32
  comment : List UInt8
  comment_lt : comment.length < 2^16

def EndRecord.gi (r : EndRecord) : EndOfCentralDir :=
  ⟨r.numberEntry.toNat,r.sizeCentralDir.toNat,r.offsetCentralDir.toNat⟩

def EndRecord.bytes (r : EndRecord) : List UInt8 :=
  leBytes 4 0x06054b50++(leBytes 2 0++(leBytes 2 0++(leBytes 2 r.numberEntry.toNat++
    (leBytes 2 r.numberEntry.toNat++(leBytes 4 r.sizeCentralDir.toNat++
      (leBytes 4 r.offsetCentralDir.toNat++(leBytes 2 r.comment.length++r.comment)))))))

theorem EndRecord.endOfCentralDir_reads (r : EndRecord) {pos : Nat} (hpos : pos ≤ contents.length)
    (hlow : 0 < pos) (hat : contents.drop pos = r.bytes++rest) (skipped : List UInt8) :
    Reads (Ahead (σ := σ) contents) (endOfCentralDir pos) (skipped,unzOk) r.gi
      (r.comment++rest,unzOk) := by
  have hseek : Reads (Ahead (σ := σ) contents) (seek pos .seekSet) (skipped,unzOk) ()
      (contents.drop pos,unzOk) := seek_reads hpos
  rw [hat,EndRecord.bytes] at hseek
  simp only [List.append_assoc] at hseek
  unfold endOfCentralDir
  rw [if_neg (by omega)]
  refine Reads.bind hseek (field (v := 0x06054b50) (by decide) ?_)
  refine field (v := 0) (by decide) (field (v := 0) (by decide) ?_)
  refine short r.numberEntry (short r.numberEntry ?_)
  rw [if_neg (by simp)]
  refine long r.sizeCentralDir (long r.offsetCentralDir ?_)
  exact field r.comment_lt (Reads.pure _ _)

structure EndRecord64 where
  sizeRecord : UInt64
  version : UInt16
  versionNeeded : UInt16
  numberEntry : UInt64
  sizeCentralDir : UInt64
  offsetCentralDir : UInt64

def EndRecord64.gi (r : EndRecord64) : EndOfCentralDir :=
  ⟨r.numberEntry.toNat,r.sizeCentralDir.toNat,r.offsetCentralDir.toNat⟩

def EndRecord64.bytes (r : EndRecord64) : List UInt8 :=
  leBytes 4 0x06064b50++(leBytes 8 r.sizeRecord.toNat++(leBytes 2 r.version.toNat++
    (leBytes 2 r.versionNeeded.toNat++(leBytes 4 0++(leBytes 4 0++
      (leBytes 8 r.numberEntry.toNat++(leBytes 8 r.numberEntry.toNat++
        (leBytes 8 r.sizeCentralDir.toNat++leBytes 8 r.offsetCentralDir.toNat))))))))

theorem EndRecord64.endOfCentralDir64_reads (r : EndRecord64) {pos : Nat}
    (hpos : pos ≤ contents.length) (hat : contents.drop pos = r.bytes++rest)
    (skipped : List UInt8) :
    Reads (Ahead (σ := σ) contents) (endOfCentralDir64 pos) (skipped,unzOk) r.gi
      (rest,unzOk) := by
  have hseek : Reads (Ahead (σ := σ) contents) (seek pos .seekSet) (skipped,unzOk) ()
      (contents.drop pos,unzOk) := seek_reads hpos
  rw [hat,EndRecord64.bytes] at hseek
  simp only [List.append_assoc] at hseek
  unfold endOfCentralDir64
  refine Reads.bind hseek (field (v := 0x06064b50) (by decide) ?_)
  refine field r.sizeRecord.toNat_lt ?_
  refine short r.version (short r.versionNeeded ?_)
  refine field (v := 0) (by decide) (field (v := 0) (by decide) ?_)
  refine field r.numberEntry.toNat_lt (field r.numberEntry.toNat_lt ?_)
  rw [if_neg (by simp)]
  exact field r.sizeCentralDir.toNat_lt (field r.offsetCentralDir.toNat_lt (Reads.pure _ _))

def locatorBytes (relativeOffset : Nat) : List UInt8 :=
  leBytes 4 0x07064b50++(leBytes 4 0++(leBytes 8 relativeOffset++leBytes 4 1))

theorem seekTo_reads {offset : Nat} (hle : offset ≤ contents.length) :
    Reads (Following (σ := σ) contents) (seekTo offset).run rest (some ())
      (contents.drop offset) := by
  rintro s ⟨pos,hs,_⟩
  obtain ⟨hseek,hnext⟩ := streamSeek_reads hle s hs
  refine ⟨?_,offset,hnext,rfl⟩
  show (if (streamSeek offset .seekSet s).1 = 0 then some () else none) = some ()
  rw [hseek,if_pos rfl]

theorem value_reads {n v : Nat} (hv : v < 256^n) :
    Reads (Following (σ := σ) contents) (OptionT.mk (getBytes n 0)).run (leBytes n v++rest)
      (some v) rest := by
  have hbytes : Reads (Following (σ := σ) contents) (getBytes (leBytes n v).length 0)
      (leBytes n v++rest) (some (leValue (leBytes n v))) rest := getBytes_reads _ 0
  rw [length_leBytes,leValue_leBytes,Nat.mod_eq_of_lt hv] at hbytes
  exact hbytes

theorem guard_reads {p : Prop} [Decidable p] (hp : p) :
    Reads (Following (σ := σ) contents) (guard p : OptionT (StateM σ) Unit).run rest (some ())
      rest := by
  rw [guard,if_pos hp]
  exact Reads.pure _ _

theorem checkLocator_reads {pos relativeOffset : Nat} {tail : List UInt8}
    (hpos : pos ≤ contents.length) (hat : contents.drop pos = locatorBytes relativeOffset++rest)
    (hrelative : relativeOffset ≤ contents.length) (hlt : relativeOffset < 2^64)
    (hrecord : contents.drop relativeOffset = leBytes 4 0x06064b50++tail) (skipped : List UInt8) :
    Reads (Following (σ := σ) contents) (checkLocator pos).run skipped (some relativeOffset)
      tail := by
  have hseek : Reads (Following (σ := σ) contents) (seekTo pos).run skipped (some ())
      (contents.drop pos) := seekTo_reads hpos
  rw [hat,locatorBytes] at hseek
  simp only [List.append_assoc] at hseek
  have hgoto : Reads (Following (σ := σ) contents) (seekTo relativeOffset).run rest (some ())
      (contents.drop relativeOffset) := seekTo_reads hrelative
  rw [hrecord] at hgoto
  unfold checkLocator
  refine hseek.optionBind ((value_reads (v := 0x07064b50) (by decide)).optionBind ?_)
  refine (value_reads (v := 0) (by decide)).optionBind ((guard_reads rfl).optionBind ?_)
  refine (value_reads hlt).optionBind ((value_reads (v := 1) (by decide)).optionBind ?_)
  refine (guard_reads rfl).optionBind (hgoto.optionBind ?_)
  refine (value_reads (by decide)).optionBind ((guard_reads rfl).optionBind ?_)
  exact Reads.pure _ _

end Records

end MprMq.Epub
