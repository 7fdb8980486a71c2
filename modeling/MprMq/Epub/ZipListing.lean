import MprMq.Epub.UnzipRecords
import MprMq.Epub.ZipOpening
set_option autoImplicit false

/-! What `ZipArchiveReader::Open` lists of an archive. -/

namespace MprMq.Epub
open MprMq.Base MprMq.Lib

variable {σ : Type} [IStreamBase σ] [RandomAccess σ] {contents : List UInt8}

/-- The stream is open on the archive, wherever it stands. -/
def Resting (contents : List UInt8) (s : σ) : Prop := ∃ pos, Standing contents pos s

theorem Resting.following {s : σ} (h : Resting contents s) :
    ∃ rest, Following contents rest s := by
  obtain ⟨pos,hs⟩ := h
  exact ⟨_,pos,hs,rfl⟩

theorem Following.resting {rest : List UInt8} {s : σ} (h : Following contents rest s) :
    Resting contents s := by
  obtain ⟨pos,hs,_⟩ := h
  exact ⟨pos,hs⟩

section OtherRecords
open Reader

def Failed (contents : List UInt8) (r : Reading σ) : Prop :=
  r.err ≠ unzOk ∧ Resting contents r.filestream

theorem getBytes_resting (n i : Nat) {s : σ} (hs : Resting contents s) :
    Resting contents (getBytes n i s).2 := by
  induction n generalizing i s with
  | zero => exact hs
  | succ n ih =>
    obtain ⟨pos,hpos⟩ := hs
    have hread := (streamRead_reads (by decide : 0 < 1) (by decide) s hpos).2
    have hbyte : Resting contents (getByte i s).2 := by
      unfold getByte
      dsimp only
      split
      case isTrue => exact ⟨_,hread⟩
      case isFalse =>
        split
        case isTrue => exact ⟨_,hread⟩
        case isFalse => exact ⟨_,hread⟩
    unfold getBytes
    dsimp only
    split
    case isTrue => exact ih _ hbyte
    case isFalse => exact hbyte

theorem number_failed (n : Nat) :
    Leads (Failed (σ := σ) contents) (Failed contents) (number n) := by
  rintro r ⟨herr,hr⟩
  refine ⟨?_,getBytes_resting n 0 hr⟩
  unfold number
  dsimp only
  split
  case isTrue => decide
  case isFalse => exact herr

theorem whenOk_failed {α : Type} (m : Reader σ α) (a : α) :
    Leads (Failed (σ := σ) contents) (Failed contents) (whenOk m a) := by
  intro r hr
  unfold whenOk
  rw [if_neg hr.1]
  exact hr

/-- What is no record does not become the current file. -/
theorem currentFileInfo_other {pos signature : Nat} {rest : List UInt8}
    (hpos : pos ≤ contents.length) (hsignature : signature < 256^4)
    (hat : contents.drop pos = leBytes 4 signature++rest) (hne : signature ≠ 0x02014b50)
    (size : Option Nat) : Leads (fun r : Reading σ => r.err = unzOk ∧ Resting contents r.filestream)
      (Failed contents) (currentFileInfo pos size) := by
  have hseek : Leads (fun r : Reading σ => r.err = unzOk ∧ Resting contents r.filestream)
      (Ahead contents (leBytes 4 signature++rest,unzOk)) (seek pos .seekSet) := by
    rintro r ⟨herr,hr⟩
    obtain ⟨before,hbefore⟩ := hr.following
    rw [← hat]
    exact (seek_reads hpos r ⟨herr,hbefore⟩).2
  have hmagic : Leads (Ahead (σ := σ) contents (leBytes 4 signature++rest,unzOk))
      (Failed contents) (magic 0x02014b50) := by
    intro r hr
    have hcheck : Reads (Ahead (σ := σ) contents) (check (signature ≠ 0x02014b50)) (rest,unzOk) ()
        (rest,checked (signature ≠ 0x02014b50) unzOk) := check_reads _
    rw [checked,if_pos ⟨rfl,by simpa using hne⟩] at hcheck
    have hreads : Reads (Ahead (σ := σ) contents) (magic 0x02014b50)
        (leBytes 4 signature++rest,unzOk) () (rest,unzBadZipFile) :=
      whenOk_reads (field hsignature hcheck)
    obtain ⟨herr,hlast⟩ := (hreads r hr).2
    exact ⟨fun hok => absurd (herr.symm.trans hok) (by decide : ¬ unzBadZipFile = unzOk),
      hlast.resting⟩
  have hfixed : Leads (Ahead (σ := σ) contents (leBytes 4 signature++rest,unzOk))
      (Failed contents) fixedPart := by
    unfold fixedPart
    refine hmagic.bind fun _ => ?_
    repeat refine (number_failed _).bind fun _ => ?_
    exact Leads.pure _
  refine hseek.bind fun _ => hfixed.bind fun _ => ?_
  refine (whenOk_failed _ _).bind fun _ => ?_
  exact (whenOk_failed _ _).bind fun _ => Leads.pure _

end OtherRecords

section Ending

/-- How an archive ends: the place behind its central directory, and what stands there. -/
inductive Ending (contents : List UInt8) : Nat → EndOfCentralDir → Prop where
  | plain {centralPos : Nat} (r : EndRecord) (rest : List UInt8)
      (no64 : places centralDir64Signature contents = ∅)
      (last : IsGreatest (places centralDirSignature contents) centralPos)
      (drop_eq : contents.drop centralPos = r.bytes++rest) : Ending contents centralPos r.gi
  | zip64 {centralPos : Nat} (r : EndRecord64) (rest : List UInt8) (locator : Nat)
      (after : List UInt8) (last : IsGreatest (places centralDir64Signature contents) locator)
      (locator_eq : contents.drop locator = locatorBytes centralPos++after)
      (pos : 0 < centralPos)
      (drop_eq : contents.drop centralPos = r.bytes++rest) : Ending contents centralPos r.gi

theorem le_of_drop_eq {pos : Nat} {b : List UInt8} (h : contents.drop pos = b) (hb : 0 < b.length) :
    pos+b.length = contents.length := by
  have hlength := congrArg List.length h
  rw [List.length_drop] at hlength
  omega

theorem searchSignature_last {signature : List UInt8} (hsignature : signature.length = 4)
    (found : Option Nat) (h : GreatestOf (places signature contents) found) {s : σ}
    (hs : Resting contents s) :
    (searchSignature signature s).1 = found.getD 0 ∧
      Resting contents (searchSignature signature s).2 := by
  obtain ⟨pos,hpos⟩ := hs
  obtain ⟨other,place,hreads,hother⟩ := searchSignature_places (σ := σ) contents hsignature pos
  obtain ⟨hfound,hnext⟩ := hreads s hpos
  rw [GreatestOf.unique h hother]
  exact ⟨hfound,_,hnext⟩

theorem readEnd_ending {centralPos : Nat} {gi : EndOfCentralDir}
    (h : Ending contents centralPos gi) {s : σ} (hs : Resting contents s) :
    (readEnd s).1 = (centralPos,gi) ∧ (readEnd s).2.err = unzOk ∧
      Resting contents (readEnd s).2.filestream := by
  cases h with
  | plain r rest no64 last drop_eq =>
    obtain ⟨hnone,hrest⟩ := searchSignature_last rfl none no64 hs
    rw [Option.getD_none] at hnone
    obtain ⟨hfound,hlast⟩ := searchSignature_last rfl (some centralPos) last hrest
    have hlength := le_of_drop_eq drop_eq (by simp [EndRecord.bytes])
    obtain ⟨before,hbefore⟩ := hlast.following
    obtain ⟨hgi,herr,hdone⟩ := r.endOfCentralDir_reads (by omega) last.1.1 drop_eq before
      ⟨_,unzOk⟩ ⟨rfl,hbefore⟩
    have hsearch : searchCentralDir64 s = (0,(searchSignature centralDir64Signature s).2) := by
      unfold searchCentralDir64
      dsimp only
      rw [if_pos hnone]
      exact Prod.ext hnone rfl
    unfold readEnd
    rw [hsearch]
    dsimp only
    rw [if_neg (by simp),searchCentralDir,hfound]
    dsimp only [Option.getD_some]
    exact ⟨Prod.ext rfl hgi,herr,hdone.resting⟩
  | zip64 r rest locator after last locator_eq pos drop_eq =>
    obtain ⟨hfound,hlast⟩ := searchSignature_last rfl (some locator) last hs
    have hlocator := le_of_drop_eq locator_eq (by simp [locatorBytes])
    have hlength := le_of_drop_eq drop_eq (by simp [EndRecord64.bytes])
    have hlt : centralPos < 2^64 := by
      obtain ⟨p,hp⟩ := hs
      have := RandomAccess.length_lt hp.at_pos
      omega
    obtain ⟨before,hbefore⟩ := hlast.following
    have hrecord := drop_eq
    rw [EndRecord64.bytes] at hrecord
    simp only [List.append_assoc] at hrecord
    obtain ⟨hchecked,hnext⟩ := checkLocator_reads (by omega) locator_eq (by omega) hlt hrecord
      before _ hbefore
    obtain ⟨hgi,herr,hdone⟩ := r.endOfCentralDir64_reads (by omega) drop_eq _
      ⟨_,unzOk⟩ ⟨rfl,hnext⟩
    have hsearch : searchCentralDir64 s = (centralPos,((checkLocator locator).run
        (searchSignature centralDir64Signature s).2).2) := by
      unfold searchCentralDir64
      dsimp only
      rw [hfound,if_neg (by have := last.1.1; simp; omega)]
      exact Prod.ext (by rw [Option.getD_some,hchecked]; rfl) rfl
    unfold readEnd
    rw [hsearch]
    dsimp only
    rw [if_pos (by omega)]
    exact ⟨Prod.ext rfl hgi,herr,hdone.resting⟩

end Ending

def Entry.filename (e : Entry) : Text := textOf (e.name.takeWhile (· ≠ 0))

theorem Entry.cString_buffer (e : Entry) : cString (e.buffer (some 512)) = some e.filename := by
  have htake : (e.name++[0]).takeWhile (· ≠ 0) = e.name.takeWhile (· ≠ 0) := by
    rw [List.takeWhile_append]
    split
    case isTrue h =>
      rw [(List.takeWhile_prefix _).eq_of_length h]
      exact List.append_nil _
    case isFalse => rfl
  unfold cString Entry.buffer
  rw [if_pos (by simp),htake,Entry.filename]

instance (e : Entry) : Decidable e.Coherent := decidable_of_iff _ e.headerErr_eq

/-- The items that are listed: those without data, and those whose local header is coherent. -/
def Entry.isListed (e : Entry) : Bool := e.compressedSize.toNat = 0 ∨ e.Coherent

def Entry.dataOffset (before : Nat) (e : Entry) : Nat :=
  if 0 < e.compressedSize.toNat then
    before+e.offsetCurfile.toNat+(sizeZipLocalHeader+e.header.sizeVar) else 0

def Entry.item (before : Nat) (e : Entry) : Text × TZipItemInfo :=
  (e.filename,⟨e.compressionMethod.toNat,e.dataOffset before,e.compressedSize.toNat,
    e.uncompressedSize.toNat⟩)

/-- An archive: the central directory before the end, and the local headers before it. -/
structure ZipLayout (contents : List UInt8) where
  before : Nat
  entries : List Entry
  centralPos : Nat
  gi : EndOfCentralDir
  ending : Ending contents centralPos gi
  numberEntry : gi.numberEntry = entries.length
  centralPos_eq : centralPos = before+(gi.offsetCentralDir+gi.sizeCentralDir)
  central : (contents.drop (before+gi.offsetCentralDir)).take gi.sizeCentralDir =
    entries.flatMap Entry.bytes
  headers : ∀ e ∈ entries, 0 < e.compressedSize.toNat →
    e.header.bytes <+: contents.drop (before+e.offsetCurfile.toNat)

namespace ZipLayout

def items (l : ZipLayout contents) : List (Text × TZipItemInfo) :=
  (l.entries.filter Entry.isListed).map (Entry.item l.before)

/-- Of the items with a path, the first. -/
def table (l : ZipLayout contents) (itemPath : Text) : Option TZipItemInfo :=
  (l.items.find? fun x => x.1 = itemPath).map Prod.snd

end ZipLayout

section CurrentFile
variable {u : Unz64 σ} {rest : List UInt8}

/-- A record becomes the current file. -/
theorem setCurrentFile_entry (e : Entry) (hs : Resting contents u.filestream)
    (hle : u.posInCentralDir+u.byteBeforeTheZipfile ≤ contents.length)
    (hat : contents.drop (u.posInCentralDir+u.byteBeforeTheZipfile) = e.bytes++rest)
    {size : Option Nat} (hsize : size = none ∨ size = some 512) :
    (u.setCurrentFile size).1 = (unzOk,e.buffer size) ∧
      ∃ s, Resting contents s ∧ (u.setCurrentFile size).2 =
        { u with filestream := s, currentFileOk := true, curFileInfo := e.info } := by
  obtain ⟨pos,hpos⟩ := hs
  have hlt := RandomAccess.length_lt hpos.at_pos
  have hadd : SizeT.add u.posInCentralDir u.byteBeforeTheZipfile =
      u.posInCentralDir+u.byteBeforeTheZipfile := SizeT.add_eq (by rw [SizeT.modulus]; omega)
  obtain ⟨r,hreads⟩ := e.currentFileInfo_reads (σ := σ) hle hat hsize (contents.drop pos)
  obtain ⟨hinfo,herr,hnext⟩ := hreads ⟨u.filestream,unzOk⟩ ⟨rfl,pos,hpos,rfl⟩
  unfold Unz64.setCurrentFile
  dsimp only
  rw [hadd,hinfo,herr]
  exact ⟨rfl,_,hnext.resting,rfl⟩

/-- What is no record leaves the archive without a current file. -/
theorem setCurrentFile_other {signature : Nat} (hsignature : signature < 256^4)
    (hne : signature ≠ 0x02014b50) (hs : Resting contents u.filestream)
    (hle : u.posInCentralDir+u.byteBeforeTheZipfile ≤ contents.length)
    (hat : contents.drop (u.posInCentralDir+u.byteBeforeTheZipfile) = leBytes 4 signature++rest)
    (size : Option Nat) :
    (u.setCurrentFile size).1.1 ≠ unzOk ∧
      ∃ s, Resting contents s ∧ (u.setCurrentFile size).2 =
        { u with filestream := s, currentFileOk := false } := by
  obtain ⟨pos,hpos⟩ := hs
  have hlt := RandomAccess.length_lt hpos.at_pos
  have hadd : SizeT.add u.posInCentralDir u.byteBeforeTheZipfile =
      u.posInCentralDir+u.byteBeforeTheZipfile := SizeT.add_eq (by rw [SizeT.modulus]; omega)
  obtain ⟨herr,hnext⟩ := currentFileInfo_other hle hsignature hat hne size
    ⟨u.filestream,unzOk⟩ ⟨rfl,pos,hpos⟩
  unfold Unz64.setCurrentFile
  dsimp only
  rw [hadd,if_neg herr]
  exact ⟨herr,_,hnext,by rw [decide_eq_false herr]⟩

/-- The place of the data, for an item whose local header is coherent. -/
theorem streamPos_entry {e : Entry} (hinfo : u.curFileInfo = e.info)
    (hs : Resting contents u.filestream)
    (hheader : e.header.bytes <+: contents.drop (u.byteBeforeTheZipfile+e.offsetCurfile.toNat))
    (hsize : 0 < e.compressedSize.toNat) :
    (u.unzGetCurrentFileZStreamPosEx64).1 =
        (if e.Coherent then e.dataOffset u.byteBeforeTheZipfile else 0) ∧
      ∃ s, Resting contents s ∧
        (u.unzGetCurrentFileZStreamPosEx64).2 = { u with filestream := s } := by
  obtain ⟨pos,hpos⟩ := hs
  obtain ⟨rest,hrest⟩ := hheader
  have hlt := RandomAccess.length_lt hpos.at_pos
  have hlength := le_of_drop_eq hrest.symm (by simp)
  rw [List.length_append,LocalHeader.length_bytes] at hlength
  have hname := e.header.sizeFilename.toNat_lt
  have hextra := e.header.sizeExtraField.toNat_lt
  have hvar : e.header.sizeVar = e.header.sizeFilename.toNat+e.header.sizeExtraField.toNat := rfl
  have hlocal : sizeZipLocalHeader = 30 := rfl
  have hseek : Reads (Ahead (σ := σ) contents)
      (Reader.seek (u.byteBeforeTheZipfile+e.offsetCurfile.toNat) .seekSet)
      (contents.drop pos,unzOk) () (e.header.bytes++rest,unzOk) := by
    rw [hrest]
    exact Reader.seek_reads (by omega)
  obtain ⟨hvalue,herr,hnext⟩ := Reads.bind (f := fun _ =>
    Reader.whenOk (Reader.coherencyHeader e.info) 0) hseek
    (Reader.whenOk_reads e.coherencyHeader_reads) ⟨u.filestream,unzOk⟩ ⟨rfl,pos,hpos,rfl⟩
  have hadd : SizeT.add e.offsetCurfile.toNat u.byteBeforeTheZipfile =
      u.byteBeforeTheZipfile+e.offsetCurfile.toNat := by
    rw [SizeT.add_eq (by rw [SizeT.modulus]; omega),Nat.add_comm]
  have hcheck : Reader.checkCurrentFileCoherencyHeader (σ := σ) e.info u.byteBeforeTheZipfile =
      (Reader.seek (u.byteBeforeTheZipfile+e.offsetCurfile.toNat) .seekSet >>=
        fun _ => Reader.whenOk (Reader.coherencyHeader e.info) 0) := by
    rw [← hadd]
    rfl
  unfold Unz64.unzGetCurrentFileZStreamPosEx64
  dsimp only
  rw [hinfo,hcheck,hvalue,herr]
  refine ⟨?_,_,hnext.resting,rfl⟩
  have hoffset : e.info.offsetCurfile = e.offsetCurfile.toNat := rfl
  by_cases hcoherent : e.Coherent
  · rw [if_pos (e.headerErr_eq.mpr hcoherent),if_pos hcoherent,Entry.dataOffset,if_pos hsize,
      hoffset,SizeT.add_eq (n := u.byteBeforeTheZipfile) (by rw [SizeT.modulus]; omega),
      SizeT.add_eq (by rw [SizeT.modulus]; omega)]
  · rw [if_neg (fun h => hcoherent (e.headerErr_eq.mp h)),if_neg hcoherent]

/-- What a turn of `GetZipItemInfo` adds. -/
theorem addItem_entry {e : Entry} (hinfo : u.curFileInfo = e.info)
    (hs : Resting contents u.filestream)
    (hheader : 0 < e.compressedSize.toNat →
      e.header.bytes <+: contents.drop (u.byteBeforeTheZipfile+e.offsetCurfile.toNat))
    (m : ItemMap) :
    ∃ s, Resting contents s ∧ u.addItem (e.buffer (some 512)) m =
      some (insertAll (([e].filter Entry.isListed).map (Entry.item u.byteBeforeTheZipfile)) m,
        { u with filestream := s }) := by
  have hsize : u.curFileInfo.compressedSize = e.compressedSize.toNat := by rw [hinfo]; rfl
  have hmethod : u.curFileInfo.compressionMethod = e.compressionMethod.toNat := by rw [hinfo]; rfl
  have hwhole : u.curFileInfo.uncompressedSize = e.uncompressedSize.toNat := by rw [hinfo]; rfl
  unfold Unz64.addItem
  rw [hsize,hmethod,hwhole]
  by_cases hpos : 0 < e.compressedSize.toNat
  · obtain ⟨hoffset,s,hs,hu⟩ := streamPos_entry hinfo hs (hheader hpos) hpos
    refine ⟨s,hs,?_⟩
    dsimp only
    rw [if_pos hpos,hoffset,hu]
    by_cases hcoherent : e.Coherent
    · have hlisted : e.isListed = true := by simp [Entry.isListed,hcoherent]
      have hlow : 0 < e.dataOffset u.byteBeforeTheZipfile := by
        have hlocal : sizeZipLocalHeader = 30 := rfl
        rw [Entry.dataOffset,if_pos hpos]
        omega
      rw [if_pos hcoherent,if_pos (.inl hlow),e.cString_buffer,List.filter_cons_of_pos hlisted]
      rfl
    · have hlisted : ¬ e.isListed = true := by
        simp [Entry.isListed,hcoherent]
        omega
      rw [if_neg hcoherent,if_neg (by omega),List.filter_cons_of_neg hlisted]
      rfl
  · have hlisted : e.isListed = true := by
      have : e.compressedSize.toNat = 0 := by omega
      simp [Entry.isListed,this]
    have hzero : e.dataOffset u.byteBeforeTheZipfile = 0 := if_neg hpos
    refine ⟨u.filestream,hs,?_⟩
    dsimp only
    rw [if_neg hpos,if_pos (by omega),e.cString_buffer,List.filter_cons_of_pos hlisted,
      List.filter_nil,List.map_singleton,Entry.item,hzero]
    rfl

end CurrentFile

structure AtEntry (contents : List UInt8) (e : Entry) (rest : List UInt8) (u : Unz64 σ) : Prop where
  currentFileOk : u.currentFileOk = true
  curFileInfo : u.curFileInfo = e.info
  resting : Resting contents u.filestream
  le : u.posInCentralDir+u.byteBeforeTheZipfile ≤ contents.length
  drop_eq : contents.drop (u.posInCentralDir+u.byteBeforeTheZipfile) = e.bytes++rest

namespace AtEntry
variable {u : Unz64 σ} {e : Entry} {rest : List UInt8}

theorem setFilestream (h : AtEntry contents e rest u) {s : σ} (hs : Resting contents s) :
    AtEntry contents e rest { u with filestream := s } :=
  ⟨h.currentFileOk,h.curFileInfo,hs,h.le,h.drop_eq⟩

/-- To go on is to make what follows the current file. -/
theorem goToNext_eq (h : AtEntry contents e rest u)
    (hmore : ¬ (u.gi.numberEntry ≠ 0xffff ∧ u.numFile+1 = u.gi.numberEntry)) (size : Option Nat) :
    u.unzGoToNextFileEx size = Unz64.setCurrentFile size { u with
        posInCentralDir := u.posInCentralDir+e.bytes.length
        numFile := u.numFile+1 } ∧
      u.posInCentralDir+e.bytes.length+u.byteBeforeTheZipfile ≤ contents.length ∧
      contents.drop (u.posInCentralDir+e.bytes.length+u.byteBeforeTheZipfile) = rest := by
  obtain ⟨pos,hpos⟩ := h.resting
  have hlt := RandomAccess.length_lt hpos.at_pos
  have hplace : u.posInCentralDir+e.bytes.length+u.byteBeforeTheZipfile =
      u.posInCentralDir+u.byteBeforeTheZipfile+e.bytes.length := by omega
  have hlength := congrArg List.length h.drop_eq
  have hle := h.le
  rw [List.length_drop,List.length_append] at hlength
  have hsum : sizeCentralDirItem+u.curFileInfo.sizeFilename+u.curFileInfo.sizeFileExtra+
      u.curFileInfo.sizeFileComment = e.bytes.length := by
    rw [h.curFileInfo]
    exact e.length_bytes.symm
  refine ⟨?_,by omega,by rw [hplace,← List.drop_drop,h.drop_eq,List.drop_left]⟩
  unfold Unz64.unzGoToNextFileEx
  rw [if_neg (by simp [h.currentFileOk]),if_neg hmore,hsum,
    SizeT.add_eq (by rw [SizeT.modulus]; omega)]

theorem goToNext_entry {e' : Entry} (h : AtEntry contents e (e'.bytes++rest) u)
    (hmore : ¬ (u.gi.numberEntry ≠ 0xffff ∧ u.numFile+1 = u.gi.numberEntry)) :
    (u.unzGoToNextFileEx (some 512)).1 = (unzOk,e'.buffer (some 512)) ∧
      AtEntry contents e' rest (u.unzGoToNextFileEx (some 512)).2 ∧
      (u.unzGoToNextFileEx (some 512)).2.gi = u.gi ∧
      (u.unzGoToNextFileEx (some 512)).2.byteBeforeTheZipfile = u.byteBeforeTheZipfile ∧
      (u.unzGoToNextFileEx (some 512)).2.numFile = u.numFile+1 := by
  obtain ⟨hnext,hle,hat⟩ := h.goToNext_eq hmore (some 512)
  obtain ⟨hresult,s,hs,hu⟩ := setCurrentFile_entry (u := { u with
    posInCentralDir := u.posInCentralDir+e.bytes.length
    numFile := u.numFile+1 }) e' h.resting hle hat (.inr rfl)
  rw [hnext,hu]
  exact ⟨hresult,⟨rfl,rfl,hs,hle,hat⟩,rfl,rfl,rfl⟩

theorem goToNext_end {signature : Nat} (hsignature : signature < 256^4)
    (hne : signature ≠ 0x02014b50) (h : AtEntry contents e (leBytes 4 signature++rest) u) :
    Resting contents (u.unzGoToNextFileEx (some 512)).2.filestream := by
  by_cases hmore : u.gi.numberEntry ≠ 0xffff ∧ u.numFile+1 = u.gi.numberEntry
  · unfold Unz64.unzGoToNextFileEx
    rw [if_neg (by simp [h.currentFileOk]),if_pos hmore]
    exact h.resting
  · obtain ⟨hnext,hle,hat⟩ := h.goToNext_eq hmore (some 512)
    obtain ⟨_,s,hs,hu⟩ := setCurrentFile_other (u := { u with
      posInCentralDir := u.posInCentralDir+e.bytes.length
      numFile := u.numFile+1 }) hsignature hne h.resting hle hat (some 512)
    rw [hnext,hu]
    exact hs

end AtEntry

/-- A turn adds the current item and goes on. -/
theorem itemLoop_turn {u : Unz64 σ} {e : Entry} {rest : List UInt8}
    (h : AtEntry contents e rest u) (hheader : 0 < e.compressedSize.toNat →
      e.header.bytes <+: contents.drop (u.byteBeforeTheZipfile+e.offsetCurfile.toNat))
    (m : ItemMap) :
    ∃ s, AtEntry contents e rest { u with filestream := s } ∧ ∀ n,
      Unz64.itemLoop (n+1) (unzOk,e.buffer (some 512)) m u =
        Unz64.itemLoop n (Unz64.unzGoToNextFileEx (some 512) { u with filestream := s }).1
          (insertAll (([e].filter Entry.isListed).map (Entry.item u.byteBeforeTheZipfile)) m)
          (Unz64.unzGoToNextFileEx (some 512) { u with filestream := s }).2 := by
  obtain ⟨s,hs,hadd⟩ := addItem_entry h.curFileInfo h.resting hheader m
  refine ⟨s,h.setFilestream hs,fun n => ?_⟩
  rw [Unz64.itemLoop,if_pos rfl,hadd]
  rfl

/-- The turns that are left add the items that are left. -/
theorem itemLoop_entries {signature : Nat} (hsignature : signature < 256^4)
    (hne : signature ≠ 0x02014b50) {rest : List UInt8} (es : List Entry) {e : Entry}
    {u : Unz64 σ} (h : AtEntry contents e
      (es.flatMap Entry.bytes++(leBytes 4 signature++rest)) u)
    (hnumber : u.numFile+(es.length+1) = u.gi.numberEntry)
    (hheaders : ∀ x ∈ e :: es, 0 < x.compressedSize.toNat →
      x.header.bytes <+: contents.drop (u.byteBeforeTheZipfile+x.offsetCurfile.toNat))
    (m : ItemMap) :
    ∃ t : Unz64 σ, Resting contents t.filestream ∧
      Unz64.itemLoop (es.length+1) (unzOk,e.buffer (some 512)) m u =
        some (insertAll (((e :: es).filter Entry.isListed).map
          (Entry.item u.byteBeforeTheZipfile)) m,t) := by
  obtain ⟨s,hs,hturn⟩ := itemLoop_turn h (hheaders e (List.mem_cons_self ..)) m
  induction es generalizing e u m s with
  | nil => exact ⟨_,hs.goToNext_end hsignature hne,hturn 0⟩
  | cons e' es ih =>
    rw [List.length_cons] at hnumber
    rw [List.flatMap_cons,List.append_assoc] at hs
    obtain ⟨hresult,hnext,hgi,hbefore,hnumFile⟩ := hs.goToNext_entry (fun hlast => by
      have := hlast.2
      simp only at this
      omega)
    obtain ⟨v,hv⟩ : ∃ v, (Unz64.unzGoToNextFileEx (some 512) { u with filestream := s }).2 = v :=
      ⟨_,rfl⟩
    rw [hv] at hnext hgi hbefore hnumFile
    simp only at hgi hbefore hnumFile
    have hrest : ∀ x ∈ e' :: es, 0 < x.compressedSize.toNat →
        x.header.bytes <+: contents.drop (v.byteBeforeTheZipfile+x.offsetCurfile.toNat) := by
      rw [hbefore]
      exact fun x hx => hheaders x (List.mem_cons_of_mem _ hx)
    obtain ⟨s',hs',hturn'⟩ := itemLoop_turn hnext (hrest e' (List.mem_cons_self ..))
      (insertAll (([e].filter Entry.isListed).map (Entry.item u.byteBeforeTheZipfile)) m)
    obtain ⟨t,ht,hloop⟩ := ih hnext (by rw [hgi,hnumFile]; omega) hrest _ s' hs' hturn'
    refine ⟨t,ht,?_⟩
    rw [List.length_cons,hturn,hresult,hv,hloop,hbefore,insertAll,insertAll,← List.foldl_append,
      ← List.map_append,← List.filter_append]
    rfl

namespace ZipLayout

theorem other (l : ZipLayout contents) : ∃ signature rest, signature < 256^4 ∧
    signature ≠ 0x02014b50 ∧ contents.drop l.centralPos = leBytes 4 signature++rest := by
  obtain ⟨before,entries,centralPos,gi,ending,_,_,_,_⟩ := l
  cases ending with
  | plain r rest no64 last drop_eq =>
    rw [EndRecord.bytes,List.append_assoc] at drop_eq
    exact ⟨_,_,by decide,by decide,drop_eq⟩
  | zip64 r rest locator after last locator_eq pos drop_eq =>
    rw [EndRecord64.bytes,List.append_assoc] at drop_eq
    exact ⟨_,_,by decide,by decide,drop_eq⟩

theorem centralPos_le (l : ZipLayout contents) : l.centralPos ≤ contents.length := by
  obtain ⟨signature,rest,_,_,hdrop⟩ := l.other
  have := le_of_drop_eq hdrop (by simp)
  omega

theorem drop_central (l : ZipLayout contents) :
    contents.drop (l.gi.offsetCentralDir+l.before) =
      l.entries.flatMap Entry.bytes++contents.drop l.centralPos := by
  have hsplit := List.take_append_drop l.gi.sizeCentralDir
    (contents.drop (l.before+l.gi.offsetCentralDir))
  rw [l.central,List.drop_drop,Nat.add_assoc,← l.centralPos_eq] at hsplit
  rw [hsplit,Nat.add_comm]

/-- The first file of the archive, for both of its uses. -/
theorem goToFirst (l : ZipLayout contents) {u : Unz64 σ} (hgi : u.gi = l.gi)
    (hbefore : u.byteBeforeTheZipfile = l.before) (hs : Resting contents u.filestream)
    {size : Option Nat} (hsize : size = none ∨ size = some 512) :
    (u.unzGoToFirstFileEx size).2.gi = l.gi ∧
      (u.unzGoToFirstFileEx size).2.byteBeforeTheZipfile = l.before ∧
      Resting contents (u.unzGoToFirstFileEx size).2.filestream ∧
      ∀ e es, l.entries = e :: es →
        (u.unzGoToFirstFileEx size).1 = (unzOk,e.buffer size) ∧
        (u.unzGoToFirstFileEx size).2.numFile = 0 ∧
        AtEntry contents e (es.flatMap Entry.bytes++contents.drop l.centralPos)
          (u.unzGoToFirstFileEx size).2 := by
  have hle : l.gi.offsetCentralDir+l.before ≤ contents.length := by
    have := l.centralPos_le
    have := l.centralPos_eq
    omega
  have hdrop := l.drop_central
  rw [← hgi,← hbefore] at hle hdrop
  unfold Unz64.unzGoToFirstFileEx
  rcases hentries : l.entries with _ | ⟨e,es⟩
  · obtain ⟨signature,rest,hsignature,hne,hother⟩ := l.other
    rw [hentries,List.flatMap_nil,List.nil_append,hother] at hdrop
    obtain ⟨_,s,hs,hu⟩ := setCurrentFile_other (u := { u with
      posInCentralDir := u.gi.offsetCentralDir, numFile := 0 }) hsignature hne hs hle hdrop size
    rw [hu]
    exact ⟨hgi,hbefore,hs,by simp⟩
  · rw [hentries,List.flatMap_cons,List.append_assoc] at hdrop
    obtain ⟨hresult,s,hs,hu⟩ := setCurrentFile_entry (u := { u with
      posInCentralDir := u.gi.offsetCentralDir, numFile := 0 }) e hs hle hdrop hsize
    rw [hu]
    refine ⟨hgi,hbefore,hs,fun e' es' heq => ?_⟩
    obtain ⟨rfl,rfl⟩ := List.cons.inj heq
    exact ⟨hresult,rfl,rfl,rfl,hs,hle,hdrop⟩

theorem unzOpenInternal_eq (l : ZipLayout contents) {s : σ}
    (hopen : (IStreamBase.openStream s).1 = true)
    (hs : Resting contents (IStreamBase.openStream s).2) :
    ∃ u, unzOpenInternal s = some u ∧ u.gi = l.gi ∧ u.byteBeforeTheZipfile = l.before ∧
      Resting contents u.filestream := by
  obtain ⟨hending,herr,hrest⟩ := readEnd_ending l.ending hs
  obtain ⟨pos,hpos⟩ := hs
  have hlt := RandomAccess.length_lt hpos.at_pos
  have hle := l.centralPos_le
  have heq := l.centralPos_eq
  have hadd : SizeT.add l.gi.offsetCentralDir l.gi.sizeCentralDir =
      l.gi.offsetCentralDir+l.gi.sizeCentralDir := SizeT.add_eq (by rw [SizeT.modulus]; omega)
  obtain ⟨u,hu⟩ : ∃ u : Unz64 σ, u = {
      filestream := (readEnd (IStreamBase.openStream s).2).2.filestream
      gi := l.gi
      byteBeforeTheZipfile := l.centralPos-(l.gi.offsetCentralDir+l.gi.sizeCentralDir)
      numFile := 0
      posInCentralDir := 0
      currentFileOk := false
      curFileInfo := default } := ⟨_,rfl⟩
  obtain ⟨hgi,hbefore,hstands,_⟩ := l.goToFirst (u := u) (by rw [hu]) (by rw [hu]; simp only; omega)
    (by rw [hu]; exact hrest) (.inl rfl)
  refine ⟨_,?_,hgi,hbefore,hstands⟩
  unfold unzOpenInternal
  dsimp only
  rw [if_neg (by simp [hopen]),hending,herr]
  dsimp only
  rw [hadd,if_neg (by simp only [ne_eq,not_true,false_or]; omega),hu]

/-- `InitZipArchive` lists the items, wherever the stream of the archive comes from. -/
theorem initZipArchive_items (l : ZipLayout contents) {s : σ}
    (hopen : (IStreamBase.openStream s).1 = true)
    (hs : Resting contents (IStreamBase.openStream s).2) :
    ∃ t, initZipArchive s = some (insertAll l.items [],t) ∧ Resting contents t := by
  obtain ⟨u,hu,hgi,hbefore,hrest⟩ := l.unzOpenInternal_eq hopen hs
  obtain ⟨hgi',hbefore',hrest',hfirst⟩ := l.goToFirst hgi hbefore hrest (.inr rfl)
  have hitems : ∃ v : Unz64 σ, Resting contents v.filestream ∧
      u.getZipItemInfo = some (insertAll l.items [],v) := by
    unfold Unz64.getZipItemInfo
    dsimp only
    rw [hgi,l.numberEntry,items]
    rcases hentries : l.entries with _ | ⟨e,es⟩
    · exact ⟨_,hrest',rfl⟩
    · obtain ⟨hresult,hnumFile,hat⟩ := hfirst e es hentries
      obtain ⟨signature,rest,hsignature,hne,hother⟩ := l.other
      have hnumber := l.numberEntry
      rw [hentries,List.length_cons] at hnumber
      rw [hother] at hat
      have hloop := itemLoop_entries hsignature hne es hat (by rw [hnumFile,hgi']; omega)
        (by rw [hbefore',← hentries]; exact l.headers) []
      rw [hbefore'] at hloop
      rw [hresult]
      exact hloop
  obtain ⟨v,hv,hget⟩ := hitems
  refine ⟨v.filestream,?_,hv⟩
  rw [initZipArchive,hu,Option.bind_eq_bind,Option.bind_some,hget]
  rfl

end ZipLayout

end MprMq.Epub
