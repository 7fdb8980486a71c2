import MprMq.Epub.ZipArchive
set_option autoImplicit false

/-! What is read of the items of an archive, in any order of the calls. -/

namespace MprMq.Epub
open MprMq.Base MprMq.Lib

variable {σ S : Type} [IStreamBase σ] [RandomAccess σ] {archive : List UInt8} {zip : σ}

/-- The stream of the archive is open, wherever it stands, and stays so when items are closed. -/
structure Ready (archive : List UInt8) (zip : σ) : Prop where
  place : ∃ pos, RandomAccess.At archive pos zip
  selfClose : IStreamBase.selfClose zip = true

namespace OffsetStream
variable {o : OffsetStream}

/-- A read takes nothing, or bytes of the part one behind the other. -/
theorem read_window (h : Inside archive o) (hready : Ready archive zip) (bufSize : Int) :
    ((∃ n ≤ 0, (o.read bufSize zip).1 = (n,[])) ∨
      ∃ k count, (o.read bufSize zip).1 = delivered (((o.part archive).drop k).take count)) ∧
    Ready archive (o.read bufSize zip).2 := by
  obtain ⟨pos,hat⟩ := hready.place
  by_cases hout : bufSize ≤ 0 ∨ o.status = .invalid ∨ o.nSize = 0 ∨ pos < o.nOffset ∨
      o.nOffset+o.nSize ≤ pos
  · obtain ⟨n,hn,hread⟩ := read_outside h hat hout
    rw [hread]
    exact ⟨.inl ⟨n,hn,rfl⟩,hready⟩
  · simp only [not_or] at hout
    obtain ⟨hbuf,hstatus,_,hlow,hhigh⟩ := hout
    obtain ⟨count,rfl⟩ := Int.eq_ofNat_of_zero_le (by omega : 0 ≤ bufSize)
    obtain ⟨t,hread,hnext,hflag⟩ := read_inside h hat hstatus (by omega) (by omega)
      (by omega : 0 < count)
    rw [hread]
    exact ⟨.inr ⟨_,_,rfl⟩,⟨_,hnext⟩,hflag.trans hready.selfClose⟩

theorem Ready.rewind (h : Inside archive o) (hready : Ready archive zip) :
    Ready archive (o.rewind zip) := by
  obtain ⟨pos,hat⟩ := hready.place
  obtain ⟨hnext,hflag⟩ := rewind_spec h hat
  exact ⟨⟨_,hnext⟩,hflag.trans hready.selfClose⟩

/-- To open an item moves the stream of the archive, and changes only the status of its own. -/
theorem openStream_ready (h : Inside archive o) (hready : Ready archive zip) :
    (∃ status, (o.openStream zip).2.1 = { o with status := status }) ∧
      Ready archive (o.openStream zip).2.2 := by
  obtain ⟨pos,hat⟩ := hready.place
  by_cases hstatus : o.status = .invalid
  · rw [openStream_spec h hat hstatus]
    split
    case isTrue => exact ⟨⟨o.status,rfl⟩,hready⟩
    case isFalse => exact ⟨⟨.opened,rfl⟩,Ready.rewind h hready⟩
  · rw [openStream,if_neg hstatus]
    exact ⟨⟨o.status,rfl⟩,hready⟩

theorem close_eq (o : OffsetStream) (hready : Ready archive zip) :
    o.close zip = ({ o with status := .invalid },zip) := by
  rw [close,if_pos hready.selfClose]

end OffsetStream

def TZipItemInfo.window (info : TZipItemInfo) (archive : List UInt8) : List UInt8 :=
  (archive.drop info.dataOffset).take info.compressedSize

/-- An item is a part of the archive that an `int` counts. -/
def Listed (archive : List UInt8) (info : TZipItemInfo) : Prop :=
  info.dataOffset+info.compressedSize ≤ archive.length ∧ info.compressedSize < 2^31

def IsPart (info : TZipItemInfo) (o : OffsetStream) : Prop :=
  o.nOffset = info.dataOffset ∧ o.nSize = info.compressedSize

def ItemFits (info : TZipItemInfo) : ItemStream S → Prop
  | .stored o => info.compressionMethod = 0 ∧ IsPart info o
  | .deflated d => info.compressionMethod = zDeflated ∧ IsPart info d.innerStream

section Streams
variable {info : TZipItemInfo}

theorem IsPart.inside {o : OffsetStream} (h : IsPart info o) (hlisted : Listed archive info) :
    OffsetStream.Inside archive o :=
  ⟨by rw [h.1,h.2]; exact hlisted.1,by rw [h.2]; exact hlisted.2⟩

theorem IsPart.part {o : OffsetStream} (h : IsPart info o) :
    o.part archive = info.window archive := by
  rw [OffsetStream.part,h.1,h.2,TZipItemInfo.window]

theorem IsPart.status {o : OffsetStream} (h : IsPart info o) (status : TStreamStatus) :
    IsPart info { o with status := status } := h

namespace DecompressStream
variable {zlib : Zlib S} {d : DecompressStream S}

variable (zlib) in
theorem openStream_ready (hpart : IsPart info d.innerStream) (hlisted : Listed archive info)
    (hready : Ready archive zip) :
    IsPart info (d.openStream zlib info zip).2.1.innerStream ∧
      Ready archive (d.openStream zlib info zip).2.2 := by
  obtain ⟨⟨status,hinner⟩,hopened⟩ :=
    OffsetStream.openStream_ready (hpart.inside hlisted) hready
  unfold DecompressStream.openStream
  split
  case isTrue =>
    dsimp only
    split
    case isTrue =>
      refine ⟨by rw [DecompressStream.rewind,hinner]; exact hpart,?_⟩
      refine OffsetStream.Ready.rewind ?_ hopened
      rw [hinner]
      exact (hpart.status status).inside hlisted
    case isFalse => exact ⟨by rw [hinner]; exact hpart,hopened⟩
  case isFalse => exact ⟨hpart,hready⟩

/-- What the turns of the loop keep. -/
theorem read_ready {fuel : Nat} {bufSize : Int} {result : ReadResult × DecompressStream S × σ}
    (hpart : IsPart info d.innerStream) (hlisted : Listed archive info)
    (hready : Ready archive zip) (h : d.read zlib fuel info bufSize zip = some result) :
    IsPart info result.2.1.innerStream ∧ Ready archive result.2.2 := by
  have hinflate : ∀ s : InflateState σ S, IsPart info s.stream.innerStream ∧
      Ready archive s.zip → (inflateTurn zlib s).Meets
        (fun t => IsPart info t.stream.innerStream ∧ Ready archive t.zip)
        (fun result => IsPart info result.2.1.innerStream ∧ Ready archive result.2.2) := by
    intro s hs
    unfold inflateTurn
    dsimp only
    split
    case isTrue => exact hs
    case isFalse =>
      split
      case isTrue => exact hs
      case isFalse => exact hs
  have hturn : ∀ (s : InflateState σ S) o, IsPart info s.stream.innerStream ∧
      Ready archive s.zip → some (readTurn zlib s) = some o → o.Meets
        (fun t => IsPart info t.stream.innerStream ∧ Ready archive t.zip)
        (fun result => IsPart info result.2.1.innerStream ∧ Ready archive result.2.2) := by
    rintro s o hs ⟨⟩
    have hread := (OffsetStream.read_window (hs.1.inside hlisted) hs.2 unzBufSize).2
    unfold readTurn
    split
    case isTrue => exact hs
    case isFalse =>
      split
      case isTrue =>
        dsimp only
        split
        case isTrue => exact ⟨hs.1,hread⟩
        case isFalse =>
          split
          case isTrue => exact ⟨hs.1,hread⟩
          case isFalse => exact hinflate _ ⟨hs.1,hread⟩
      case isFalse => exact hinflate s hs
  unfold DecompressStream.read at h
  split at h
  case isTrue => cases h; exact ⟨hpart,hready⟩
  case isFalse =>
    split at h
    case isTrue => cases h; exact ⟨hpart,hready⟩
    case isFalse =>
      split at h
      case isTrue => cases h; exact ⟨hpart,hready⟩
      case isFalse => exact runLoop_partial hturn ⟨hpart,hready⟩ h

end DecompressStream

namespace ItemStream
variable {zlib : Zlib S} {stream : ItemStream S}

variable (zlib) in
theorem openStream_ready (hfits : ItemFits info stream) (hlisted : Listed archive info)
    (hready : Ready archive zip) :
    ItemFits info (stream.openStream zlib info zip).2.1 ∧
      Ready archive (stream.openStream zlib info zip).2.2 := by
  cases stream with
  | stored o =>
    obtain ⟨⟨status,hstream⟩,hopened⟩ :=
      OffsetStream.openStream_ready (hfits.2.inside hlisted) hready
    exact ⟨⟨hfits.1,hstream ▸ hfits.2⟩,hopened⟩
  | deflated d =>
    obtain ⟨hpart,hopened⟩ := DecompressStream.openStream_ready zlib hfits.2 hlisted hready
    exact ⟨⟨hfits.1,hpart⟩,hopened⟩

theorem close_ready (hfits : ItemFits info stream) (hready : Ready archive zip) :
    ItemFits info (stream.close zip).1 ∧ (stream.close zip).2 = zip := by
  cases stream with
  | stored o =>
    rw [ItemStream.close,o.close_eq hready]
    exact ⟨hfits,rfl⟩
  | deflated d =>
    rw [ItemStream.close,DecompressStream.close,d.innerStream.close_eq hready]
    exact ⟨hfits,rfl⟩

theorem rewind_ready (hfits : ItemFits info stream) (hlisted : Listed archive info)
    (hready : Ready archive zip) :
    ItemFits info (stream.rewind info zip).1 ∧ Ready archive (stream.rewind info zip).2 := by
  cases stream with
  | stored o => exact ⟨hfits,OffsetStream.Ready.rewind (hfits.2.inside hlisted) hready⟩
  | deflated d => exact ⟨hfits,OffsetStream.Ready.rewind (hfits.2.inside hlisted) hready⟩

theorem read_ready {fuel : Nat} {bufSize : Int} {result : ReadResult × ItemStream S × σ}
    (hfits : ItemFits info stream) (hlisted : Listed archive info) (hready : Ready archive zip)
    (h : stream.read zlib fuel info bufSize zip = some result) :
    ItemFits info result.2.1 ∧ Ready archive result.2.2 := by
  cases stream with
  | stored o =>
    cases h
    exact ⟨hfits,(OffsetStream.read_window (hfits.2.inside hlisted) hready bufSize).2⟩
  | deflated d =>
    obtain ⟨out,hread,rfl⟩ := Option.map_eq_some_iff.mp h
    obtain ⟨hpart,hopened⟩ := DecompressStream.read_ready hfits.2 hlisted hready hread
    exact ⟨⟨hfits.1,hpart⟩,hopened⟩

end ItemStream

end Streams

namespace ZipArchiveReader

structure Sound (archive : List UInt8) (table : Text → Option TZipItemInfo)
    (r : ZipArchiveReader σ S) : Prop where
  ready : Ready archive r.pZipStream
  items : r.mapZipItemInfo = table
  fits : ∀ hItem stream, r.itemStream hItem = some stream →
    ∃ info, table hItem = some info ∧ ItemFits info stream

variable {table : Text → Option TZipItemInfo} {r : ZipArchiveReader σ S} {zlib : Zlib S}
  {fuel : Nat} {hItem : Text} {info : TZipItemInfo}

theorem Sound.put (h : Sound archive table r) (hinfo : table hItem = some info)
    {result : ItemStream S × σ} (hfits : ItemFits info result.1) (hready : Ready archive result.2) :
    Sound archive table (r.put hItem result) where
  ready := hready
  items := h.items
  fits := by
    intro other stream hstream
    by_cases heq : other = hItem
    · subst heq
      rw [put_self] at hstream
      exact Option.some.inj hstream ▸ ⟨info,hinfo,hfits⟩
    · rw [put_of_ne heq] at hstream
      exact h.fits other stream hstream

theorem Sound.fits_info (h : Sound archive table r) (hinfo : table hItem = some info)
    {stream : ItemStream S} (hstream : r.itemStream hItem = some stream) :
    ItemFits info stream := by
  obtain ⟨other,hother,hfits⟩ := h.fits hItem stream hstream
  exact Option.some.inj (hinfo.symm.trans hother) ▸ hfits

theorem itemFits_newItemStream {stream : ItemStream S} (h : newItemStream zlib info = some stream) :
    ItemFits info stream := by
  unfold newItemStream at h
  dsimp only at h
  split at h
  case isTrue hmethod => exact Option.some.inj h ▸ ⟨hmethod,rfl,rfl⟩
  case isFalse =>
    split at h
    case isTrue hmethod => exact Option.some.inj h ▸ ⟨hmethod,rfl,rfl⟩
    case isFalse => cases h

theorem Sound.fits_or (h : Sound archive table r) (hinfo : table hItem = some info)
    {stream : ItemStream S}
    (hstream : (r.itemStream hItem).or (newItemStream zlib info) = some stream) :
    ItemFits info stream := by
  rcases hold : r.itemStream hItem with _ | old
  · rw [hold] at hstream
    exact itemFits_newItemStream hstream
  · rw [hold] at hstream
    exact Option.some.inj hstream ▸ h.fits_info hinfo hold

variable (zlib) in
theorem Sound.openItem (h : Sound archive table r)
    (hlisted : ∀ hItem info, table hItem = some info → Listed archive info) (itemPath : Text) :
    Sound archive table (r.openItem zlib itemPath).2 := by
  unfold ZipArchiveReader.openItem
  dsimp only
  split
  case h_1 => exact h
  case h_2 info hinfo =>
    rw [h.items] at hinfo
    split
    case h_1 => exact h
    case h_2 stream hstream =>
      obtain ⟨hfits,hready⟩ :=
        ItemStream.openStream_ready zlib (h.fits_or hinfo hstream) (hlisted _ info hinfo) h.ready
      exact h.put hinfo hfits hready

theorem Sound.closeItem (h : Sound archive table r) (hItem : Text) :
    Sound archive table (r.closeItem hItem) := by
  unfold ZipArchiveReader.closeItem
  split
  case h_1 stream hstream =>
    obtain ⟨info,hinfo,hfits⟩ := h.fits hItem stream hstream
    obtain ⟨hfits,hzip⟩ := ItemStream.close_ready hfits h.ready
    exact h.put hinfo hfits (by rw [hzip]; exact h.ready)
  case h_2 => exact h

theorem Sound.rewindItem (h : Sound archive table r)
    (hlisted : ∀ hItem info, table hItem = some info → Listed archive info) (hItem : Text) :
    Sound archive table (r.rewindItem hItem) := by
  unfold ZipArchiveReader.rewindItem
  split
  case h_1 info stream hinfo hstream =>
    rw [h.items] at hinfo
    obtain ⟨hfits,hready⟩ :=
      ItemStream.rewind_ready (h.fits_info hinfo hstream) (hlisted _ info hinfo) h.ready
    exact h.put hinfo hfits hready
  case h_2 => exact h

theorem Sound.readItem (h : Sound archive table r)
    (hlisted : ∀ hItem info, table hItem = some info → Listed archive info) {maxBufLen : Int}
    {result : ReadResult × ZipArchiveReader σ S}
    (hread : r.readItem zlib fuel hItem maxBufLen = some result) :
    Sound archive table result.2 := by
  unfold ZipArchiveReader.readItem at hread
  split at hread
  case h_1 info stream hinfo hstream =>
    rw [h.items] at hinfo
    obtain ⟨out,hout,rfl⟩ := Option.map_eq_some_iff.mp hread
    obtain ⟨hfits,hready⟩ := ItemStream.read_ready (h.fits_info hinfo hstream)
      (hlisted _ info hinfo) h.ready hout
    exact h.put hinfo hfits hready
  case h_2 => cases hread; exact h

theorem Sound.call (h : Sound archive table r)
    (hlisted : ∀ hItem info, table hItem = some info → Listed archive info) {zipCall : ZipCall}
    {t : ZipArchiveReader σ S} (hcall : r.call zlib fuel zipCall = some t) :
    Sound archive table t := by
  cases zipCall with
  | openItem itemPath => exact Option.some.inj hcall ▸ h.openItem zlib hlisted itemPath
  | readItem hItem maxBufLen =>
    obtain ⟨result,hread,rfl⟩ := Option.map_eq_some_iff.mp hcall
    exact h.readItem hlisted hread
  | closeItem hItem => exact Option.some.inj hcall ▸ h.closeItem hItem
  | rewindItem hItem => exact Option.some.inj hcall ▸ h.rewindItem hlisted hItem
  | readAllForItem itemPath maxBufLen =>
    obtain ⟨result,hread,rfl⟩ := Option.map_eq_some_iff.mp hcall
    unfold ZipArchiveReader.readAllForItem at hread
    dsimp only at hread
    split at hread
    case isTrue => cases hread; exact h
    case isFalse =>
      split at hread
      case h_1 => cases hread; exact h
      case h_2 =>
        have hopened :=
          (h.closeItem (replaceWin32PathSep itemPath)).openItem zlib hlisted itemPath
        split at hread
        case isTrue => cases hread; exact h
        case isFalse =>
          split at hread
          case isTrue => cases hread; exact hopened
          case isFalse =>
            obtain ⟨out,hout,rfl⟩ := Option.map_eq_some_iff.mp hread
            exact (hopened.readItem hlisted hout).closeItem _
  | readAllForHandle hItem maxBufLen =>
    obtain ⟨result,hread,rfl⟩ := Option.map_eq_some_iff.mp hcall
    unfold ZipArchiveReader.readAllForHandle at hread
    split at hread
    case h_1 => cases hread; exact h
    case h_2 =>
      split at hread
      case isTrue => cases hread; exact h
      case isFalse =>
        split at hread
        case h_1 => cases hread; exact h
        case h_2 =>
          split at hread
          case isTrue => cases hread; exact h
          case isFalse => exact (h.rewindItem hlisted hItem).readItem hlisted hread

theorem Sound.run {opened : ZipArchiveReader σ S} (h : Sound archive table opened)
    (hlisted : ∀ hItem info, table hItem = some info → Listed archive info)
    {calls : List ZipCall} (hrun : (system zlib fuel opened).run calls = some r) :
    Sound archive table r :=
  System.Inductive.run ⟨h,fun s _ t hs hcall => Sound.call (r := s) (t := t) hs hlisted hcall⟩ hrun

end ZipArchiveReader

section Fresh
variable {info : TZipItemInfo} {zlib : Zlib S} {stream : ItemStream S}

def Closed : ItemStream S → Prop
  | .stored o => o.status = .invalid
  | .deflated d => d.status = .invalid ∧ d.innerStream.status = .invalid

/-- Opened and not yet read, with the archive at the first byte of the item. -/
def Fresh (zlib : Zlib S) (info : TZipItemInfo) (archive : List UInt8) (zip : σ) :
    ItemStream S → Prop
  | .stored o => o.status = .opened ∧ RandomAccess.At archive info.dataOffset zip
  | .deflated d => d.status = .opened ∧ d.innerStream.status = .opened ∧
      d.inflateStream = zlib.inflateInit2 ∧ d.availIn = [] ∧
      d.restUncompressedSize = info.uncompressedSize ∧
      RandomAccess.At archive info.dataOffset zip

theorem OffsetStream.openStream_part {o : OffsetStream} (hpart : IsPart info o)
    (hlisted : Listed archive info) (hready : Ready archive zip) (hclosed : o.status = .invalid)
    (hsize : 0 < info.compressedSize) :
    ∃ t, o.openStream zip = (true,{ o with status := .opened },t) ∧
      RandomAccess.At archive info.dataOffset t := by
  obtain ⟨pos,hat⟩ := hready.place
  have hinside := hpart.inside hlisted
  rw [OffsetStream.openStream_spec hinside hat hclosed,if_neg (by rw [hpart.2]; omega)]
  exact ⟨_,rfl,hpart.1 ▸ (OffsetStream.rewind_spec hinside hat).1⟩

variable (zlib) in
theorem ItemStream.openStream_fresh (hfits : ItemFits info stream) (hlisted : Listed archive info)
    (hready : Ready archive zip) (hclosed : Closed stream) (hsize : 0 < info.compressedSize) :
    (stream.openStream zlib info zip).1 = true ∧
      Fresh zlib info archive (stream.openStream zlib info zip).2.2
        (stream.openStream zlib info zip).2.1 := by
  cases stream with
  | stored o =>
    obtain ⟨t,hopen,hat⟩ :=
      OffsetStream.openStream_part hfits.2 hlisted hready hclosed hsize
    rw [ItemStream.openStream,hopen]
    exact ⟨rfl,rfl,hat⟩
  | deflated d =>
    obtain ⟨hmethod,hpart⟩ := hfits
    obtain ⟨t,hopen,hat⟩ :=
      OffsetStream.openStream_part hpart hlisted hready hclosed.2 hsize
    have hinside : OffsetStream.Inside archive { d.innerStream with status := .opened } :=
      (hpart.status .opened).inside hlisted
    have herror : ({ d with
        status := .opened
        innerStream := { d.innerStream with status := .opened } } : DecompressStream S).error
          info t = false := by
      rw [DecompressStream.error,OffsetStream.error_eq hinside hat]
      simp [hmethod,hpart.2]
      omega
    have hrewind := (OffsetStream.rewind_spec hinside hat).1
    rw [ItemStream.openStream,DecompressStream.openStream,if_pos hclosed.1,hopen]
    dsimp only
    rw [herror]
    exact ⟨rfl,rfl,rfl,rfl,rfl,rfl,hpart.1 ▸ hrewind⟩

end Fresh

namespace ZipArchiveReader
variable {table : Text → Option TZipItemInfo} {r : ZipArchiveReader σ S} {zlib : Zlib S}
  {fuel : Nat} {hItem : Text} {info : TZipItemInfo}

omit [RandomAccess σ] in
theorem closed_closeItem {stream : ItemStream S}
    (h : (r.closeItem hItem).itemStream hItem = some stream) : Closed stream := by
  unfold closeItem at h
  split at h
  case h_1 old hold =>
    rw [put_self] at h
    obtain rfl := Option.some.inj h
    cases old with
    | stored o => rfl
    | deflated d => exact ⟨rfl,rfl⟩
  case h_2 hnone =>
    rw [hnone] at h
    cases h

omit [IStreamBase σ] [RandomAccess σ] in
theorem closed_newItemStream {stream : ItemStream S}
    (h : newItemStream zlib info = some stream) : Closed stream := by
  unfold newItemStream at h
  dsimp only at h
  split at h
  case isTrue => exact Option.some.inj h ▸ rfl
  case isFalse =>
    split at h
    case isTrue => exact Option.some.inj h ▸ ⟨rfl,rfl⟩
    case isFalse => cases h

omit [IStreamBase σ] [RandomAccess σ] in
variable (zlib) in
theorem newItemStream_isSome (h : info.compressionMethod = 0 ∨ info.compressionMethod = zDeflated) :
    ∃ stream, newItemStream zlib info = some stream := by
  unfold newItemStream
  rcases h with h | h
  · exact ⟨_,if_pos h⟩
  · rw [if_neg (by rw [h]; decide),if_pos h]
    exact ⟨_,rfl⟩

variable (zlib fuel) in
/-- `ReadAllForItem` reads from a stream that has just been opened. -/
theorem readAllForItem_fresh (h : Sound archive table r)
    (hlisted : ∀ hItem info, table hItem = some info → Listed archive info) {itemPath : Text}
    (hinfo : table (replaceWin32PathSep itemPath) = some info)
    (hmethod : info.compressionMethod = 0 ∨ info.compressionMethod = zDeflated)
    (hsize : 0 < info.compressedSize) {maxBufLen : Int} (hlow : 0 < info.uncompressedSize)
    (hbuf : info.uncompressedSize ≤ maxBufLen) (hint : maxBufLen < 2^31) :
    ∃ (stream : ItemStream S) (zip : σ), ItemFits info stream ∧ Fresh zlib info archive zip stream ∧
      ∀ result, stream.read zlib fuel info info.uncompressedSize zip = some result →
        ∃ t, r.readAllForItem zlib fuel itemPath maxBufLen = some (result.1,t) := by
  have hsound := h.closeItem (replaceWin32PathSep itemPath)
  obtain ⟨stream,hstream,hclosed⟩ : ∃ stream,
      ((r.closeItem (replaceWin32PathSep itemPath)).itemStream (replaceWin32PathSep itemPath)).or
        (newItemStream zlib info) = some stream ∧ Closed stream := by
    obtain ⟨new,hnew⟩ := newItemStream_isSome zlib hmethod
    rcases hold : (r.closeItem (replaceWin32PathSep itemPath)).itemStream
      (replaceWin32PathSep itemPath) with _ | old
    · exact ⟨new,hnew,closed_newItemStream hnew⟩
    · exact ⟨old,rfl,closed_closeItem hold⟩
  have hfits := hsound.fits_or hinfo hstream
  have hlist := hlisted _ info hinfo
  obtain ⟨hopen,hfresh⟩ :=
    ItemStream.openStream_fresh zlib hfits hlist hsound.ready hclosed hsize
  refine ⟨_,_,(ItemStream.openStream_ready zlib hfits hlist hsound.ready).1,hfresh,
    fun result hread => ?_⟩
  have hopened : (r.closeItem (replaceWin32PathSep itemPath)).openItem zlib itemPath =
      (some (replaceWin32PathSep itemPath),
        (r.closeItem (replaceWin32PathSep itemPath)).put (replaceWin32PathSep itemPath)
          (stream.openStream zlib info
            (r.closeItem (replaceWin32PathSep itemPath)).pZipStream).2) := by
    unfold ZipArchiveReader.openItem
    dsimp only
    rw [hsound.items,hinfo]
    dsimp only
    rw [hstream]
    dsimp only
    rw [hopen,if_pos rfl]
  unfold ZipArchiveReader.readAllForItem
  dsimp only
  rw [if_neg (by omega),h.items,hinfo]
  dsimp only
  rw [if_neg (by omega),hopened,if_neg (by simp),toInt32_of_range (by omega) (by omega)]
  unfold ZipArchiveReader.readItem
  rw [put_self,put_mapZipItemInfo,hsound.items,hinfo]
  dsimp only
  rw [put_pZipStream,hread]
  exact ⟨_,rfl⟩

/-- After any calls, a read of an item that is stored hands out bytes of this item. -/
theorem readItem_window {opened : ZipArchiveReader σ S} {calls : List ZipCall}
    (h : Sound archive table opened)
    (hlisted : ∀ hItem info, table hItem = some info → Listed archive info)
    (hrun : (system zlib fuel opened).run calls = some r) (hinfo : table hItem = some info)
    (hmethod : info.compressionMethod = 0) (maxBufLen : Int) :
    ∃ result t, r.readItem zlib fuel hItem maxBufLen = some (result,t) ∧
      ((∃ n ≤ 0, result = (n,[])) ∨
        ∃ k count, result = delivered (((info.window archive).drop k).take count)) := by
  have hsound := h.run hlisted hrun
  unfold readItem
  rw [hsound.items,hinfo]
  rcases hstream : r.itemStream hItem with _ | stream
  · exact ⟨_,_,rfl,.inl ⟨-1,by decide,rfl⟩⟩
  · have hfits := hsound.fits_info hinfo hstream
    cases stream with
    | stored o =>
      have hwindow := (OffsetStream.read_window (hfits.2.inside (hlisted _ _ hinfo))
        hsound.ready maxBufLen).1
      rw [hfits.2.part] at hwindow
      exact ⟨_,_,rfl,hwindow⟩
    | deflated d => exact absurd (hmethod.symm.trans hfits.1) (by decide)

end ZipArchiveReader

section TwoItems

def twoItemsFile : List UInt8 := [9,1,2,3,4]

def twoItemsTable (hItem : Text) : Option TZipItemInfo :=
  if hItem = ['a'] then some ⟨0,1,2,2⟩ else if hItem = ['b'] then some ⟨0,3,2,2⟩ else none

def twoItems : ZipArchiveReader FileStream Unit :=
  ⟨twoItemsTable,fun _ => none,⟨some twoItemsFile,some ⟨twoItemsFile,5,false⟩,5,true⟩⟩

def noZlib : Zlib Unit := ⟨(),fun _ _ _ => ⟨(),0,[],zOk⟩⟩

theorem sound_twoItems : ZipArchiveReader.Sound twoItemsFile twoItemsTable twoItems where
  ready := ⟨⟨5,⟨⟨false,rfl⟩,rfl,by decide,by decide⟩⟩,rfl⟩
  items := rfl
  fits := by
    intro hItem stream hstream
    cases hstream

theorem listed_twoItems (hItem : Text) (info : TZipItemInfo)
    (h : twoItemsTable hItem = some info) : Listed twoItemsFile info := by
  unfold twoItemsTable at h
  split at h
  case isTrue => exact Option.some.inj h ▸ ⟨by decide,by decide⟩
  case isFalse =>
    split at h
    case isTrue => exact Option.some.inj h ▸ ⟨by decide,by decide⟩
    case isFalse => cases h

def twoOpenItems : List ZipCall := [.openItem ['a'],.readItem ['a'] 1,.openItem ['b']]

theorem readItem_twoItems : ∃ r result t,
    (ZipArchiveReader.system noZlib 0 twoItems).run twoOpenItems = some r ∧
      r.readItem noZlib 0 ['a'] 1 = some (result,t) ∧
      ((∃ n ≤ 0, result = (n,[])) ∨
        ∃ k count, result = delivered ((([1,2] : List UInt8).drop k).take count)) := by
  have hrun : ((ZipArchiveReader.system noZlib 0 twoItems).run twoOpenItems).isSome := by decide
  obtain ⟨r,hr⟩ := Option.isSome_iff_exists.mp hrun
  obtain ⟨result,t,hread,hwindow⟩ := ZipArchiveReader.readItem_window sound_twoItems
    listed_twoItems hr (rfl : twoItemsTable ['a'] = some ⟨0,1,2,2⟩) rfl 1
  exact ⟨r,result,t,hr,hread,hwindow⟩

end TwoItems

end MprMq.Epub
