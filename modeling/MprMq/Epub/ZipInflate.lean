import MprMq.Epub.ZipReading
set_option autoImplicit false

/-! What is read of the items that are compressed, for any `inflate` that decodes them. -/

namespace MprMq.Epub
open MprMq.Base MprMq.Lib

variable {σ S : Type}

/-- One call of `inflate` in the middle of a stream: it goes on until the input is used up or the
room is filled, and says when the stream is at its end. -/
def InflateResult.Goes (At : Nat → Nat → S → Prop) (z decoded : List UInt8) (i j : Nat)
    (input : List UInt8) (room : Nat) (r : InflateResult S) : Prop :=
  r.out = (decoded.drop j).take r.out.length ∧ r.out.length ≤ room ∧
    (r.code = zOk ∧ r.used ≤ input.length ∧ At (i+r.used) (j+r.out.length) r.state ∧
        (r.out.length = room ∨ r.used = input.length ∧ i+r.used < z.length) ∨
      r.code = zStreamEnd ∧ j+r.out.length = decoded.length)

/-- `inflate` makes `decoded` of `z`, in whatever pieces it is called. -/
def Zlib.Decodes (zlib : Zlib S) (z decoded : List UInt8) : Prop :=
  ∃ At : Nat → Nat → S → Prop, At 0 0 zlib.inflateInit2 ∧
    ∀ i j s input room, At i j s → input ≠ [] → input <+: z.drop i → 0 < room →
      (zlib.inflate s input room).Goes At z decoded i j input room

namespace DecompressStream
variable [IStreamBase σ] [RandomAccess σ] {archive : List UInt8} {info : TZipItemInfo}
  {zlib : Zlib S} {decoded : List UInt8} {At : Nat → Nat → S → Prop}

/-- Between two turns `i` bytes of the item have been used and `j` bytes are in the buffer. -/
structure Inflating (At : Nat → Nat → S → Prop) (archive : List UInt8) (info : TZipItemInfo)
    (decoded : List UInt8) (i j : Nat) (s : InflateState σ S) : Prop where
  state : At i j s.stream.inflateStream
  bytes : s.bytes = decoded.take j
  le : j ≤ decoded.length
  availOut : s.availOut = decoded.length-j
  part : IsPart info s.stream.innerStream
  status : s.stream.innerStream.status = .opened
  availIn : s.stream.availIn <+: (info.window archive).drop i
  place : RandomAccess.At archive (info.dataOffset+(i+s.stream.availIn.length)) s.zip
  more : 0 < s.availOut → i < (info.window archive).length

theorem Inflating.inflateTurn {i j : Nat} {s : InflateState σ S}
    (h : Inflating At archive info decoded i j s) (hinput : s.stream.availIn ≠ [])
    (hroom : 0 < s.availOut)
    (hgoes : (zlib.inflate s.stream.inflateStream s.stream.availIn s.availOut).Goes At
      (info.window archive) decoded i j s.stream.availIn s.availOut) :
    (inflateTurn zlib s).Meets
      (fun t => ∃ i' j', Inflating At archive info decoded i' j' t ∧
        t.availOut+((info.window archive).length-i') <
          s.availOut+((info.window archive).length-i))
      (fun result => result.1 = delivered decoded) := by
  obtain ⟨hout,hle,hcase⟩ := hgoes
  have hmore := h.more hroom
  have hbytes : s.bytes ++ (zlib.inflate s.stream.inflateStream s.stream.availIn s.availOut).out =
      decoded.take
        (j+(zlib.inflate s.stream.inflateStream s.stream.availIn s.availOut).out.length) := by
    rw [h.bytes,List.take_add,← hout]
  have hpos : 0 < s.stream.availIn.length := List.length_pos_iff.mpr hinput
  unfold DecompressStream.inflateTurn
  dsimp only
  rcases hcase with ⟨hcode,hused,hstate,hstop⟩ | ⟨hcode,hend⟩
  · rw [if_neg (by rw [hcode]; decide),if_neg (by rw [hcode]; decide)]
    have havail := h.availOut
    refine ⟨_,_,⟨hstate,hbytes,by omega,?_,h.part,h.status,?_,?_,?_⟩,?_⟩
    · show s.availOut-_ = _
      omega
    · obtain ⟨later,hlater⟩ := h.availIn
      exact ⟨later,by rw [← List.drop_drop,← hlater,List.drop_append_of_le_length hused]⟩
    · have hplace := h.place
      rw [List.length_drop]
      rwa [Nat.add_assoc i,Nat.add_sub_cancel' hused]
    · show 0 < s.availOut-_ → _
      omega
    · show s.availOut-_+_ < _
      omega
  · rw [if_pos hcode]
    show delivered _ = delivered decoded
    rw [hbytes,hend,List.take_length]

theorem Inflating.readTurn {i j : Nat} {s : InflateState σ S}
    (h : Inflating At archive info decoded i j s) (hlisted : Listed archive info)
    (hgoes : ∀ i j s input room, At i j s → input ≠ [] →
      input <+: (info.window archive).drop i → 0 < room →
      (zlib.inflate s input room).Goes At (info.window archive) decoded i j input room) :
    (readTurn zlib s).Meets
      (fun t => ∃ i' j', Inflating At archive info decoded i' j' t ∧
        t.availOut+((info.window archive).length-i') <
          s.availOut+((info.window archive).length-i))
      (fun result => result.1 = delivered decoded) := by
  unfold DecompressStream.readTurn
  split
  case isTrue hdone =>
    have hle := h.le
    have havail := h.availOut
    show delivered s.bytes = delivered decoded
    rw [h.bytes,List.take_of_length_le (by omega)]
  case isFalse hroom =>
    have hroom : 0 < s.availOut := Nat.pos_of_ne_zero hroom
    split
    case isTrue hempty =>
      have hinside := h.part.inside hlisted
      have hplace := h.place
      have hmore := h.more hroom
      rw [hempty,List.length_nil,Nat.add_zero] at hplace
      have hlength : (info.window archive).length = info.compressedSize := by
        rw [← h.part.part,hinside.length_part,h.part.2]
      obtain ⟨t,hread,hnext,_⟩ := OffsetStream.read_inside hinside hplace
        (by rw [h.status]; decide) (by rw [h.part.1]; omega)
        (by rw [h.part.1,h.part.2]; omega) (by decide : 0 < unzBufSize)
      rw [h.part.part,h.part.1,Nat.add_sub_cancel_left] at hread hnext
      have hchunk : 0 < (((info.window archive).drop i).take unzBufSize).length := by
        rw [List.length_take,List.length_drop]
        have hbuf : 0 < unzBufSize := by decide
        omega
      rw [hread]
      dsimp only [delivered]
      rw [if_neg (by omega),if_neg (by omega)]
      have hfilled : Inflating At archive info decoded i j
          ({ s with
            stream := { s.stream with
              availIn := ((info.window archive).drop i).take unzBufSize }
            zip := t } : InflateState σ S) :=
        ⟨h.state,h.bytes,h.le,h.availOut,h.part,h.status,List.take_prefix _ _,
          by rw [← Nat.add_assoc]; exact hnext,h.more⟩
      have hinput : ((info.window archive).drop i).take unzBufSize ≠ [] :=
        List.ne_nil_of_length_pos hchunk
      exact hfilled.inflateTurn hinput hroom
        (hgoes i j _ _ _ h.state hinput (List.take_prefix _ _) hroom)
    case isFalse hinput =>
      exact h.inflateTurn hinput hroom (hgoes i j _ _ _ h.state hinput h.availIn hroom)

/-- A stream that has just been opened is read to its end. -/
theorem read_fresh {d : DecompressStream S} {zip : σ} {fuel : Nat}
    (hfits : ItemFits info (.deflated d)) (hlisted : Listed archive info)
    (hfresh : Fresh zlib info archive zip (.deflated d))
    (hdecodes : zlib.Decodes (info.window archive) decoded)
    (hdecoded : decoded.length = info.uncompressedSize) (hlow : 0 < info.uncompressedSize)
    (hsize : 0 < info.compressedSize)
    (hfuel : info.uncompressedSize+info.compressedSize < fuel) :
    ∃ t, d.read zlib fuel info info.uncompressedSize zip = some (delivered decoded,t) := by
  obtain ⟨hmethod,hpart⟩ := hfits
  obtain ⟨hstatus,hinner,hstate,havail,hrest,hat⟩ := hfresh
  obtain ⟨At,hinit,hgoes⟩ := hdecodes
  have hinside := hpart.inside hlisted
  have hlength : (info.window archive).length = info.compressedSize := by
    rw [← hpart.part,hinside.length_part,hpart.2]
  have herror : d.error info zip = false := by
    rw [DecompressStream.error,OffsetStream.error_eq hinside hat]
    simp [hstatus,hinner,hmethod,hpart.2]
    omega
  have heof : d.eof = false := by
    rw [DecompressStream.eof,hrest]
    exact decide_eq_false (by omega)
  have hstart : Inflating At archive info decoded 0 0
      (⟨d,zip,info.uncompressedSize,[]⟩ : InflateState σ S) :=
    ⟨by rw [hstate]; exact hinit,rfl,Nat.zero_le _,hdecoded.symm,hpart,hinner,
      by rw [havail]; exact List.nil_prefix,by rw [havail]; exact hat,
      fun _ => by rw [hlength]; exact hsize⟩
  obtain ⟨r,hr,hruns⟩ := runLoop_ghost (fun _ s => some (readTurn zlib s))
    (I := fun n s => ∃ i j, Inflating At archive info decoded i j s ∧
      s.availOut+((info.window archive).length-i) = n)
    (Q := fun result => result.1 = delivered decoded) 0
    (fun n s hs => by
      obtain ⟨i,j,hs,rfl⟩ := hs
      exact ⟨_,fun _ _ => rfl,(hs.readTurn hlisted hgoes).imp fun t ht => by
        obtain ⟨i',j',ht,hlt⟩ := ht
        exact ⟨_,hlt,i',j',ht,rfl⟩⟩)
    ⟨0,0,hstart,rfl⟩
  refine ⟨r.2,?_⟩
  have hrun := hruns 0 fuel (Nat.le_refl 0) (by rw [hlength]; show _+_ < _; omega)
  unfold DecompressStream.read
  rw [if_neg (by omega),herror,heof,hrest]
  dsimp only
  rw [Int.toNat_natCast,if_neg (by decide),if_neg (by decide),if_neg (Nat.lt_irrefl _),hrun,← hr]

end DecompressStream

/-- What an item holds: its bytes as they are, or what `inflate` makes of them. -/
inductive Unpacks (zlib : Zlib S) (archive : List UInt8) (info : TZipItemInfo) :
    List UInt8 → Prop where
  | stored (method : info.compressionMethod = 0) :
    Unpacks zlib archive info ((info.window archive).take info.uncompressedSize)
  | deflated {decoded : List UInt8} (method : info.compressionMethod = zDeflated)
      (decodes : zlib.Decodes (info.window archive) decoded)
      (length_eq : decoded.length = info.uncompressedSize) : Unpacks zlib archive info decoded

namespace ZipArchiveReader
variable [IStreamBase σ] [RandomAccess σ] {archive : List UInt8}
  {table : Text → Option TZipItemInfo} {r : ZipArchiveReader σ S} {zlib : Zlib S} {fuel : Nat}
  {info : TZipItemInfo}

/-- All of an item is what it holds. -/
theorem Sound.readAllForItem (h : Sound archive table r)
    (hlisted : ∀ hItem info, table hItem = some info → Listed archive info) {itemPath : Text}
    (hinfo : table (replaceWin32PathSep itemPath) = some info) {bytes : List UInt8}
    (hunpacks : Unpacks zlib archive info bytes) (hsize : 0 < info.compressedSize)
    {maxBufLen : Int} (hlow : 0 < info.uncompressedSize) (hbuf : info.uncompressedSize ≤ maxBufLen)
    (hint : maxBufLen < 2^31) (hfuel : info.uncompressedSize+info.compressedSize < fuel) :
    ∃ t, r.readAllForItem zlib fuel itemPath maxBufLen = some (delivered bytes,t) := by
  have hmethod : info.compressionMethod = 0 ∨ info.compressionMethod = zDeflated := by
    cases hunpacks with
    | stored method => exact .inl method
    | deflated method decodes length_eq => exact .inr method
  obtain ⟨stream,zip,hfits,hfresh,hread⟩ :=
    readAllForItem_fresh zlib fuel h hlisted hinfo hmethod hsize hlow hbuf hint
  have hlist := hlisted _ _ hinfo
  cases hunpacks with
  | stored method =>
    cases stream with
    | stored o =>
      obtain ⟨hstatus,hat⟩ := hfresh
      obtain ⟨hoffset,hcompressed⟩ := hfits.2
      obtain ⟨t,hinside,_⟩ := OffsetStream.read_inside (hfits.2.inside hlist) hat
        (by rw [hstatus]; decide) (by omega) (by omega) hlow
      rw [hfits.2.part,hoffset,Nat.sub_self,List.drop_zero] at hinside
      obtain ⟨next,hall⟩ := hread _ rfl
      rw [hinside] at hall
      exact ⟨next,hall⟩
    | deflated d => exact absurd (method.symm.trans hfits.1) (by decide)
  | deflated method decodes length_eq =>
    cases stream with
    | stored o => exact absurd (hfits.1.symm.trans method) (by decide)
    | deflated d =>
      obtain ⟨t,hall⟩ := DecompressStream.read_fresh hfits hlist hfresh decodes length_eq hlow
        hsize hfuel
      exact hread _ (by rw [ItemStream.read,hall]; rfl)

end ZipArchiveReader

section OneByte

def inflateOne (z : List UInt8) (byte : UInt8) : Zlib (List UInt8) where
  inflateInit2 := []
  inflate used input _ :=
    if used ++ input = z then ⟨used ++ input,input.length,[byte],zStreamEnd⟩
    else ⟨used ++ input,input.length,[],zOk⟩

theorem inflateOne_decodes (z : List UInt8) (byte : UInt8) :
    (inflateOne z byte).Decodes z [byte] := by
  refine ⟨fun i j used => used = z.take i ∧ j = 0,⟨rfl,rfl⟩,?_⟩
  rintro i j used input room ⟨rfl,rfl⟩ hinput hprefix hroom
  have htake : z.take i ++ input = z.take (i+input.length) := by
    rw [List.take_add,← List.prefix_iff_eq_take.mp hprefix]
  unfold inflateOne
  dsimp only
  split
  case isTrue => exact ⟨rfl,hroom,.inr ⟨rfl,rfl⟩⟩
  case isFalse hmore =>
    refine ⟨rfl,Nat.zero_le _,.inl ⟨rfl,Nat.le_refl _,⟨htake,rfl⟩,.inr ⟨rfl,?_⟩⟩⟩
    rw [htake] at hmore
    by_contra hlong
    exact hmore (List.take_of_length_le (Nat.le_of_not_lt hlong))

end OneByte

end MprMq.Epub
