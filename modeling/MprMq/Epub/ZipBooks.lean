import Mathlib.Data.List.Infix
import MprMq.Epub.ZipInflate
import MprMq.Epub.ZipListing
set_option autoImplicit false

/-! From the bytes of an archive to those of its items, for a book of its own and for one in a
package. -/

namespace MprMq.Epub
open MprMq.Base MprMq.Lib

theorem find_insertAll (items : List (Text × TZipItemInfo)) (itemPath : Text) :
    ItemMap.find (insertAll items []) itemPath =
      (items.find? fun x => x.1 = itemPath).map Prod.snd := by
  have hfind := find?_insertAll (p := fun key : Text => key = itemPath) (k := itemPath)
    (fun key => decide_eq_true_iff) items List.Pairwise.nil
  rw [ItemMap.find,hfind]
  rfl

section Opening
variable {files : Text → Option (List UInt8)} {filename : Text} {contents : List UInt8}

/-- A file stands open at its first byte. -/
theorem openAt_newFileStream (hfile : files filename = some contents)
    (hlt : contents.length < 2^63) (flagSelfClose : Bool) :
    (IStreamBase.openStream (newFileStream files filename flagSelfClose)).1 = true ∧
      RandomAccess.At contents 0
        (IStreamBase.openStream (newFileStream files filename flagSelfClose)).2 ∧
      IStreamBase.selfClose
        (IStreamBase.openStream (newFileStream files filename flagSelfClose)).2 =
          flagSelfClose := by
  have hopen : IStreamBase.openStream (newFileStream files filename flagSelfClose) =
      (true,⟨some contents,some ⟨contents,0,false⟩,contents.length,flagSelfClose⟩) := by
    show (newFileStream files filename flagSelfClose).openStream = _
    rw [newFileStream,hfile]
    rfl
  rw [hopen]
  exact ⟨rfl,⟨⟨false,rfl⟩,rfl,Nat.zero_le _,hlt⟩,rfl⟩

/-- A part of a file stands open at its first byte. -/
theorem openAt_part {info : TZipItemInfo} (hlisted : Listed contents info)
    (hsize : 0 < info.compressedSize) {inner : FileStream}
    (hopen : (IStreamBase.openStream inner).1 = true)
    (hat : RandomAccess.At contents 0 (IStreamBase.openStream inner).2) :
    (IStreamBase.openStream (σ := PartStream FileStream)
        ⟨⟨.invalid,info.dataOffset,info.compressedSize⟩,inner,true⟩).1 = true ∧
      Resting (info.window contents) (IStreamBase.openStream (σ := PartStream FileStream)
        ⟨⟨.invalid,info.dataOffset,info.compressedSize⟩,inner,true⟩).2 := by
  have hinside : OffsetStream.Inside contents
      ⟨.opened,info.dataOffset,info.compressedSize⟩ := ⟨hlisted.1,hlisted.2⟩
  have herror := OffsetStream.error_eq hinside hat
  rw [decide_eq_false (by simp; omega)] at herror
  obtain ⟨hrewind,_⟩ := OffsetStream.rewind_spec hinside hat
  have hopened : OffsetStream.openStream ⟨.invalid,info.dataOffset,info.compressedSize⟩ inner =
      (true,⟨.opened,info.dataOffset,info.compressedSize⟩,
        OffsetStream.rewind ⟨.opened,info.dataOffset,info.compressedSize⟩
          (IStreamBase.openStream inner).2) := by
    unfold OffsetStream.openStream
    rw [if_pos rfl]
    dsimp only
    rw [hopen,herror]
    rfl
  have hpart : IStreamBase.openStream (σ := PartStream FileStream)
      ⟨⟨.invalid,info.dataOffset,info.compressedSize⟩,inner,true⟩ =
        (true,⟨⟨.opened,info.dataOffset,info.compressedSize⟩,
          OffsetStream.rewind ⟨.opened,info.dataOffset,info.compressedSize⟩
            (IStreamBase.openStream inner).2,true⟩) := by
    show ((OffsetStream.openStream _ inner).1,_) = _
    rw [hopened]
  rw [hpart]
  exact ⟨rfl,0,⟨⟨contents,hrewind,hinside,rfl⟩,by simp,hsize,Nat.zero_le _⟩,rfl⟩

end Opening

section Reading
variable {σ S : Type} [IStreamBase σ] [RandomAccess σ] {contents : List UInt8}

/-- The items of an archive are in it. -/
def ZipLayout.Inside (l : ZipLayout contents) : Prop := ∀ x ∈ l.items, Listed contents x.2

/-- A reader lists the items of an archive and, if they are all in it, hands out their bytes
after any calls, by their paths with slashes or backslashes. -/
def HandsOut (zlib : Zlib S) (fuel : Nat) (l : ZipLayout contents)
    (opened : ZipArchiveReader σ S) : Prop :=
  opened.mapZipItemInfo = l.table ∧
    (l.Inside → ∀ calls r, (ZipArchiveReader.system zlib fuel opened).run calls = some r →
      ∀ itemPath info bytes, l.table (replaceWin32PathSep itemPath) = some info →
        Unpacks zlib contents info bytes → 0 < info.compressedSize → 0 < info.uncompressedSize →
        info.uncompressedSize+info.compressedSize < fuel → ∀ maxBufLen : Int,
        info.uncompressedSize ≤ maxBufLen → maxBufLen < 2^31 →
        ∃ t, r.readAllForItem zlib fuel itemPath maxBufLen = some (delivered bytes,t))

theorem ZipLayout.Inside.listed {l : ZipLayout contents} (h : l.Inside) (hItem : Text)
    (info : TZipItemInfo) (hinfo : l.table hItem = some info) : Listed contents info := by
  obtain ⟨x,hx,rfl⟩ := Option.map_eq_some_iff.mp hinfo
  exact h x (List.mem_of_find?_eq_some hx)

theorem ZipLayout.sound (l : ZipLayout contents) {t : σ} (ht : Resting contents t) :
    ZipArchiveReader.Sound contents l.table
      (ZipArchiveReader.ofItems (S := S) (insertAll l.items [],t)) := by
  obtain ⟨pos,hpos⟩ := ht
  exact ⟨⟨⟨pos,hpos.at_pos⟩,hpos.selfClose⟩,
    funext fun itemPath => find_insertAll l.items itemPath,
    fun hItem stream hstream => by cases hstream⟩

theorem ZipLayout.handsOut (l : ZipLayout contents) {t : σ}
    (ht : Resting contents t) (zlib : Zlib S) (fuel : Nat) :
    HandsOut zlib fuel l (.ofItems (insertAll l.items [],t)) := by
  have hsound := l.sound (S := S) ht
  refine ⟨hsound.items,fun hinside calls r hrun itemPath info bytes hinfo hunpacks hsize hlow hfuel
    maxBufLen hbuf hint => ?_⟩
  exact (hsound.run hinside.listed hrun).readAllForItem hinside.listed hinfo hunpacks hsize hlow
    hbuf hint hfuel

end Reading

section Books
variable {S : Type} {files : Text → Option (List UInt8)} {filename : Text} {hint : Int}

theorem openEpub_items {contents : List UInt8} (l : ZipLayout contents)
    (hfile : files filename = some contents) (hlt : contents.length < 2^63) :
    ∃ t, openEpub files filename = some (insertAll l.items [],t) ∧ Resting contents t := by
  obtain ⟨hopen,hat,hflag⟩ := openAt_newFileStream hfile hlt true
  exact l.initZipArchive_items hopen ⟨0,hat,hflag⟩

/-- A file that is an archive is opened, and its items are listed and handed out. -/
theorem openByHint_book {contents : List UInt8} (l : ZipLayout contents)
    (hfile : files filename = some contents) (hlt : contents.length < 2^63) (hname : filename ≠ [])
    (hhint : hintFor filename hint = 1) (zlib : Zlib S) (fuel : Nat) :
    ∃ opened, openByHint files filename hint = some (.file opened) ∧
      HandsOut zlib fuel l opened := by
  obtain ⟨t,hopen,ht⟩ := openEpub_items l hfile hlt
  refine ⟨_,?_,l.handsOut ht zlib fuel⟩
  rw [openByHint,if_neg hname,if_pos hhint,hopen]
  rfl

/-- An item of a package is its book: the first of the books that are stored as they are. -/
structure BookIn {package : List UInt8} (p : ZipLayout package) (epubPath : Text)
    (info : TZipItemInfo) : Prop where
  listed : p.table epubPath = some info
  isEpub : isEpubItem (epubPath,info) = true
  first : ∀ x ∈ p.items, isEpubItem x = true → epubPath ≤ x.1
  slashes : '\\' ∉ epubPath
  inside : Listed package info

theorem replaceWin32PathSep_of_notMem {path : Text} (h : '\\' ∉ path) :
    replaceWin32PathSep path = path := by
  refine (List.map_congr_left fun c hc => ?_).trans (List.map_id path)
  exact if_neg fun heq : c = '\\' => h (heq ▸ hc)

theorem tryToLocateEpubItem_book {package : List UInt8} {p : ZipLayout package} {epubPath : Text}
    {info : TZipItemInfo} (h : BookIn p epubPath info) (hfile : files filename = some package)
    (hlt : package.length < 2^63) (hname : filename ≠ []) :
    tryToLocateEpubItem files filename = epubPath := by
  obtain ⟨t,hopen,_⟩ := openEpub_items p hfile hlt
  have hmem : (epubPath,info) ∈ insertAll p.items [] := by
    have hfind : ItemMap.find (insertAll p.items []) epubPath = some info :=
      (find_insertAll p.items epubPath).trans h.listed
    obtain ⟨x,hx,hinfo⟩ := Option.map_eq_some_iff.mp hfind
    have hpath : x.1 = epubPath := by simpa using List.find?_some hx
    rw [← hpath,← hinfo]
    exact List.mem_of_find?_eq_some hx
  have hfirst : (insertAll p.items []).find? isEpubItem = some (epubPath,info) := by
    refine (Sorted.insertAll List.Pairwise.nil p.items).find? hmem h.isEpub fun y hy hyes => ?_
    rcases mem_insertAll hy with hy | hy
    · exact h.first y hy hyes
    · cases hy
  rw [tryToLocateEpubItem,if_neg hname,hopen]
  dsimp only
  rw [hfirst]
  rfl

theorem openPart_book {package book : List UInt8} {p : ZipLayout package} {epubPath : Text}
    {info : TZipItemInfo} (h : BookIn p epubPath info) (hwindow : info.window package = book)
    (b : ZipLayout book) (hfile : files filename = some package) (hlt : package.length < 2^63) :
    ∃ t, openPart files filename epubPath = some (insertAll b.items [],t) ∧ Resting book t := by
  subst hwindow
  obtain ⟨t,hopen,_⟩ := openEpub_items p hfile hlt
  have hfind : ItemMap.find (insertAll p.items []) (replaceWin32PathSep epubPath) = some info := by
    rw [replaceWin32PathSep_of_notMem h.slashes]
    exact (find_insertAll p.items epubPath).trans h.listed
  have hmethod : info.compressionMethod = 0 := by
    have hepub := h.isEpub
    simp only [isEpubItem,Bool.and_eq_true,decide_eq_true_eq] at hepub
    exact hepub.2
  have hsize : 0 < info.compressedSize := by
    obtain ⟨signature,rest,_,_,hdrop⟩ := b.other
    have hlength := le_of_drop_eq hdrop (by simp)
    have hwindow : (info.window package).length ≤ info.compressedSize := List.length_take_le _ _
    rw [List.length_append,length_leBytes] at hlength
    omega
  obtain ⟨hfileOpen,hat,_⟩ := openAt_newFileStream hfile hlt false
  obtain ⟨hpartOpen,hrest⟩ := openAt_part h.inside hsize hfileOpen hat
  obtain ⟨t',hinit,ht'⟩ := b.initZipArchive_items hpartOpen hrest
  refine ⟨t',?_,ht'⟩
  rw [openPart,hopen,Option.bind_eq_bind,Option.bind_some]
  dsimp only
  rw [hfind,Option.bind_eq_bind,Option.bind_some,if_neg (not_not.mpr hmethod),hinit]

/-- A package is opened as its book, with the path of the book or without it, and the items of
the book are listed and handed out. -/
theorem openByHint_package {package book : List UInt8} (p : ZipLayout package) {epubPath : Text}
    {info : TZipItemInfo} (hbook : BookIn p epubPath info)
    (hwindow : info.window package = book) (b : ZipLayout book)
    (hfile : files filename = some package) (hlt : package.length < 2^63) (hname : filename ≠ [])
    (hhint : hintFor filename hint = 2) (zlib : Zlib S) (fuel : Nat) :
    ∃ opened, openByHint files filename hint = some (.part opened) ∧
      openByPath files filename epubPath = some (.part opened) ∧ HandsOut zlib fuel b opened := by
  have hpath : epubPath ≠ [] := by
    rintro rfl
    have hepub := hbook.isEpub
    simp only [isEpubItem,Bool.and_eq_true,decide_eq_true_eq] at hepub
    exact absurd hepub.1 (by decide)
  obtain ⟨t,hopen,ht⟩ := openPart_book hbook hwindow b hfile hlt
  refine ⟨_,?_,?_,b.handsOut ht zlib fuel⟩
  · rw [openByHint,if_neg hname,if_neg (by rw [hhint]; decide),if_pos hhint]
    dsimp only
    rw [tryToLocateEpubItem_book hbook hfile hlt hname,if_neg hpath,hopen]
    rfl
  · rw [openByPath,if_neg (by simp [hname,hpath]),
      replaceWin32PathSep_of_notMem hbook.slashes,hopen]
    rfl

end Books

section OneBook

def oneItemFile (e : Entry) (data : List UInt8) (r : EndRecord) : List UInt8 :=
  e.header.bytes++(e.name++(data++(e.bytes++r.bytes)))

theorem places_eq_empty {signature contents : List UInt8}
    (h : ∀ t ∈ contents.tails, t.take 4 ≠ signature) : places signature contents = ∅ := by
  refine Set.eq_empty_of_forall_notMem fun x hx => ?_
  exact h (contents.drop x) ((List.mem_tails _ _).mpr (List.drop_suffix x contents)) hx.2.2

theorem isGreatest_places {signature contents : List UInt8} {pos : Nat}
    (hpos : 0 < pos ∧ contents.length ≤ pos+0xffff ∧ (contents.drop pos).take 4 = signature)
    (h : ∀ t ∈ (contents.drop (pos+1)).tails, t.take 4 ≠ signature) :
    IsGreatest (places signature contents) pos := by
  refine ⟨hpos,fun x hx => ?_⟩
  by_contra hlt
  have hdrop : contents.drop x = (contents.drop (pos+1)).drop (x-(pos+1)) := by
    rw [List.drop_drop,Nat.add_sub_cancel' (by omega)]
  exact h _ ((List.mem_tails _ _).mpr (hdrop ▸ List.drop_suffix _ _)) hx.2.2

def letterEntry : Entry where
  version := 20
  versionNeeded := 20
  flag := 0
  compressionMethod := 8
  dosDate := 0
  crc := 0xe8b7be43
  compressedSize := 6
  uncompressedSize := 1
  diskNumStart := 0
  internalFa := 0
  externalFa := 0
  offsetCurfile := 0
  name := [97]
  extra := []
  comment := []
  header := ⟨20,0,8,0,0xe8b7be43,6,1,1,0⟩
  name_lt := by decide
  extra_ne := by decide
  extra_lt := by decide
  comment_lt := by decide

def letterEnd : EndRecord := ⟨1,47,37,[],by decide⟩

def letterBook : List UInt8 := oneItemFile letterEntry [1,1,0,254,255,97] letterEnd

def letterLayout : ZipLayout letterBook where
  before := 0
  entries := [letterEntry]
  centralPos := 84
  gi := letterEnd.gi
  ending := .plain letterEnd [] (places_eq_empty (by decide +kernel))
    (isGreatest_places (by decide +kernel) (by decide +kernel)) (by decide +kernel)
  numberEntry := by decide
  centralPos_eq := by decide
  central := by decide +kernel
  headers := by decide +kernel

theorem letterLayout_inside : letterLayout.Inside := by
  unfold ZipLayout.Inside Listed
  decide +kernel

def lettersOf (filename : Text) : Option (List UInt8) :=
  if filename = ['m'] then some letterBook else none

theorem openByHint_letterBook : ∃ opened t,
    openByHint lettersOf ['m'] 0 = some (.file opened) ∧
      opened.readAllForItem (inflateOne [1,1,0,254,255,97] 97) 8 ['a'] 4 =
        some (delivered [97],t) := by
  obtain ⟨opened,hopen,_,hread⟩ := openByHint_book letterLayout
    (rfl : lettersOf ['m'] = some letterBook) (by decide) (by decide)
    (by decide : hintFor ['m'] 0 = 1) (inflateOne [1,1,0,254,255,97] 97) 8
  obtain ⟨t,hall⟩ := hread letterLayout_inside [] opened rfl ['a'] ⟨8,31,6,1⟩ [97] (by decide +kernel)
    (.deflated rfl (inflateOne_decodes [1,1,0,254,255,97] 97) rfl) (by decide) (by decide)
    (by decide) 4 (by decide) (by decide)
  exact ⟨opened,t,hopen,hall⟩

def bookEntry : Entry where
  version := 20
  versionNeeded := 20
  flag := 0
  compressionMethod := 0
  dosDate := 0
  crc := 0
  compressedSize := 106
  uncompressedSize := 106
  diskNumStart := 0
  internalFa := 0
  externalFa := 0
  offsetCurfile := 0
  name := [98,46,101,112,117,98]
  extra := []
  comment := []
  header := ⟨20,0,0,0,0,106,106,6,0⟩
  name_lt := by decide
  extra_ne := by decide
  extra_lt := by decide
  comment_lt := by decide

def packageEnd : EndRecord := ⟨1,52,142,[],by decide⟩

def onePackage : List UInt8 := oneItemFile bookEntry letterBook packageEnd

def packageLayout : ZipLayout onePackage where
  before := 0
  entries := [bookEntry]
  centralPos := 194
  gi := packageEnd.gi
  ending := .plain packageEnd [] (places_eq_empty (by decide +kernel))
    (isGreatest_places (by decide +kernel) (by decide +kernel)) (by decide +kernel)
  numberEntry := by decide
  centralPos_eq := by decide
  central := by decide +kernel
  headers := by decide +kernel

theorem bookIn_packageLayout :
    BookIn packageLayout ['b','.','e','p','u','b'] ⟨0,36,106,106⟩ where
  listed := by decide +kernel
  isEpub := by decide +kernel
  first := by decide +kernel
  slashes := by decide
  inside := by
    unfold Listed
    decide +kernel

def packagesOf (filename : Text) : Option (List UInt8) :=
  if filename = ['m','.','m','p','r','x'] then some onePackage else none

theorem openByHint_onePackage : ∃ opened t,
    openByHint packagesOf ['m','.','m','p','r','x'] 0 = some (.part opened) ∧
      opened.readAllForItem (inflateOne [1,1,0,254,255,97] 97) 8 ['a'] 4 =
        some (delivered [97],t) := by
  obtain ⟨opened,hopen,_,_,hread⟩ := openByHint_package packageLayout bookIn_packageLayout
    (by decide +kernel) letterLayout
    (rfl : packagesOf ['m','.','m','p','r','x'] = some onePackage) (by decide +kernel) (by decide)
    (by decide : hintFor ['m','.','m','p','r','x'] 0 = 2) (inflateOne [1,1,0,254,255,97] 97) 8
  obtain ⟨t,hall⟩ := hread letterLayout_inside [] opened rfl ['a'] ⟨8,31,6,1⟩ [97] (by decide +kernel)
    (.deflated rfl (inflateOne_decodes [1,1,0,254,255,97] 97) rfl) (by decide) (by decide)
    (by decide) 4 (by decide) (by decide)
  exact ⟨opened,t,hopen,hall⟩

end OneBook

end MprMq.Epub
