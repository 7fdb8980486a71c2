import MprMq.Epub.NavCatalog
import MprMq.Epub.ZipBooks
set_option autoImplicit false

/-! From the bytes of a book to its package and its catalog. -/

namespace MprMq.Epub
open MprMq.Base MprMq.Lib

/-- What `mxml` finds in a text: what is at `*/rootfiles/rootfile`, the element `package`, and what
is at `html/body`. -/
structure Mxml where
  rootfile : Text → Option XMLNode
  package : Text → Option (XMLNode × XMLItem)
  body : Text → XMLItem

def metaInfContainerPath : Text := "META-INF/container.xml".toList

/-- The text in a buffer of zeros that these bytes have been read into. -/
def loadedText (bytes : List UInt8) : Text := textOf (bytes.takeWhile (· ≠ 0))

namespace ZipArchiveReader
variable {σ S : Type}

def itemSize (itemPath : Text) (r : ZipArchiveReader σ S) : Nat :=
  match r.mapZipItemInfo (replaceWin32PathSep itemPath) with
  | some info => info.uncompressedSize
  | none => 0

/-- What the package and the catalog load an item with, into one byte more than it has. -/
def loadItem [IStreamBase σ] (zlib : Zlib S) (fuel : Nat) (itemPath : Text)
    (r : ZipArchiveReader σ S) : Option (Option Text × ZipArchiveReader σ S) :=
  let size := toInt32 (r.itemSize itemPath)
  if size ≤ 0 then some (none,r)
  else (r.readAllForItem zlib fuel itemPath (size+1)).map fun result =>
    (some (loadedText result.1.2),result.2)

end ZipArchiveReader

section Loading
variable {σ S : Type} [IStreamBase σ] (xml : Mxml) (zlib : Zlib S) (fuel : Nat)

namespace EpubPackage

def parseMetaInf (p : EpubPackage) (epubSource : ZipArchiveReader σ S) :
    Option ((Bool × EpubPackage) × ZipArchiveReader σ S) := do
  let (container,epubSource) ← epubSource.loadItem zlib fuel metaInfContainerPath
  match container.bind xml.rootfile with
  | none => return ((false,p),epubSource)
  | some rootfile =>
    let opfFilePath := rootfile.getAttrString "full-path".toList
    return ((true,{ p with
      opfFilePath := opfFilePath
      opfParentPath := getParentPath opfFilePath }),epubSource)

def parseOPF (p : EpubPackage) (epubSource : ZipArchiveReader σ S) :
    Option ((Bool × EpubPackage) × ZipArchiveReader σ S) :=
  if p.opfFilePath = [] then some ((false,p),epubSource)
  else do
    let (opf,epubSource) ← epubSource.loadItem zlib fuel p.opfFilePath
    match opf.bind xml.package with
    | none => return ((false,p),epubSource)
    | some (data,child) => return ((true,readPackage data child p),epubSource)

def openPackage (p : EpubPackage) (epubSource : ZipArchiveReader σ S) :
    Option ((Bool × EpubPackage) × ZipArchiveReader σ S) := do
  let ((found,p),epubSource) ← parseMetaInf xml zlib fuel p epubSource
  if found then parseOPF xml zlib fuel p epubSource else return ((false,p),epubSource)

end EpubPackage

def parseNavItem (p : EpubPackage) (epubSource : ZipArchiveReader σ S) :
    Option (List CatalogItem × ZipArchiveReader σ S) :=
  if p.navTocPath = [] then some ([],epubSource)
  else do
    let (nav,epubSource) ← epubSource.loadItem zlib fuel p.navTocPath
    match nav with
    | none => return ([],epubSource)
    | some nav => return (← parseNav p fuel (xml.body nav),epubSource)

structure EpubInfo where
  package : EpubPackage
  openFlag : Bool
  catalogs : List CatalogItem

/-- The constructor as far as `ParseNav`; `ParseNCX` is asked when there is no catalog by then. -/
def EpubInfo.ofFile (files : Text → Option (List UInt8)) (filePath : Text) : Option EpubInfo :=
  match (openByHint files filePath 1 : Option (OpenedZip S)) with
  | some (.file epubSource) => do
    let ((openFlag,p),epubSource) ← EpubPackage.fresh.openPackage xml zlib fuel epubSource
    let (catalogs,_) ← parseNavItem xml zlib fuel p epubSource
    return ⟨p,openFlag,catalogs⟩
  | _ => some ⟨EpubPackage.fresh,false,[]⟩

end Loading

section Books
variable {S : Type} {xml : Mxml} {zlib : Zlib S} {fuel : Nat}

/-- The item of a path holds these bytes, and is not too large. -/
structure ZipLayout.Holds {contents : List UInt8} (l : ZipLayout contents) (zlib : Zlib S)
    (fuel : Nat) (itemPath : Text) (bytes : List UInt8) (info : TZipItemInfo) : Prop where
  listed : l.table (replaceWin32PathSep itemPath) = some info
  unpacks : Unpacks zlib contents info bytes
  compressed : 0 < info.compressedSize
  nonempty : 0 < info.uncompressedSize
  small : info.uncompressedSize+1 < 2^31
  fuel_lt : info.uncompressedSize+info.compressedSize < fuel

namespace ZipArchiveReader
variable {σ : Type} [IStreamBase σ] [RandomAccess σ] {contents : List UInt8}
  {l : ZipLayout contents} {r : ZipArchiveReader σ S}

theorem Sound.loadItem (h : Sound contents l.table r) (hinside : l.Inside) {itemPath : Text}
    {bytes : List UInt8} {info : TZipItemInfo} (hholds : l.Holds zlib fuel itemPath bytes info) :
    ∃ t, r.loadItem zlib fuel itemPath = some (some (loadedText bytes),t) ∧
      Sound contents l.table t := by
  have hnonempty := hholds.nonempty
  have hsmall := hholds.small
  have hsize : toInt32 (r.itemSize itemPath) = info.uncompressedSize := by
    unfold itemSize
    rw [h.items,hholds.listed]
    dsimp only
    exact toInt32_of_range (by omega) (by omega)
  obtain ⟨t,hread⟩ := h.readAllForItem hinside.listed hholds.listed hholds.unpacks
    hholds.compressed hnonempty (by omega : _ ≤ (info.uncompressedSize : Int)+1) (by omega)
    hholds.fuel_lt
  have hcall : r.call zlib fuel (.readAllForItem itemPath (info.uncompressedSize+1)) = some t := by
    rw [ZipArchiveReader.call,hread]
    rfl
  refine ⟨t,?_,h.call hinside.listed hcall⟩
  unfold ZipArchiveReader.loadItem
  rw [hsize,if_neg (by omega),hread]
  rfl

end ZipArchiveReader

namespace EpubPackage
variable {σ : Type} [IStreamBase σ] [RandomAccess σ] {contents : List UInt8}
  {l : ZipLayout contents} {epubSource : ZipArchiveReader σ S}

theorem parseMetaInf_loaded (hsource : ZipArchiveReader.Sound contents l.table epubSource)
    (hinside : l.Inside) {container : List UInt8} {info : TZipItemInfo}
    (hcontainer : l.Holds zlib fuel metaInfContainerPath container info) {rootfile : XMLNode}
    (hrootfile : xml.rootfile (loadedText container) = some rootfile) (p : EpubPackage) :
    ∃ t, parseMetaInf xml zlib fuel p epubSource =
        some ((true,{ p with
          opfFilePath := rootfile.getAttrString "full-path".toList
          opfParentPath := getParentPath (rootfile.getAttrString "full-path".toList) }),t) ∧
      ZipArchiveReader.Sound contents l.table t := by
  obtain ⟨t,hload,ht⟩ := hsource.loadItem hinside hcontainer
  refine ⟨t,?_,ht⟩
  unfold parseMetaInf
  rw [hload,Option.bind_eq_bind,Option.bind_some]
  dsimp only [Option.bind_some]
  rw [hrootfile]
  rfl

theorem parseOPF_loaded (hsource : ZipArchiveReader.Sound contents l.table epubSource)
    (hinside : l.Inside) {p : EpubPackage} (hpath : p.opfFilePath ≠ []) {opf : List UInt8}
    {info : TZipItemInfo} (hopf : l.Holds zlib fuel p.opfFilePath opf info) {data : XMLNode}
    {child : XMLItem} (hpackage : xml.package (loadedText opf) = some (data,child)) :
    ∃ t, parseOPF xml zlib fuel p epubSource = some ((true,readPackage data child p),t) ∧
      ZipArchiveReader.Sound contents l.table t := by
  obtain ⟨t,hload,ht⟩ := hsource.loadItem hinside hopf
  refine ⟨t,?_,ht⟩
  unfold parseOPF
  rw [if_neg hpath,hload,Option.bind_eq_bind,Option.bind_some]
  dsimp only [Option.bind_some]
  rw [hpackage]
  rfl

end EpubPackage

structure PackageLayout (xml : Mxml) (zlib : Zlib S) (fuel : Nat) (contents : List UInt8) extends
    ZipLayout contents where
  inside : toZipLayout.Inside
  container : List UInt8
  containerInfo : TZipItemInfo
  containerHeld : toZipLayout.Holds zlib fuel metaInfContainerPath container containerInfo
  rootfile : XMLNode
  rootfileFound : xml.rootfile (loadedText container) = some rootfile
  opfPath_ne : rootfile.getAttrString "full-path".toList ≠ []
  opf : List UInt8
  opfInfo : TZipItemInfo
  opfHeld : toZipLayout.Holds zlib fuel (rootfile.getAttrString "full-path".toList) opf opfInfo
  data : XMLNode
  child : XMLItem
  packageFound : xml.package (loadedText opf) = some (data,child)

namespace PackageLayout
variable {contents : List UInt8}

def opfPath (b : PackageLayout xml zlib fuel contents) : Text :=
  b.rootfile.getAttrString "full-path".toList

def package (b : PackageLayout xml zlib fuel contents) : EpubPackage :=
  EpubPackage.readPackage b.data b.child (EpubPackage.opened b.opfPath (getParentPath b.opfPath))

theorem openPackage (b : PackageLayout xml zlib fuel contents) {σ : Type} [IStreamBase σ]
    [RandomAccess σ] {epubSource : ZipArchiveReader σ S}
    (hsource : ZipArchiveReader.Sound contents b.table epubSource) :
    ∃ t, EpubPackage.fresh.openPackage xml zlib fuel epubSource = some ((true,b.package),t) ∧
      ZipArchiveReader.Sound contents b.table t := by
  obtain ⟨t,hfound,ht⟩ := EpubPackage.parseMetaInf_loaded hsource b.inside b.containerHeld
    b.rootfileFound EpubPackage.fresh
  obtain ⟨t',hread,ht'⟩ := EpubPackage.parseOPF_loaded ht b.inside
    (p := EpubPackage.opened b.opfPath (getParentPath b.opfPath)) b.opfPath_ne b.opfHeld
    b.packageFound
  refine ⟨t',?_,ht'⟩
  unfold EpubPackage.openPackage
  rw [hfound,Option.bind_eq_bind,Option.bind_some]
  dsimp only
  rw [if_pos rfl]
  exact hread

end PackageLayout

/-- An archive that is a book with a navigation document. -/
structure EpubLayout (xml : Mxml) (zlib : Zlib S) (fuel : Nat) (contents : List UInt8) extends
    PackageLayout xml zlib fuel contents where
  navPath_ne : toPackageLayout.package.navTocPath ≠ []
  nav : List UInt8
  navInfo : TZipItemInfo
  navHeld : toZipLayout.Holds zlib fuel toPackageLayout.package.navTocPath nav navInfo
  nav_fuel : (xml.body (loadedText nav)).bottomUp.length < fuel

namespace EpubLayout
variable {contents : List UInt8}

def catalogs (b : EpubLayout xml zlib fuel contents) : List CatalogItem :=
  linkAll (tocItems b.package (xml.body (loadedText b.nav)))

theorem parseNavItem (b : EpubLayout xml zlib fuel contents) {σ : Type} [IStreamBase σ]
    [RandomAccess σ] {epubSource : ZipArchiveReader σ S}
    (hsource : ZipArchiveReader.Sound contents b.table epubSource) :
    ∃ t, Epub.parseNavItem xml zlib fuel b.package epubSource = some (b.catalogs,t) := by
  obtain ⟨t,hload,_⟩ := hsource.loadItem b.inside b.navHeld
  refine ⟨t,?_⟩
  unfold Epub.parseNavItem
  rw [if_neg b.navPath_ne,hload,Option.bind_eq_bind,Option.bind_some]
  dsimp only
  rw [parseNav_eq b.package (xml.body (loadedText b.nav)) b.nav_fuel,Option.bind_eq_bind,
    Option.bind_some]
  rfl

end EpubLayout

/-- From a file that is a book, `EpubInfo` has its package and the catalog of its navigation
document. -/
theorem EpubInfo.ofFile_book {files : Text → Option (List UInt8)} {filePath : Text}
    {contents : List UInt8} (b : EpubLayout xml zlib fuel contents)
    (hfile : files filePath = some contents) (hlt : contents.length < 2^63)
    (hname : filePath ≠ []) :
    EpubInfo.ofFile xml zlib fuel files filePath = some ⟨b.package,true,b.catalogs⟩ := by
  obtain ⟨t,hopen,ht⟩ := openEpub_items b.toZipLayout hfile hlt
  have hsource := b.sound (S := S) ht
  obtain ⟨t',hpackage,ht'⟩ := b.openPackage hsource
  obtain ⟨t'',hnav⟩ := b.parseNavItem ht'
  have hbook : (openByHint files filePath 1 : Option (OpenedZip S)) =
      some (.file (.ofItems (insertAll b.items [],t))) := by
    unfold openByHint
    rw [if_neg hname,if_pos (show hintFor filePath 1 = 1 from rfl),hopen]
    rfl
  unfold EpubInfo.ofFile
  rw [hbook]
  dsimp only
  rw [hpackage,Option.bind_eq_bind,Option.bind_some]
  dsimp only
  rw [hnav,Option.bind_eq_bind,Option.bind_some]
  rfl

end Books

section SmallBook

def smallContainer : List UInt8 :=
  [60,99,62,60,114,111,111,116,102,105,108,101,115,62,60,114,111,111,116,102,105,108,101,32,102,
    117,108,108,45,112,97,116,104,61,34,112,34,47,62,60,47,114,111,111,116,102,105,108,101,115,62,
    60,47,99,62]

def smallOPF : List UInt8 :=
  [60,112,97,99,107,97,103,101,62,60,109,97,110,105,102,101,115,116,62,60,105,116,101,109,32,
    105,100,61,34,110,34,32,104,114,101,102,61,34,110,34,32,109,101,100,105,97,45,116,121,112,101,
    61,34,97,112,112,108,105,99,97,116,105,111,110,47,120,104,116,109,108,43,120,109,108,34,32,
    112,114,111,112,101,114,116,105,101,115,61,34,110,97,118,34,47,62,60,47,109,97,110,105,102,
    101,115,116,62,60,47,112,97,99,107,97,103,101,62]

def smallNav : List UInt8 :=
  [60,104,116,109,108,62,60,98,111,100,121,62,60,110,97,118,32,101,112,117,98,58,116,121,112,
    101,61,34,116,111,99,34,62,60,111,108,62,60,108,105,62,60,97,32,104,114,101,102,61,34,110,34,
    62,116,60,47,97,62,60,47,108,105,62,60,47,111,108,62,60,47,110,97,118,62,60,47,98,111,100,121,
    62,60,47,104,116,109,108,62]

def smallXml : Mxml where
  rootfile text :=
    if text = textOf smallContainer then
      some (.element "rootfile".toList [("full-path".toList,"p".toList)])
    else none
  package text :=
    if text = textOf smallOPF then
      some (.element "package".toList [],.ofList [(.element "manifest".toList [],
        .ofList [(.element "item".toList [("id".toList,"n".toList),("href".toList,"n".toList),
          ("media-type".toList,"application/xhtml+xml".toList),
          ("properties".toList,"nav".toList)],.null)])])
    else none
  body text :=
    if text = textOf smallNav then
      .ofList [(.element "body".toList [],.ofList [(.element "nav".toList
        [("epub:type".toList,"toc".toList)],.ofList [(.element "ol".toList [],
          .ofList [(.element "li".toList [],.ofList [(.element "a".toList
            [("href".toList,"n".toList)],.ofList [(.text "t".toList,.null)])])])])])]
    else .null

def smallItems : List (Entry × List UInt8) :=
  [({ bookEntry with
      crc := 0x6bae8571
      compressedSize := 55
      uncompressedSize := 55
      name := [77,69,84,65,45,73,78,70,47,99,111,110,116,97,105,110,101,114,46,120,109,108]
      header := ⟨20,0,0,0,0x6bae8571,55,55,22,0⟩
      name_lt := by decide
      extra_lt := by decide },smallContainer),
    ({ bookEntry with
      crc := 0x682adccd
      compressedSize := 115
      uncompressedSize := 115
      offsetCurfile := 107
      name := [112]
      header := ⟨20,0,0,0,0x682adccd,115,115,1,0⟩
      name_lt := by decide
      extra_lt := by decide },smallOPF),
    ({ bookEntry with
      crc := 0x97a12940
      compressedSize := 88
      uncompressedSize := 88
      offsetCurfile := 253
      name := [110]
      header := ⟨20,0,0,0,0x97a12940,88,88,1,0⟩
      name_lt := by decide
      extra_lt := by decide },smallNav)]

def smallEnd : EndRecord :=
  { packageEnd with numberEntry := 3, sizeCentralDir := 162, offsetCentralDir := 372 }

def smallBook : List UInt8 :=
  (smallItems.flatMap fun item => item.1.header.bytes++(item.1.name++item.2))++
    (smallItems.flatMap (fun item => item.1.bytes)++smallEnd.bytes)

def smallLayout : ZipLayout smallBook where
  before := 0
  entries := smallItems.map Prod.fst
  centralPos := 534
  gi := smallEnd.gi
  ending := .plain smallEnd [] (places_eq_empty (by decide +kernel))
    (isGreatest_places (by decide +kernel) (by decide +kernel)) (by decide +kernel)
  numberEntry := by decide +kernel
  centralPos_eq := by decide
  central := by decide +kernel
  headers := by decide +kernel

def smallPackage : PackageLayout smallXml noZlib 512 smallBook where
  toZipLayout := smallLayout
  inside := by
    unfold ZipLayout.Inside Listed
    decide +kernel
  container := _
  containerInfo := ⟨0,52,55,55⟩
  containerHeld := ⟨by decide +kernel,.stored rfl,by decide,by decide,by decide,by decide⟩
  rootfile := .element "rootfile".toList [("full-path".toList,"p".toList)]
  rootfileFound := by decide +kernel
  opfPath_ne := by decide
  opf := _
  opfInfo := ⟨0,138,115,115⟩
  opfHeld := ⟨by decide +kernel,.stored rfl,by decide,by decide,by decide,by decide⟩
  data := .element "package".toList []
  child := .ofList [(.element "manifest".toList [],.ofList [(.element "item".toList
    [("id".toList,"n".toList),("href".toList,"n".toList),
      ("media-type".toList,"application/xhtml+xml".toList),
      ("properties".toList,"nav".toList)],.null)])]
  packageFound := by decide +kernel

def smallEpub : EpubLayout smallXml noZlib 512 smallBook where
  toPackageLayout := smallPackage
  navPath_ne := by decide +kernel
  nav := _
  navInfo := ⟨0,284,88,88⟩
  navHeld := ⟨by decide +kernel,.stored rfl,by decide,by decide,by decide,by decide⟩
  nav_fuel := by decide +kernel

end SmallBook

end MprMq.Epub
