import MprMq.Epub.BookInfo
import MprMq.Service.EpubCatalog
set_option autoImplicit false

/-! The epub service over the books on its disk: from the bytes of a book to those of its
catalog. -/

namespace MprMq.Service
open MprMq.Base Lib

def filesOn (disk : Contents) (filePath : Text) : Option (List UInt8) :=
  disk (FilePath.ofText filePath)

section Files
variable {S : Type} (xml : Epub.Mxml) (zlib : Epub.Zlib S) (fuel : Nat)
  (parseNCX : Epub.EpubPackage → List Epub.CatalogItem) (isDirectory : FilePath → Bool)

/-- What `GetEpubCatalog` finds at the path of a book; `parseNCX` is asked for the catalog when the
navigation document has none. -/
def bookFile (disk : Contents) (path : FilePath) : Option BookFile :=
  if disk path = none ∧ isDirectory path = false then some .missing
  else do
    let info ← Epub.EpubInfo.ofFile xml zlib fuel (filesOn disk) path.value
    if !info.openFlag then return .invalid
    return .book (if info.catalogs = [] then parseNCX info.package else info.catalogs)

/-- The service finds the books that are on the disk when the message comes. -/
def ReadsBooks (parse : Text → Option Json) (written : List JsonEvent → List UInt8)
    (disk : Contents) (deliveries : List Delivery) : Prop :=
  ∀ before d after s f, deliveries = before ++ d :: after →
    (catalogSystem parse written disk).run before = some s →
    readEpub parse d.message = .proceeds f →
    bookFile xml zlib fuel parseNCX isDirectory s.disk (FilePath.ofText f.bookPath) =
      some (d.books (FilePath.ofText f.bookPath))

/-- A message has asked for the catalog that the row names. If it found a book, as the disk had it
at first, its file holds the catalog of this book, as long as no other message asks for the file. -/
def Catalogued (parse : Text → Option Json) (written : List JsonEvent → List UInt8)
    (start : Contents) (deliveries : List Delivery) (disk : Contents) (row : BookRow) : Prop :=
  ∃ before d after f, deliveries = before ++ d :: after ∧
    readEpub parse d.message = .proceeds f ∧ row = ⟨f.catalogPath.value,f.bookIdInt⟩ ∧
    ∀ contents (b : Epub.EpubLayout xml zlib fuel contents),
      start (FilePath.ofText f.bookPath) = some contents → contents.length < 2^63 →
      (FilePath.ofText f.bookPath).value ≠ [] → b.catalogs ≠ [] →
      Unasked parse before (FilePath.ofText f.bookPath) → Unasked parse after f.catalogPath →
      (catalogFile written b.catalogs).length < 2^31 →
      disk f.catalogPath = some (catalogFile written b.catalogs)

variable {xml zlib fuel parseNCX isDirectory}

theorem bookFile_book {contents : List UInt8} (b : Epub.EpubLayout xml zlib fuel contents)
    {disk : Contents} {path : FilePath} (hdisk : disk path = some contents)
    (hlt : contents.length < 2^63) (hname : path.value ≠ []) (hcatalogs : b.catalogs ≠ []) :
    bookFile xml zlib fuel parseNCX isDirectory disk path = some (.book b.catalogs) := by
  have hfile : filesOn disk path.value = some contents := by
    rw [filesOn,path.ofText_value,hdisk]
  have hinfo := Epub.EpubInfo.ofFile_book b hfile hlt hname
  unfold bookFile
  rw [if_neg (by simp [hdisk]),hinfo,Option.bind_eq_bind,Option.bind_some]
  dsimp only
  rw [if_neg hcatalogs]
  rfl

variable {parse : Text → Option Json} {written : List JsonEvent → List UInt8}

/-- In every run each row names a catalog file that holds the catalog of its book, from the bytes
that the book has on the disk. -/
theorem catalogSystem_catalogued {disk : Contents} {deliveries : List Delivery} {s : CatalogSystem}
    (hrun : (catalogSystem parse written disk).run deliveries = some s)
    (hbooks : ReadsBooks xml zlib fuel parseNCX isDirectory parse written disk deliveries) :
    ∀ row ∈ s.handler.rows, Catalogued xml zlib fuel parse written disk deliveries s.disk row := by
  intro row hrow
  obtain ⟨before,d,after,f,catalogs,hdeliveries,hread,hbook,hrow,hfile⟩ :=
    (catalogSystem_kept hrun).backed row hrow
  refine ⟨before,d,after,f,hdeliveries,hread,hrow,
    fun contents b hdisk hlt hname hcatalogs hbefore hafter hsize => ?_⟩
  obtain ⟨u,hu⟩ : ∃ u, (catalogSystem parse written disk).run before = some u := by
    rw [hdeliveries,System.run,System.runFrom_append] at hrun
    obtain ⟨u,hu,_⟩ := Option.bind_eq_some_iff.mp hrun
    exact ⟨u,hu⟩
  have hfound := hbooks before d after u f hdeliveries hu hread
  rw [hbook,bookFile_book b ((catalogSystem_kept hu).unasked _ hbefore ▸ hdisk) hlt hname
    hcatalogs] at hfound
  obtain rfl : b.catalogs = catalogs := BookFile.book.inj (Option.some.inj hfound)
  exact hfile hafter hsize

end Files

section SmallBook

def smallDisk (path : FilePath) : Option (List UInt8) :=
  if path = FilePath.ofText "a.epub".toList then some Epub.smallBook else none

def smallCatalog (events : List JsonEvent) : List UInt8 :=
  if events = catalogEvents Epub.smallEpub.catalogs then
    ("\x7b\"book_catalog\":[\x7b\"title\":\"t\",\"href\":\"n\",\"level\":\"0\"," ++
      "\"section_index\":\"0\"\x7d]\x7d").toList.map fun c => UInt8.ofNat c.toNat
  else []

def smallDeliveries : List Delivery :=
  [⟨bookMessage,fun _ => .book Epub.smallEpub.catalogs,⟨true,fun _ => .upTo 64,true⟩,true,true,
    true⟩]

theorem readsBooks_smallDeliveries : ReadsBooks Epub.smallXml Epub.noZlib 512 (fun _ => [])
    (fun _ => false) bookDocument smallCatalog smallDisk smallDeliveries := by
  intro before d after s f hdeliveries hrun hread
  have hdisk : smallDisk (FilePath.ofText "a.epub".toList) = some Epub.smallBook := if_pos rfl
  have hf : readEpub bookDocument bookMessage = .proceeds ⟨['7'],"a.epub".toList⟩ := by decide
  cases before with
  | nil =>
    obtain ⟨rfl,rfl⟩ := List.cons.inj hdeliveries
    cases hrun
    cases hf.symm.trans hread
    exact bookFile_book Epub.smallEpub hdisk (by decide +kernel) (by decide) (by decide +kernel)
  | cons first rest => simp [smallDeliveries] at hdeliveries

theorem smallDeliveries_catalogued : ∃ s : CatalogSystem,
    (catalogSystem bookDocument smallCatalog smallDisk).run smallDeliveries = some s ∧
    ∀ row ∈ s.handler.rows, Catalogued Epub.smallXml Epub.noZlib 512 bookDocument smallCatalog
      smallDisk smallDeliveries s.disk row := by
  have hrun : ((catalogSystem bookDocument smallCatalog smallDisk).run
      smallDeliveries).isSome := by decide +kernel
  obtain ⟨s,hs⟩ := Option.isSome_iff_exists.mp hrun
  exact ⟨s,hs,catalogSystem_catalogued hs readsBooks_smallDeliveries⟩

end SmallBook

end MprMq.Service
