import Mathlib.Algebra.Group.Nat.Defs
import MprMq.Base.WriteFile
import MprMq.Epub.NavCatalog
import MprMq.Lib.Run
import MprMq.Service.EpubInfo
set_option autoImplicit false

/-! The epub service behind the queue: what a message leaves on the disk and in the database, over
any messages, any books and any failures. -/

namespace MprMq.Service
open MprMq.Base Lib

inductive JsonEvent where
  | null
  | bool (b : Bool)
  | number (text : Text)
  | string (text : Text)
  | key (name : Text)
  | startObject
  | endObject
  | startArray
  | endArray
  deriving DecidableEq

mutual

def Json.events : Json → List JsonEvent
  | .null => [.null]
  | .bool b => [.bool b]
  | .number text => [.number text]
  | .string text => [.string text]
  | .array items => .startArray :: itemEvents items ++ [.endArray]
  | .object members => .startObject :: memberEvents members ++ [.endObject]

def itemEvents : List Json → List JsonEvent
  | [] => []
  | item :: rest => item.events ++ itemEvents rest

def memberEvents : List (Text × Json) → List JsonEvent
  | [] => []
  | (name,value) :: rest => .key name :: value.events ++ memberEvents rest

end

/-- The calls that `GetEpubCatalog` makes for an item; it hands over C strings. -/
def catalogItemEvents (item : Epub.CatalogItem) : List JsonEvent :=
  [.startObject,.key "title".toList,.string (cString item.title),
    .key "href".toList,.string (cString item.href),
    .key "level".toList,.string (toString item.level).toList,
    .key "section_index".toList,.string (toString item.sectionIndex).toList,.endObject]

def catalogEvents (catalogs : List Epub.CatalogItem) : List JsonEvent :=
  [.startObject,.key "book_catalog".toList,.startArray] ++ catalogs.flatMap catalogItemEvents ++
    [.endArray,.endObject]

inductive BookFile where
  | missing
  | invalid
  | book (catalogs : List Epub.CatalogItem)

def intOfSize (size : Nat) : Int := (size : Int).bmod (2^32)

/-- `GetEpubCatalog`: the status, the path in the response and the disk; `written` is what the
writer makes of the calls. -/
def getEpubCatalog (written : List JsonEvent → List UInt8) (books : FilePath → BookFile)
    (os : WriteAnswers) (request : CatalogRequest) (disk : Contents) :
    Option (Status × Text × Contents) :=
  match books (FilePath.ofText request.bookPath) with
  | .missing =>
    some (.error .notFound ("Not found the file: ".toList ++ request.bookPath),[],disk)
  | .invalid =>
    some (.error .internal
      ("epub library can't not handler file: ".toList ++ request.bookPath),[],disk)
  | .book catalogs => do
    let infoPath := FilePath.ofText request.catalogPath
    let json := written (catalogEvents catalogs)
    let (bytesWritten,file) ←
      writeFile os (json.length+1) (disk infoPath) json (intOfSize json.length)
    let disk := Function.update disk infoPath file
    if bytesWritten = -1 then
      return (.error .internal ("ERROR: Write info to file: ".toList ++ infoPath.value),[],disk)
    return (.ok,infoPath.value,disk)

/-- A message, and what the others come to while it is handled: whether the request gets to the
service and the response back, and whether the row of the book can be updated. -/
structure Delivery where
  message : Text
  books : FilePath → BookFile
  os : WriteAnswers
  served : Bool
  answered : Bool
  updated : Bool

structure CatalogSystem where
  disk : Contents
  handler : EpubWorld

/-- A remote call, over a channel that may lose the request or the response. -/
def callGetEpubCatalog (written : List JsonEvent → List UInt8) (d : Delivery)
    (request : CatalogRequest) (disk : Contents) : Option (Option Text × Contents) :=
  if !d.served then some (none,disk)
  else (getEpubCatalog written d.books d.os request disk).map fun r =>
    (if d.answered ∧ r.1 = .ok then some r.2.1 else none,r.2.2)

/-- The callback of the consumer; `none` is the end of the process. -/
def CatalogSystem.deliver (parse : Text → Option Json) (written : List JsonEvent → List UInt8)
    (s : CatalogSystem) (d : Delivery) : Option (Status × CatalogSystem) :=
  let handler := { s.handler with output := [] }
  match readEpub parse d.message with
  | .aborted => none
  | .returned status => some (status,{ s with handler := handler })
  | .proceeds f => do
    let (catalog,disk) ← callGetEpubCatalog written d f.request s.disk
    let (handler,status) := handleEpubFields ⟨catalog,d.updated⟩ f handler
    return (status,⟨disk,handler⟩)

def catalogSystem (parse : Text → Option Json) (written : List JsonEvent → List UInt8)
    (disk : Contents) : System CatalogSystem Delivery :=
  ⟨⟨disk,⟨[],[],[]⟩⟩,fun s d => (s.deliver parse written d).map Prod.snd⟩

section Documents

def catalogMember (item : Epub.CatalogItem) : Json :=
  .object [("title".toList,.string (cString item.title)),
    ("href".toList,.string (cString item.href)),
    ("level".toList,.string (toString item.level).toList),
    ("section_index".toList,.string (toString item.sectionIndex).toList)]

def catalogDocument (catalogs : List Epub.CatalogItem) : Json :=
  .object [("book_catalog".toList,.array (catalogs.map catalogMember))]

theorem itemEvents_catalogs (catalogs : List Epub.CatalogItem) :
    itemEvents (catalogs.map catalogMember) = catalogs.flatMap catalogItemEvents := by
  induction catalogs with
  | nil => rfl
  | cons item rest ih =>
    rw [List.map_cons,itemEvents,ih,List.flatMap_cons]
    rfl

/-- The calls of the service are those of one whole document. -/
theorem catalogEvents_eq (catalogs : List Epub.CatalogItem) :
    catalogEvents catalogs = (catalogDocument catalogs).events := by
  rw [catalogDocument,Json.events,memberEvents,memberEvents,Json.events,itemEvents_catalogs]
  simp [catalogEvents]

end Documents

section Catalogs
variable {parse : Text → Option Json} {written : List JsonEvent → List UInt8}

theorem intOfSize_le (size : Nat) : intOfSize size ≤ size := by
  unfold intOfSize
  have hle := Int.bmod_le (x := size) (m := 2^32) (by decide)
  have hmod := Int.bmod_def size (2^32)
  omega

theorem intOfSize_of_lt {size : Nat} (h : size < 2^31) : intOfSize size = size := by
  unfold intOfSize
  rw [Int.bmod_eq_of_le (by omega) (by omega)]

/-- What the catalog file of a book is to hold. -/
def catalogFile (written : List JsonEvent → List UInt8) (catalogs : List Epub.CatalogItem) :
    List UInt8 :=
  written (catalogDocument catalogs).events

/-- A call of the service returns. It leaves all files but the catalog file as they are, and answers
with `OK` only when it has written this one. -/
theorem getEpubCatalog_returns (written : List JsonEvent → List UInt8)
    (books : FilePath → BookFile) (os : WriteAnswers) (request : CatalogRequest)
    (disk : Contents) : ∃ r : Status × Text × Contents,
      getEpubCatalog written books os request disk = some r ∧
      (∀ path, path ≠ FilePath.ofText request.catalogPath → r.2.2 path = disk path) ∧
      (r.1 = .ok → r.2.1 = (FilePath.ofText request.catalogPath).value ∧ ∃ catalogs,
        books (FilePath.ofText request.bookPath) = .book catalogs ∧
        r.2.2 (FilePath.ofText request.catalogPath) = some ((catalogFile written catalogs).take
          (intOfSize (catalogFile written catalogs).length).toNat)) := by
  unfold getEpubCatalog
  split
  case h_1 => exact ⟨_,rfl,fun _ _ => rfl,fun h => nomatch h⟩
  case h_2 => exact ⟨_,rfl,fun _ _ => rfl,fun h => nomatch h⟩
  case h_3 catalogs hbook =>
    have hsize := intOfSize_le (catalogFile written catalogs).length
    obtain ⟨⟨bytesWritten,file⟩,hruns,hcut⟩ :=
      writeFile_cut os (disk (FilePath.ofText request.catalogPath)) hsize
    have hwritten := hruns ((catalogFile written catalogs).length+1) (by omega)
    have hjson : written (catalogEvents catalogs) = catalogFile written catalogs := by
      rw [catalogEvents_eq,catalogFile]
    rw [hjson]
    dsimp only
    rw [hwritten,Option.bind_eq_bind,Option.bind_some]
    by_cases hfails : bytesWritten = -1
    · refine ⟨_,if_pos hfails,fun path hpath => Function.update_of_ne hpath _ _,fun h => ?_⟩
      cases h
    · refine ⟨_,if_neg hfails,fun path hpath => Function.update_of_ne hpath _ _,
        fun _ => ⟨rfl,catalogs,hbook,(Function.update_self _ _ _).trans ?_⟩⟩
      rcases hcut with ⟨-,hrefused⟩ | ⟨n,-,hfile,hminus | ⟨-,hn⟩⟩
      · exact absurd (congrArg Prod.fst hrefused) hfails
      · exact absurd hminus hfails
      · exact hfile.trans (by rw [hn])

/-- A delivery changes at most the catalog file of its book and adds at most one row; the row it
adds names a file that it has written. -/
theorem deliver_cases {s t : CatalogSystem} {d : Delivery} {status : Status}
    (h : s.deliver parse written d = some (status,t)) :
    (∃ status, readEpub parse d.message = .returned status) ∧ t.disk = s.disk ∧
      t.handler.rows = s.handler.rows ∨
    ∃ f, readEpub parse d.message = .proceeds f ∧
      (∀ path, path ≠ f.catalogPath → t.disk path = s.disk path) ∧
      (t.handler.rows = s.handler.rows ∨ ∃ catalogs,
        d.books (FilePath.ofText f.bookPath) = .book catalogs ∧
        t.handler.rows = s.handler.rows ++ [⟨f.catalogPath.value,f.bookIdInt⟩] ∧
        t.disk f.catalogPath = some ((catalogFile written catalogs).take
          (intOfSize (catalogFile written catalogs).length).toNat)) := by
  unfold CatalogSystem.deliver at h
  dsimp only at h
  split at h
  case h_1 => cases h
  case h_2 answer hread =>
    cases h
    exact Or.inl ⟨⟨status,hread⟩,rfl,rfl⟩
  case h_3 f hread =>
    refine Or.inr ⟨f,hread,?_⟩
    have hpath : FilePath.ofText f.request.catalogPath = f.catalogPath := f.catalogPath.ofText_value
    obtain ⟨r,hruns,hframe,hok⟩ :=
      getEpubCatalog_returns written d.books d.os f.request s.disk
    rw [hpath] at hframe hok
    unfold callGetEpubCatalog at h
    rw [hruns] at h
    cases hserved : d.served with
    | false =>
      rw [hserved] at h
      cases h
      exact ⟨fun _ _ => rfl,Or.inl rfl⟩
    | true =>
      rw [hserved] at h
      dsimp only [Bool.not_true,Bool.false_eq_true,if_false,Option.map_some,Option.bind_eq_bind,
        Option.bind_some] at h
      cases h
      refine ⟨hframe,?_⟩
      by_cases hanswer : d.answered ∧ r.1 = .ok
      · obtain ⟨hsame,catalogs,hbook,hfile⟩ := hok hanswer.2
        rw [if_pos hanswer]
        unfold handleEpubFields
        cases d.updated with
        | false => exact Or.inl rfl
        | true => exact Or.inr ⟨catalogs,hbook,by rw [hsame]; rfl,hfile⟩
      · rw [if_neg hanswer]
        exact Or.inl rfl

/-- No message asks for the catalog of a book with this catalog file. -/
def Unasked (parse : Text → Option Json) (deliveries : List Delivery) (path : FilePath) : Prop :=
  ∀ d ∈ deliveries, ∀ f, readEpub parse d.message = .proceeds f → f.catalogPath ≠ path

/-- A message has asked for the catalog that the row names; its file holds the catalog as long as no
other message asks for it. The size of a catalog is handed over as an `int`. -/
def Backed (parse : Text → Option Json) (written : List JsonEvent → List UInt8)
    (deliveries : List Delivery) (disk : Contents) (row : BookRow) : Prop :=
  ∃ before d after f catalogs, deliveries = before ++ d :: after ∧
    readEpub parse d.message = .proceeds f ∧
    d.books (FilePath.ofText f.bookPath) = .book catalogs ∧
    row = ⟨f.catalogPath.value,f.bookIdInt⟩ ∧
    (Unasked parse after f.catalogPath → (catalogFile written catalogs).length < 2^31 →
      disk f.catalogPath = some (catalogFile written catalogs))

theorem Unasked.init {deliveries : List Delivery} {d : Delivery} {path : FilePath}
    (h : Unasked parse (deliveries ++ [d]) path) : Unasked parse deliveries path :=
  fun d' hd' => h d' (List.mem_append_left _ hd')

theorem Unasked.last {deliveries : List Delivery} {d : Delivery} {path : FilePath}
    (h : Unasked parse (deliveries ++ [d]) path) {f : EpubFields}
    (hread : readEpub parse d.message = .proceeds f) : f.catalogPath ≠ path :=
  h d (by simp) f hread

theorem deliver_disk {s t : CatalogSystem} {d : Delivery} {status : Status}
    (h : s.deliver parse written d = some (status,t)) {path : FilePath}
    (hpath : ∀ f, readEpub parse d.message = .proceeds f → f.catalogPath ≠ path) :
    t.disk path = s.disk path := by
  rcases deliver_cases h with ⟨-,hdisk,-⟩ | ⟨f,hread,hframe,-⟩
  · rw [hdisk]
  · exact hframe path (hpath f hread).symm

theorem Backed.more {deliveries : List Delivery} {s t : CatalogSystem} {d : Delivery}
    {status : Status} {row : BookRow} (hrow : Backed parse written deliveries s.disk row)
    (h : s.deliver parse written d = some (status,t)) :
    Backed parse written (deliveries ++ [d]) t.disk row := by
  obtain ⟨before,d',after,f,catalogs,rfl,hread,hbook,hrow,hfile⟩ := hrow
  refine ⟨before,d',after ++ [d],f,catalogs,by simp,hread,hbook,hrow,fun hunasked hsize => ?_⟩
  rw [deliver_disk h fun g hg => hunasked.last hg]
  exact hfile hunasked.init hsize

theorem backed_deliver {deliveries : List Delivery} {s t : CatalogSystem} {d : Delivery}
    {status : Status} (hrows : ∀ row ∈ s.handler.rows, Backed parse written deliveries s.disk row)
    (h : s.deliver parse written d = some (status,t)) :
    ∀ row ∈ t.handler.rows, Backed parse written (deliveries ++ [d]) t.disk row := by
  intro row hrow
  rcases deliver_cases h with ⟨-,-,hsame⟩ | ⟨f,hread,-,hsame | ⟨catalogs,hbook,hadds,hfile⟩⟩
  · exact (hrows row (hsame ▸ hrow)).more h
  · exact (hrows row (hsame ▸ hrow)).more h
  · rw [hadds,List.mem_append,List.mem_singleton] at hrow
    rcases hrow with hold | hnew
    · exact (hrows row hold).more h
    · refine ⟨deliveries,d,[],f,catalogs,rfl,hread,hbook,hnew,fun _ hsize => ?_⟩
      rw [hfile,intOfSize_of_lt hsize,Int.toNat_natCast,List.take_length]

/-- What every run keeps. -/
structure CatalogSystem.Kept (parse : Text → Option Json) (written : List JsonEvent → List UInt8)
    (disk : Contents) (deliveries : List Delivery) (s : CatalogSystem) : Prop where
  backed : ∀ row ∈ s.handler.rows, Backed parse written deliveries s.disk row
  unasked : ∀ path, Unasked parse deliveries path → s.disk path = disk path

theorem catalogSystem_kept {disk : Contents} {deliveries : List Delivery} {s : CatalogSystem}
    (hrun : (catalogSystem parse written disk).run deliveries = some s) :
    s.Kept parse written disk deliveries := by
  refine System.run_history (P := fun deliveries s =>
    CatalogSystem.Kept parse written disk deliveries s) ?_ ?_ hrun
  · exact ⟨fun row hrow => (List.not_mem_nil hrow).elim,fun _ _ => rfl⟩
  · intro deliveries s d t hs hstep
    obtain ⟨⟨status,t'⟩,hdeliver,rfl⟩ := Option.map_eq_some_iff.mp hstep
    refine ⟨backed_deliver hs.backed hdeliver,fun path hunasked => ?_⟩
    rw [deliver_disk hdeliver fun g hg => hunasked.last hg]
    exact hs.unasked path hunasked.init

/-- In every run each row of the database names a catalog file that was written for its book, and
this file holds the catalog of the book unless a later message has asked for it again; no other
file is touched. -/
theorem catalogSystem_backed {disk : Contents} {deliveries : List Delivery} {s : CatalogSystem}
    (hrun : (catalogSystem parse written disk).run deliveries = some s) :
    (∀ row ∈ s.handler.rows, Backed parse written deliveries s.disk row) ∧
    ∀ path, Unasked parse deliveries path → s.disk path = disk path := by
  have hkept := catalogSystem_kept hrun
  exact ⟨hkept.backed,hkept.unasked⟩

def bookMessage : Text := "\x7b\"book_id\":\"7\",\"book_path\":\"a.epub\"\x7d".toList

def bookDocument (message : Text) : Option Json :=
  if message = bookMessage then
    some (.object [("book_id".toList,.string ['7']),("book_path".toList,.string "a.epub".toList)])
  else none

def emptyCatalog (events : List JsonEvent) : List UInt8 :=
  if events = catalogEvents [] then
    "\x7b\"book_catalog\":[]\x7d".toList.map fun c => UInt8.ofNat c.toNat
  else []

/-- The second write of the catalog fails. -/
def bookDeliveries : List Delivery :=
  [⟨bookMessage,fun _ => .book [],⟨true,fun _ => .upTo 9,true⟩,true,true,true⟩,
    ⟨bookMessage,fun _ => .book [],⟨true,fun _ => .fails,true⟩,true,true,true⟩]

theorem bookDeliveries_backed : ∃ s : CatalogSystem,
    (catalogSystem bookDocument emptyCatalog fun _ => none).run bookDeliveries = some s ∧
    (∀ row ∈ s.handler.rows, Backed bookDocument emptyCatalog bookDeliveries s.disk row) ∧
    ∀ path, Unasked bookDocument bookDeliveries path → s.disk path = none := by
  have hrun : ((catalogSystem bookDocument emptyCatalog fun _ => none).run
      bookDeliveries).isSome := by decide
  obtain ⟨s,hs⟩ := Option.isSome_iff_exists.mp hrun
  exact ⟨s,hs,catalogSystem_backed hs⟩

end Catalogs

end MprMq.Service
