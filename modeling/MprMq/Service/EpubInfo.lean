import MprMq.Service.Message
set_option autoImplicit false

/-! `RpcEpubInfoServiceHandler::Handle` from the request on. What the epub service and
the database answer is a parameter; what the handler sends is a list. -/

namespace MprMq.Service
open MprMq.Base

structure CatalogRequest where
  bookId : Int
  bookPath : Text
  catalogPath : Text
  deriving DecidableEq

structure BookRow where
  epubInfoDir : Text
  id : Int
  deriving DecidableEq

/-- `catalog` is the response of `GetEpubCatalog`, and `updated` whether the `UPDATE`
runs; what it throws is caught, whatever it is. -/
structure EpubRemote where
  catalog : Option Text
  updated : Bool

structure EpubWorld where
  requests : List CatalogRequest
  rows : List BookRow
  output : Text
  deriving DecidableEq

def EpubFields.request (f : EpubFields) : CatalogRequest :=
  ⟨f.bookIdInt,f.bookPath,f.catalogPath.value⟩

def lost (bookPath : Text) : Status :=
  .error .dataLoss ("RCP: book_path ".toList ++ bookPath ++ " Loss".toList)

def handleEpubFields (r : EpubRemote) (f : EpubFields) (w : EpubWorld) : EpubWorld × Status :=
  let w := { w with requests := w.requests ++ [f.request] }
  match r.catalog with
  | some retCatalogPath =>
    let w := { w with output := retCatalogPath }
    (if r.updated then { w with rows := w.rows ++ [⟨retCatalogPath,f.bookIdInt⟩] } else w,.ok)
  | none => (w,lost f.bookPath)

end MprMq.Service
