import Mathlib.Data.Char
import Mathlib.Data.List.Lex
import Mathlib.Data.List.Sort
import MprMq.Lib.Keyed
import MprMq.Epub.PathUtil
import MprMq.Epub.XmlTree
set_option autoImplicit false

/-! `EpubPackage`: what is read from the OPF file, and the package of some of the sections. -/

namespace MprMq.Epub
open MprMq.Base MprMq.Lib

structure EPackageMetaItem where
  mProperty : Text
  refines : Text
  id : Text
  scheme : Text
  lang : Text
  direction : Text
  text : Text
  name : Text
  content : Text
  deriving DecidableEq, Repr

structure EPackageDCMEItem where
  name : Text
  text : Text
  id : Text
  lang : Text
  direction : Text
  deriving DecidableEq, Repr

structure EPackageLinkItem where
  href : Text
  rel : Text
  id : Text
  refines : Text
  mediaType : Text
  deriving DecidableEq, Repr

structure EPackageManifestItem where
  id : Text
  href : Text
  mediaType : Text
  fallback : Text
  properties : Text
  mediaOverlay : Text
  deriving DecidableEq, Repr

structure EPackageSpineItem where
  idRef : Text
  linear : Text
  id : Text
  properties : Text
  deriving DecidableEq, Repr

inductive GuideType where
  | unknow | cover | titlePage | toc | copyRightPage
  deriving DecidableEq, Repr

def typeFromString (str : Text) : GuideType :=
  if str = "cover".toList then .cover
  else if str = "title-page".toList then .titlePage
  else if str = "toc".toList then .toc
  else if str = "copyright-page".toList then .copyRightPage
  else .unknow

def stringFromType : GuideType → Text
  | .cover => "cover".toList
  | .titlePage => "title-page".toList
  | .toc => "toc".toList
  | .copyRightPage => "copyright-page".toList
  | .unknow => []

structure EPackageGuideItem where
  type : GuideType
  title : Text
  href : Text
  deriving DecidableEq, Repr

/-- The items are behind pointers in the source; none of them changes once it is there. -/
structure EpubPackage where
  version : Text
  uniqueIdentifier : Text
  metaDCMES : List EPackageDCMEItem
  metaItems : List EPackageMetaItem
  metaLinks : List EPackageLinkItem
  manifestID : Text
  manifestItemIDMap : Text → Option EPackageManifestItem
  manifestItemHrefMap : Text → Option EPackageManifestItem
  manifestItems : List EPackageManifestItem
  spineID : Text
  spineToc : Text
  spinePageProgressionDirection : Text
  spineItems : List EPackageSpineItem
  spineIndexMap : Text → Option Nat
  guideItems : List EPackageGuideItem
  ncxPath : Text
  navTocPath : Text
  opfFilePath : Text
  opfParentPath : Text

def packageMediaTypeNCX : Text := "application/x-dtbncx+xml".toList
def packageMediaTypeXHTML : Text := "application/xhtml+xml".toList
def packageNavProperty : Text := "nav".toList

namespace EpubPackage

def fresh : EpubPackage where
  version := []
  uniqueIdentifier := []
  metaDCMES := []
  metaItems := []
  metaLinks := []
  manifestID := []
  manifestItemIDMap := fun _ => none
  manifestItemHrefMap := fun _ => none
  manifestItems := []
  spineID := []
  spineToc := []
  spinePageProgressionDirection := []
  spineItems := []
  spineIndexMap := fun _ => none
  guideItems := []
  ncxPath := []
  navTocPath := []
  opfFilePath := []
  opfParentPath := []

def readMetadataItem (data : XMLNode) (child : XMLItem) (p : EpubPackage) : EpubPackage :=
  let elementName := data.getElement
  if 3 < elementName.length ∧ elementName.take 3 = "dc:".toList then
    { p with
      metaDCMES := p.metaDCMES ++ [{
        name := elementName
        text := data.getValue child
        id := data.getAttrString "id".toList
        lang := data.getAttrString "xml:lang".toList
        direction := data.getAttrString "dir".toList }] }
  else if elementName = "meta".toList then
    { p with
      metaItems := p.metaItems ++ [{
        text := data.getValue child
        mProperty := data.getAttrString "property".toList
        refines := data.getAttrString "refines".toList
        id := data.getAttrString "id".toList
        scheme := data.getAttrString "scheme".toList
        lang := data.getAttrString "xml:lang".toList
        direction := data.getAttrString "dir".toList
        name := data.getAttrString "name".toList
        content := data.getAttrString "content".toList }] }
  else if elementName = "link".toList then
    { p with
      metaLinks := p.metaLinks ++ [{
        href := data.getAttrString "href".toList
        rel := data.getAttrString "rel".toList
        id := data.getAttrString "id".toList
        refines := data.getAttrString "refines".toList
        mediaType := data.getAttrString "media-type".toList }] }
  else p

def readMetadata (child : XMLItem) (p : EpubPackage) : EpubPackage :=
  child.each readMetadataItem p

def addManifestItem (item : EPackageManifestItem) (p : EpubPackage) : EpubPackage :=
  { p with
    manifestItems := p.manifestItems ++ [item]
    manifestItemIDMap := addNew p.manifestItemIDMap item.id item
    manifestItemHrefMap := addNew p.manifestItemHrefMap item.href item
    navTocPath :=
      if item.mediaType = packageMediaTypeXHTML ∧ item.properties = packageNavProperty then
        item.href
      else p.navTocPath }

def readManifestItem (data : XMLNode) (_ : XMLItem) (p : EpubPackage) : EpubPackage :=
  if data.getElement ≠ "item".toList then p
  else
    let id := data.getAttrString "id".toList
    let href := data.getAttrString "href".toList
    if id = [] ∨ href = [] then p
    else
      addManifestItem {
        id := id
        href := getAbsolutePath href p.opfParentPath
        mediaType := data.getAttrString "media-type".toList
        fallback := data.getAttrString "fallback".toList
        properties := data.getAttrString "properties".toList
        mediaOverlay := data.getAttrString "media-overlay".toList } p

def readManifest (data : XMLNode) (child : XMLItem) (p : EpubPackage) : EpubPackage :=
  child.each readManifestItem { p with manifestID := data.getAttrString "id".toList }

def addSpineItem (item : EPackageSpineItem) (p : EpubPackage) : EpubPackage :=
  { p with spineItems := p.spineItems ++ [item] }

def readSpineItem (data : XMLNode) (_ : XMLItem) (p : EpubPackage) : EpubPackage :=
  if data.isElementNode = false then p
  else if data.getElement ≠ "itemref".toList then p
  else
    addSpineItem {
      idRef := data.getAttrString "idref".toList
      linear := data.getAttrString "linear".toList
      id := data.getAttrString "id".toList
      properties := data.getAttrString "properties".toList } p

def readSpine (data : XMLNode) (child : XMLItem) (p : EpubPackage) : EpubPackage :=
  child.each readSpineItem
    { p with
      spineID := data.getAttrString "id".toList
      spineToc := data.getAttrString "toc".toList
      spinePageProgressionDirection :=
        data.getAttrString "page-progression-direction".toList }

def addGuideItem (item : EPackageGuideItem) (p : EpubPackage) : EpubPackage :=
  { p with guideItems := p.guideItems ++ [item] }

def readGuideItem (data : XMLNode) (_ : XMLItem) (p : EpubPackage) : EpubPackage :=
  if data.getElement ≠ "reference".toList then p
  else
    addGuideItem {
      type := typeFromString (data.getAttrString "type".toList)
      title := data.getAttrString "title".toList
      href := getAbsolutePath (data.getAttrString "href".toList) p.opfParentPath } p

def readGuide (child : XMLItem) (p : EpubPackage) : EpubPackage :=
  child.each readGuideItem p

def readPart (data : XMLNode) (child : XMLItem) (p : EpubPackage) : EpubPackage :=
  let elementName := data.getElement
  if elementName = "metadata".toList then readMetadata child p
  else if elementName = "manifest".toList then readManifest data child p
  else if elementName = "spine".toList then readSpine data child p
  else if elementName = "guide".toList then readGuide child p
  else p

def enterSection (idMap : Text → Option EPackageManifestItem) (item : EPackageSpineItem)
    (i : Nat) (index : Text → Option Nat) : Text → Option Nat :=
  match idMap item.idRef with
  | none => index
  | some manifestItem => Function.update index manifestItem.href (some i)

def spineIndexLoop (idMap : Text → Option EPackageManifestItem) :
    List EPackageSpineItem → Nat → (Text → Option Nat) → Text → Option Nat
  | [],_,index => index
  | item :: rest,i,index => spineIndexLoop idMap rest (i+1) (enterSection idMap item i index)

def buildSpineIndexMap (p : EpubPackage) : EpubPackage :=
  { p with
    spineIndexMap := spineIndexLoop p.manifestItemIDMap p.spineItems 0 p.spineIndexMap }

def findNCX (p : EpubPackage) : EpubPackage :=
  match p.manifestItemIDMap p.spineToc with
  | none => p
  | some item => if item.mediaType = packageMediaTypeNCX then { p with ncxPath := item.href } else p

def readPackage (data : XMLNode) (child : XMLItem) (p : EpubPackage) : EpubPackage :=
  findNCX (buildSpineIndexMap (child.each readPart
    { p with
      uniqueIdentifier := data.getAttrString "unique-identifier".toList
      version := data.getAttrString "version".toList }))

def getSectionIndex (p : EpubPackage) (href : Text) : Int :=
  match p.spineIndexMap href with
  | some i => i
  | none => -1

def toLower (str : Text) : Text := str.map Char.toLower

def startWith (str sub : Text) : Bool := sub.length ≤ str.length ∧ str.take sub.length = sub

def manifestMediaTypeByFileExtension (extension : Text) : Text :=
  let lowerExtension := toLower extension
  if lowerExtension = "gif".toList then "image/gif".toList
  else if lowerExtension = "jpe".toList ∨ lowerExtension = "jpeg".toList ∨
    lowerExtension = "jpg".toList then "image/jpeg".toList
  else if lowerExtension = "tif".toList then "image/tiff".toList
  else if lowerExtension = "png".toList then "image/png".toList
  else if lowerExtension = "css".toList then "text/css".toList
  else if lowerExtension = "xhtml".toList then packageMediaTypeXHTML
  else if lowerExtension = "toc".toList then packageMediaTypeNCX
  else []

def createManifestItemByHref (p : EpubPackage) (href : Text) : EPackageManifestItem :=
  match p.manifestItemHrefMap href with
  | some item => item
  | none => {
      id := getLastComponent href
      href := href
      mediaType := manifestMediaTypeByFileExtension (getExtension href)
      fallback := []
      properties := []
      mediaOverlay := [] }

/-- `resources` is what `FetchExternalRes` finds in an item of the archive, if the archive has
the item and it is not empty. -/
def fetchExternalResourceInSpine (p : EpubPackage) (resources : Text → Option (List Text))
    (spine : Nat) : List Text :=
  match p.spineItems[spine]? with
  | none => []
  | some item =>
    match p.manifestItemIDMap item.idRef with
    | none => []
    | some manifestItem =>
      match resources manifestItem.href with
      | none => []
      | some found =>
        found.map fun resource => getAbsolutePath resource (getParentPath manifestItem.href)

def metaCoverLoop (p : EpubPackage) : List EPackageMetaItem → Text
  | [] => []
  | item :: rest =>
    if item.name = "cover".toList then
      match p.manifestItemIDMap item.content with
      | some manifestItem => manifestItem.href
      | none => metaCoverLoop p rest
    else metaCoverLoop p rest

def getCoverImageHref (p : EpubPackage) : Text :=
  let href := metaCoverLoop p p.metaItems
  if href = [] then
    match p.manifestItems.find? fun item => startWith (toLower item.id) "cover".toList with
    | some item => item.href
    | none => []
  else href

def insertResource (set : List Text) (href : Text) : List Text :=
  if set.contains href then set else set.orderedInsert (fun a b => a ≤ b) href

def reserveSpine (p : EpubPackage) (resources : Text → Option (List Text)) (spine : Int)
    (s : List EPackageSpineItem × List Text) : List EPackageSpineItem × List Text :=
  if 0 ≤ spine ∧ spine < p.spineItems.length then
    match p.spineItems[spine.toNat]? with
    | none => s
    | some item =>
      let allResource :=
        (p.fetchExternalResourceInSpine resources spine.toNat).foldl insertResource s.2
      (s.1 ++ [item],
        match p.manifestItemIDMap item.idRef with
        | none => allResource
        | some manifestItem => insertResource allResource manifestItem.href)
  else s

/-- The sections are in the order of the set. -/
def subSpineLoop (p : EpubPackage) (resources : Text → Option (List Text)) :
    List Int → List EPackageSpineItem × List Text → List EPackageSpineItem × List Text
  | [],s => s
  | spine :: rest,s => subSpineLoop p resources rest (p.reserveSpine resources spine s)

/-- `none` is the null pointer. -/
def subPackage (p : EpubPackage) (resources : Text → Option (List Text))
    (reservedSpines : List Int) (useLiteMode : Bool) : Option EpubPackage :=
  if reservedSpines = [] then none
  else
    let (spineItems,allResource) := subSpineLoop p resources reservedSpines ([],[])
    let allResource :=
      if useLiteMode then allResource
      else
        let coverResource := p.getCoverImageHref
        let allResource :=
          if coverResource = [] then allResource else insertResource allResource coverResource
        insertResource (insertResource allResource p.ncxPath) p.navTocPath
    let manifestItems := allResource.map p.createManifestItemByHref
    some (buildSpineIndexMap { fresh with
      version := p.version
      uniqueIdentifier := p.uniqueIdentifier
      manifestID := p.manifestID
      spineID := p.spineID
      spineToc := p.spineToc
      spinePageProgressionDirection := p.spinePageProgressionDirection
      opfFilePath := p.opfFilePath
      opfParentPath := p.opfParentPath
      spineItems := spineItems
      ncxPath := if useLiteMode then [] else p.ncxPath
      navTocPath := if useLiteMode then [] else p.navTocPath
      manifestItems := manifestItems
      manifestItemIDMap :=
        manifestItems.foldl (fun m item => Function.update m item.id (some item)) fun _ => none
      manifestItemHrefMap :=
        manifestItems.foldl (fun m item => Function.update m item.href (some item)) fun _ => none
      guideItems := if useLiteMode then [] else p.guideItems })

end EpubPackage

end MprMq.Epub
