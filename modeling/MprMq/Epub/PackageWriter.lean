import MprMq.Epub.PackageReading
set_option autoImplicit false

/-! `EpubPackageWriter::CreateOPFXML`, and that a package which is written and read again is the
same but for what the writer leaves out. -/

namespace MprMq.Epub
open MprMq.Base MprMq.Lib

/-- Some attributes are set behind a test that the value is not empty. -/
def setAttrs (always optional : List (Text × Text)) : List (Text × Text) :=
  always ++ optional.filter fun attr => attr.2 ≠ []

def textIf (value : Text) : XMLItem :=
  if value = [] then .null else .node (.text value) .null .null

namespace EpubPackage

def writeDCME (item : EPackageDCMEItem) : XMLNode × XMLItem :=
  (.element item.name [("id".toList,item.id)],textIf item.text)

def writeMeta (item : EPackageMetaItem) : XMLNode × XMLItem :=
  (.element "meta".toList (setAttrs
    [("refines".toList,item.refines),("property".toList,item.mProperty)]
    [("id".toList,item.id),("scheme".toList,item.scheme),("content".toList,item.content),
      ("name".toList,item.name)]),textIf item.text)

def writeLink (item : EPackageLinkItem) : XMLNode × XMLItem :=
  (.element "link".toList (setAttrs
    [("href".toList,item.href),("rel".toList,item.rel),("type".toList,item.mediaType)]
    [("id".toList,item.id),("refines".toList,item.refines)]),.null)

def writeManifestItem (opfParentPath : Text) (item : EPackageManifestItem) :
    XMLNode × XMLItem :=
  (.element "item".toList (setAttrs
    [("href".toList,getReletivePath item.href opfParentPath),("id".toList,item.id),
      ("media-type".toList,item.mediaType)]
    [("properties".toList,item.properties)]),.null)

def writeSpineItem (item : EPackageSpineItem) : XMLNode × XMLItem :=
  (.element "itemref".toList (setAttrs [("idref".toList,item.idRef)]
    [("id".toList,item.id),("properties".toList,item.properties)]),.null)

def writeGuideItem (opfParentPath : Text) (item : EPackageGuideItem) : XMLNode × XMLItem :=
  (.element "reference".toList [("href".toList,getReletivePath item.href opfParentPath),
    ("title".toList,item.title),("type".toList,stringFromType item.type)],.null)

def createOPFXML (p : EpubPackage) : XMLNode × XMLItem :=
  (.element "package".toList [("xmlns".toList,"http://www.idpf.org/2007/opf".toList),
    ("unique-identifier".toList,p.uniqueIdentifier),("version".toList,p.version)],
  .ofList [
    (.element "metadata".toList [("xmlns:dc".toList,"http://purl.org/dc/elements/1.1/".toList),
      ("xmlns:opf".toList,"http://www.idpf.org/2007/opf".toList)],
      .ofList (p.metaDCMES.map writeDCME ++ p.metaItems.map writeMeta ++
        p.metaLinks.map writeLink)),
    (.element "manifest".toList [],
      .ofList (p.manifestItems.map (writeManifestItem p.opfParentPath))),
    (.element "spine".toList (setAttrs [("toc".toList,p.spineToc)] [("id".toList,p.spineID)]),
      .ofList (p.spineItems.map writeSpineItem)),
    (.element "guide".toList [],.ofList (p.guideItems.map (writeGuideItem p.opfParentPath)))])

/-! What is written of each item, the text of the metadata apart. -/

def keptDCME (item : EPackageDCMEItem) : EPackageDCMEItem :=
  { item with text := [], lang := [], direction := [] }

def keptMeta (item : EPackageMetaItem) : EPackageMetaItem :=
  { item with text := [], lang := [], direction := [] }

def keptLink (item : EPackageLinkItem) : EPackageLinkItem := { item with mediaType := [] }

def keptManifestItem (item : EPackageManifestItem) : EPackageManifestItem :=
  { item with fallback := [], mediaOverlay := [] }

def keptSpineItem (item : EPackageSpineItem) : EPackageSpineItem := { item with linear := [] }

def textless (p : EpubPackage) : EpubPackage :=
  { p with
    metaDCMES := p.metaDCMES.map fun item => { item with text := [] }
    metaItems := p.metaItems.map fun item => { item with text := [] } }

/-- What the writer keeps of a package. -/
def kept (p : EpubPackage) : EpubPackage :=
  { p with
    metaDCMES := p.metaDCMES.map keptDCME
    metaItems := p.metaItems.map keptMeta
    metaLinks := p.metaLinks.map keptLink
    manifestID := []
    manifestItemIDMap := fun id => (p.manifestItemIDMap id).map keptManifestItem
    manifestItemHrefMap := fun href => (p.manifestItemHrefMap href).map keptManifestItem
    manifestItems := p.manifestItems.map keptManifestItem
    spinePageProgressionDirection := []
    spineItems := p.spineItems.map keptSpineItem }

theorem find_nonempty {attrs : List (Text × Text)} (h : (attrs.map Prod.fst).Nodup) (key : Text) :
    (((attrs.filter fun attr => attr.2 ≠ []).find? fun attr => attr.1 = key).map Prod.snd).getD
      [] = ((attrs.find? fun attr => attr.1 = key).map Prod.snd).getD [] := by
  induction attrs with
  | nil => rfl
  | cons attr attrs ih =>
    obtain ⟨name,value⟩ := attr
    rw [List.map_cons,List.nodup_cons] at h
    have ih := ih h.2
    by_cases hvalue : value = []
    · rw [List.filter_cons_of_neg (by simp [hvalue]),ih]
      by_cases hname : name = key
      · have hnone : (attrs.find? fun attr => attr.1 = key) = none := by
          rw [List.find?_eq_none]
          intro other hother hkey
          exact h.1 (List.mem_map.mpr ⟨other,hother,(of_decide_eq_true hkey).trans hname.symm⟩)
        simp [hnone,hname,hvalue]
      · rw [List.find?_cons_of_neg (by simpa using hname)]
    · rw [List.filter_cons_of_pos (by simpa using hvalue)]
      by_cases hname : name = key
      · rw [List.find?_cons_of_pos (by simpa using hname),
          List.find?_cons_of_pos (by simpa using hname)]
      · rw [List.find?_cons_of_neg (by simpa using hname),
          List.find?_cons_of_neg (by simpa using hname),ih]

/-- An attribute that is left out reads as the empty value it has. -/
theorem getAttrString_setAttrs (name : Text) (always optional : List (Text × Text))
    (h : (optional.map Prod.fst).Nodup) (key : Text) :
    (XMLNode.element name (setAttrs always optional)).getAttrString key =
      (XMLNode.element name (always ++ optional)).getAttrString key := by
  have hfind := find_nonempty h key
  simp only [XMLNode.getAttrString,setAttrs,List.find?_append]
  cases always.find? fun attr => attr.1 = key with
  | none => simpa using hfind
  | some attr => simp

section ReadBack
variable {parent : Text} {p : EpubPackage}

theorem read_writeMeta (item : EPackageMetaItem) :
    readMetadataItem (writeMeta item).1 .null p =
      { p with metaItems := p.metaItems ++ [keptMeta item] } := by
  have hattr := getAttrString_setAttrs "meta".toList
    [("refines".toList,item.refines),("property".toList,item.mProperty)]
    [("id".toList,item.id),("scheme".toList,item.scheme),
      ("content".toList,item.content),("name".toList,item.name)]
    (show ["id".toList,"scheme".toList,"content".toList,"name".toList].Nodup by decide)
  simp only [readMetadataItem,writeMeta,hattr]
  rfl

theorem read_writeLink (item : EPackageLinkItem) :
    readMetadataItem (writeLink item).1 .null p =
      { p with metaLinks := p.metaLinks ++ [keptLink item] } := by
  have hattr := getAttrString_setAttrs "link".toList
    [("href".toList,item.href),("rel".toList,item.rel),("type".toList,item.mediaType)]
    [("id".toList,item.id),("refines".toList,item.refines)]
    (show ["id".toList,"refines".toList].Nodup by decide)
  simp only [readMetadataItem,writeLink,hattr]
  rfl

theorem read_writeDCME {item : EPackageDCMEItem} (h : IsDCMEName item.name) :
    readMetadataItem (writeDCME item).1 .null p =
      { p with metaDCMES := p.metaDCMES ++ [keptDCME item] } := by
  have hname : 3 < item.name.length ∧ item.name.take 3 = "dc:".toList := h
  simp only [readMetadataItem,writeDCME,XMLNode.getElement_element,hname,and_self,if_true]
  rfl

/-- From the directory of the OPF file the path is read as it was before it was written. -/
def LeadsBack (parent href : Text) : Prop :=
  getAbsolutePath (getReletivePath href parent) parent = href

def Kept (parent href : Text) : Prop := href ≠ [] ∧ LeadsBack parent href

theorem Kept.ne_nil {href : Text} (h : Kept parent href) : getReletivePath href parent ≠ [] := by
  intro hnil
  have hback := h.2
  rw [LeadsBack,hnil] at hback
  simp only [getAbsolutePath,ne_eq,not_true,and_false,if_false] at hback
  exact h.1 hback.symm

theorem read_writeManifestItem {item : EPackageManifestItem} (hparent : p.opfParentPath = parent)
    (hid : item.id ≠ []) (hhref : Kept parent item.href) (child : XMLItem) :
    readManifestItem (writeManifestItem parent item).1 child p =
      addManifestItem (keptManifestItem item) p := by
  have hattr := getAttrString_setAttrs "item".toList
    [("href".toList,getReletivePath item.href parent),("id".toList,item.id),
      ("media-type".toList,item.mediaType)]
    [("properties".toList,item.properties)]
    (show ["properties".toList].Nodup by decide)
  have hread : readManifestItem (writeManifestItem parent item).1 child p =
      if item.id = [] ∨ getReletivePath item.href parent = [] then p
      else addManifestItem { keptManifestItem item with
        href := getAbsolutePath (getReletivePath item.href parent) p.opfParentPath } p := by
    simp only [readManifestItem,writeManifestItem,hattr]
    rfl
  rw [hread,if_neg (not_or.mpr ⟨hid,hhref.ne_nil⟩),hparent,hhref.2]
  rfl

theorem read_writeSpineItem (item : EPackageSpineItem) (child : XMLItem) :
    readSpineItem (writeSpineItem item).1 child p = addSpineItem (keptSpineItem item) p := by
  have hattr := getAttrString_setAttrs "itemref".toList [("idref".toList,item.idRef)]
    [("id".toList,item.id),("properties".toList,item.properties)]
    (show ["id".toList,"properties".toList].Nodup by decide)
  simp only [readSpineItem,writeSpineItem,hattr]
  rfl

theorem typeFromString_stringFromType (type : GuideType) :
    typeFromString (stringFromType type) = type := by
  cases type <;> rfl

theorem read_writeGuideItem {item : EPackageGuideItem} (hparent : p.opfParentPath = parent)
    (hhref : LeadsBack parent item.href) (child : XMLItem) :
    readGuideItem (writeGuideItem parent item).1 child p = addGuideItem item p := by
  have hread : readGuideItem (writeGuideItem parent item).1 child p =
      addGuideItem {
        type := typeFromString (stringFromType item.type)
        title := item.title
        href := getAbsolutePath (getReletivePath item.href parent) p.opfParentPath } p := rfl
  rw [hread,hparent,hhref,typeFromString_stringFromType]

/-- A loop of which every turn adds one item to a list. -/
theorem foldl_gather {σ α β : Type} {I : σ → Prop} {f : σ → α → σ} {g : α → β}
    (add : σ → List β → σ) (hnil : ∀ s, add s [] = s)
    (hadd : ∀ s l m, add (add s l) m = add s (l ++ m)) (hkeep : ∀ s l, I s → I (add s l))
    {items : List α} (h : ∀ item ∈ items, ∀ s, I s → f s item = add s [g item]) {s : σ}
    (hs : I s) : items.foldl f s = add s (items.map g) := by
  induction items generalizing s with
  | nil => exact (hnil s).symm
  | cons item items ih =>
    rw [List.foldl_cons,h item List.mem_cons_self s hs,
      ih (fun other hother => h other (List.mem_cons_of_mem item hother)) (hkeep s _ hs),hadd]
    rfl

theorem skeleton_textIf (value : Text) : skeleton (textIf value) = .null := by
  unfold textIf
  split
  case isTrue => rfl
  case isFalse => rfl

/-- What a loop does with the items that were written, texts apart. -/
theorem each_written {σ α : Type} (f : XMLNode → XMLItem → σ → σ) {w : α → XMLNode × XMLItem}
    {items : List α} (helement : ∀ item ∈ items, (w item).1.isElementNode = true)
    (htext : ∀ item ∈ items, skeleton (w item).2 = .null) (s : σ) :
    (skeleton (.ofList (items.map w))).each f s =
      items.foldl (fun s item => f (w item).1 .null s) s := by
  rw [skeleton_ofList _ (by simpa using helement),SiblingTree.each_ofList,List.map_map,
    List.foldl_map]
  refine List.foldl_ext _ _ _ fun s item hitem => ?_
  show f (w item).1 (skeleton (w item).2) s = _
  rw [htext item hitem]

theorem skeleton_append (items more : List (XMLNode × XMLItem)) {σ : Type}
    (f : XMLNode → XMLItem → σ → σ) (s : σ) :
    (skeleton (.ofList (items ++ more))).each f s =
      (skeleton (.ofList more)).each f ((skeleton (.ofList items)).each f s) := by
  induction items generalizing s with
  | nil => rfl
  | cons item items ih =>
    obtain ⟨data,child⟩ := item
    cases data with
    | element name attrs => exact ih _
    | text value => exact ih s

def moreDCMES (p : EpubPackage) (items : List EPackageDCMEItem) : EpubPackage :=
  { p with metaDCMES := p.metaDCMES ++ items }

def moreMetas (p : EpubPackage) (items : List EPackageMetaItem) : EpubPackage :=
  { p with metaItems := p.metaItems ++ items }

def moreLinks (p : EpubPackage) (items : List EPackageLinkItem) : EpubPackage :=
  { p with metaLinks := p.metaLinks ++ items }

def moreManifest (p : EpubPackage) (items : List EPackageManifestItem) : EpubPackage :=
  items.foldl (fun p item => addManifestItem item p) p

def moreSpine (p : EpubPackage) (items : List EPackageSpineItem) : EpubPackage :=
  { p with spineItems := p.spineItems ++ items }

def moreGuide (p : EpubPackage) (items : List EPackageGuideItem) : EpubPackage :=
  { p with guideItems := p.guideItems ++ items }

theorem moreManifest_keeps (p : EpubPackage) (items : List EPackageManifestItem) :
    ∃ ids hrefs nav, moreManifest p items =
      { p with
        manifestItems := p.manifestItems ++ items
        manifestItemIDMap := ids
        manifestItemHrefMap := hrefs
        navTocPath := nav } := by
  induction items generalizing p with
  | nil => exact ⟨p.manifestItemIDMap,p.manifestItemHrefMap,p.navTocPath,by simp [moreManifest]⟩
  | cons item items ih =>
    obtain ⟨ids,hrefs,nav,heq⟩ := ih (addManifestItem item p)
    refine ⟨ids,hrefs,nav,?_⟩
    rw [moreManifest,List.foldl_cons]
    rw [moreManifest] at heq
    rw [heq]
    simp [addManifestItem]

theorem readMetadata_written (q s : EpubPackage) (h : ∀ item ∈ q.metaDCMES, IsDCMEName item.name) :
    readMetadata (skeleton (.ofList (q.metaDCMES.map writeDCME ++ q.metaItems.map writeMeta ++
        q.metaLinks.map writeLink))) s =
      ((s.moreDCMES (q.metaDCMES.map keptDCME)).moreMetas (q.metaItems.map keptMeta)).moreLinks
        (q.metaLinks.map keptLink) := by
  rw [readMetadata,skeleton_append,skeleton_append,
    each_written (w := writeDCME) _ (fun _ _ => rfl) (fun item _ => skeleton_textIf item.text),
    each_written (w := writeMeta) _ (fun _ _ => rfl) (fun item _ => skeleton_textIf item.text),
    each_written (w := writeLink) _ (fun _ _ => rfl) (fun _ _ => rfl)]
  rw [foldl_gather (I := fun _ => True) (g := keptDCME) moreDCMES (fun s => by simp [moreDCMES])
      (fun s l m => by simp [moreDCMES]) (fun _ _ h => h)
      (fun item hitem s _ => read_writeDCME (h item hitem)) trivial]
  rw [foldl_gather (I := fun _ => True) (g := keptMeta) moreMetas (fun s => by simp [moreMetas])
      (fun s l m => by simp [moreMetas]) (fun _ _ h => h)
      (fun item _ s _ => read_writeMeta item) trivial]
  rw [foldl_gather (I := fun _ => True) (g := keptLink) moreLinks (fun s => by simp [moreLinks])
      (fun s l m => by simp [moreLinks]) (fun _ _ h => h)
      (fun item _ s _ => read_writeLink item) trivial]

theorem readManifest_written (q s : EpubPackage) (hparent : s.opfParentPath = q.opfParentPath)
    (hid : ∀ item ∈ q.manifestItems, item.id ≠ [])
    (hkept : ∀ item ∈ q.manifestItems, Kept q.opfParentPath item.href) :
    readManifest (.element "manifest".toList [])
        (skeleton (.ofList (q.manifestItems.map (writeManifestItem q.opfParentPath)))) s =
      moreManifest { s with manifestID := [] } (q.manifestItems.map keptManifestItem) := by
  rw [readManifest,each_written _ (fun _ _ => rfl) (fun _ _ => rfl)]
  refine foldl_gather (I := fun s => s.opfParentPath = q.opfParentPath) (g := keptManifestItem)
    moreManifest (fun _ => rfl) (fun s l m => (List.foldl_append ..).symm) (fun s l hs => ?_)
    (fun item hitem s hs => read_writeManifestItem hs (hid item hitem) (hkept item hitem) .null)
    hparent
  obtain ⟨ids,hrefs,nav,heq⟩ := moreManifest_keeps s l
  rw [heq]
  exact hs

theorem readSpine_written (q s : EpubPackage) (attrs : List (Text × Text)) :
    readSpine (.element "spine".toList attrs)
        (skeleton (.ofList (q.spineItems.map writeSpineItem))) s =
      moreSpine
        { s with
          spineID := (XMLNode.element "spine".toList attrs).getAttrString "id".toList
          spineToc := (XMLNode.element "spine".toList attrs).getAttrString "toc".toList
          spinePageProgressionDirection := (XMLNode.element "spine".toList attrs).getAttrString
            "page-progression-direction".toList } (q.spineItems.map keptSpineItem) := by
  rw [readSpine,each_written _ (fun _ _ => rfl) (fun _ _ => rfl)]
  exact foldl_gather (I := fun _ => True) (g := keptSpineItem) moreSpine
    (fun s => by simp [moreSpine]) (fun s l m => by simp [moreSpine]) (fun _ _ h => h)
    (fun item _ s _ => read_writeSpineItem item .null) trivial

theorem readGuide_written (q s : EpubPackage) (hparent : s.opfParentPath = q.opfParentPath)
    (hkept : ∀ item ∈ q.guideItems, LeadsBack q.opfParentPath item.href) :
    readGuide (skeleton (.ofList (q.guideItems.map (writeGuideItem q.opfParentPath)))) s =
      moreGuide s q.guideItems := by
  rw [readGuide,each_written _ (fun _ _ => rfl) (fun _ _ => rfl)]
  have hread : ∀ item ∈ q.guideItems, ∀ s : EpubPackage, s.opfParentPath = q.opfParentPath →
      readGuideItem (writeGuideItem q.opfParentPath item).1 .null s =
        moreGuide s [(fun item => item) item] :=
    fun item hitem s hs => read_writeGuideItem hs (hkept item hitem) .null
  rw [foldl_gather moreGuide (fun s => by simp [moreGuide]) (fun s l m => by simp [moreGuide])
    (fun _ _ h => h) hread hparent,List.map_id']

/-- What is read of the elements of a package that was written. -/
theorem parts_written (q : EpubPackage) (file : Text)
    (hname : ∀ item ∈ q.metaDCMES, IsDCMEName item.name)
    (hid : ∀ item ∈ q.manifestItems, item.id ≠ [])
    (hmanifest : ∀ item ∈ q.manifestItems, Kept q.opfParentPath item.href)
    (hguide : ∀ item ∈ q.guideItems, LeadsBack q.opfParentPath item.href) :
    ∃ ids hrefs nav,
      parts (createOPFXML q).1 (skeleton (createOPFXML q).2) (opened file q.opfParentPath) =
        { opened file q.opfParentPath with
          uniqueIdentifier := q.uniqueIdentifier
          version := q.version
          metaDCMES := q.metaDCMES.map keptDCME
          metaItems := q.metaItems.map keptMeta
          metaLinks := q.metaLinks.map keptLink
          manifestItems := q.manifestItems.map keptManifestItem
          manifestItemIDMap := ids
          manifestItemHrefMap := hrefs
          navTocPath := nav
          spineID := q.spineID
          spineToc := q.spineToc
          spineItems := q.spineItems.map keptSpineItem
          guideItems := q.guideItems } := by
  let start : EpubPackage :=
    { opened file q.opfParentPath with
      uniqueIdentifier := q.uniqueIdentifier
      version := q.version }
  let metadata := ((start.moreDCMES (q.metaDCMES.map keptDCME)).moreMetas
    (q.metaItems.map keptMeta)).moreLinks (q.metaLinks.map keptLink)
  obtain ⟨ids,hrefs,nav,hmore⟩ := moreManifest_keeps { metadata with manifestID := [] }
    (q.manifestItems.map keptManifestItem)
  have hspine := fun key => getAttrString_setAttrs "spine".toList [("toc".toList,q.spineToc)]
    [("id".toList,q.spineID)] (show ["id".toList].Nodup by decide) key
  have hparts : parts (createOPFXML q).1 (skeleton (createOPFXML q).2)
      (opened file q.opfParentPath) =
      readGuide (skeleton (.ofList (q.guideItems.map (writeGuideItem q.opfParentPath))))
        (readSpine (.element "spine".toList
            (setAttrs [("toc".toList,q.spineToc)] [("id".toList,q.spineID)]))
          (skeleton (.ofList (q.spineItems.map writeSpineItem)))
          (readManifest (.element "manifest".toList [])
            (skeleton (.ofList (q.manifestItems.map (writeManifestItem q.opfParentPath))))
            (readMetadata (skeleton (.ofList (q.metaDCMES.map writeDCME ++
              q.metaItems.map writeMeta ++ q.metaLinks.map writeLink))) start))) := rfl
  refine ⟨ids,hrefs,nav,?_⟩
  rw [hparts,readMetadata_written q start hname,readManifest_written q metadata rfl hid hmanifest,
    hmore,readSpine_written,readGuide_written q,hspine,hspine,hspine]
  · rfl
  · rfl
  · exact hguide

end ReadBack

section Textless

/-- Of a step only the text of the metadata depends on what is inside an item. -/
def Blind (f : XMLNode → XMLItem → EpubPackage → EpubPackage) : Prop :=
  ∀ data child child' p, textless (f data child p) = textless (f data child' (textless p))

def SameTextless (p q : EpubPackage) : Prop := textless p = textless q

theorem Blind.same {f : XMLNode → XMLItem → EpubPackage → EpubPackage} (h : Blind f)
    (data : XMLNode) (child child' : XMLItem) {p q : EpubPackage} (hpq : SameTextless p q) :
    SameTextless (f data child p) (f data child' q) := by
  rw [SameTextless,h data child child' p,hpq,← h data child' child' q]

theorem textless_textless (p : EpubPackage) : textless (textless p) = textless p := by
  simp only [textless,List.map_map]
  rfl

theorem blind_readMetadataItem : Blind readMetadataItem := by
  intro data child child' p
  unfold readMetadataItem
  dsimp only
  split
  case isTrue =>
    simp only [textless,List.map_append,List.map_map]
    rfl
  case isFalse =>
    split
    case isTrue =>
      simp only [textless,List.map_append,List.map_map]
      rfl
    case isFalse =>
      split
      case isTrue =>
        simp only [textless,List.map_map]
        rfl
      case isFalse => exact (textless_textless p).symm

theorem blind_readManifestItem : Blind readManifestItem := by
  intro data child child' p
  unfold readManifestItem
  dsimp only
  split
  case isTrue => exact (textless_textless p).symm
  case isFalse =>
    split
    case isTrue => exact (textless_textless p).symm
    case isFalse =>
      simp only [textless,addManifestItem,List.map_map]
      rfl

theorem blind_readSpineItem : Blind readSpineItem := by
  intro data child child' p
  unfold readSpineItem
  split
  case isTrue => exact (textless_textless p).symm
  case isFalse =>
    split
    case isTrue => exact (textless_textless p).symm
    case isFalse =>
      simp only [textless,addSpineItem,List.map_map]
      rfl

theorem blind_readGuideItem : Blind readGuideItem := by
  intro data child child' p
  unfold readGuideItem
  split
  case isTrue => exact (textless_textless p).symm
  case isFalse =>
    simp only [textless,addGuideItem,List.map_map]
    rfl

/-- A blind step that passes over texts reads from the skeleton what it reads from the tree. -/
theorem Blind.each {f : XMLNode → XMLItem → EpubPackage → EpubPackage} (h : Blind f)
    (htext : ∀ value child p, f (.text value) child p = p) (item : XMLItem) {p q : EpubPackage}
    (hpq : SameTextless p q) : SameTextless (item.each f p) ((skeleton item).each f q) := by
  refine each_skeleton (fun value child s t hst => ?_)
    (fun name attrs child s t hst => h.same _ _ _ hst) item hpq
  rw [htext]
  exact hst

theorem same_readPart (name : Text) (attrs : List (Text × Text)) (child : XMLItem)
    {p q : EpubPackage} (h : SameTextless p q) :
    SameTextless (readPart (.element name attrs) child p)
      (readPart (.element name attrs) (skeleton child) q) := by
  unfold readPart
  dsimp only
  split
  case isTrue => exact blind_readMetadataItem.each (fun _ _ _ => rfl) child h
  case isFalse =>
    split
    case isTrue =>
      refine blind_readManifestItem.each (fun _ _ _ => rfl) child ?_
      exact congrArg (fun r => { r with
        manifestID := (XMLNode.element name attrs).getAttrString "id".toList }) h
    case isFalse =>
      split
      case isTrue =>
        refine blind_readSpineItem.each (fun _ _ _ => rfl) child ?_
        exact congrArg (fun r => { r with
          spineID := (XMLNode.element name attrs).getAttrString "id".toList
          spineToc := (XMLNode.element name attrs).getAttrString "toc".toList
          spinePageProgressionDirection := (XMLNode.element name attrs).getAttrString
            "page-progression-direction".toList }) h
      case isFalse =>
        split
        case isTrue => exact blind_readGuideItem.each (fun _ _ _ => rfl) child h
        case isFalse => exact h

theorem same_parts (data : XMLNode) (child : XMLItem) (p : EpubPackage) :
    SameTextless (parts data child p) (parts data (skeleton child) p) :=
  each_skeleton (fun _ _ _ _ h => h)
    (fun name attrs child _ _ h => same_readPart name attrs child h) child rfl

theorem textless_findNCX (p : EpubPackage) : (findNCX p).textless = findNCX p.textless := by
  unfold findNCX
  dsimp only [textless]
  split
  · rfl
  · split
    case isTrue => rfl
    case isFalse => rfl

end Textless

section Kept

theorem find_kept (items : List EPackageManifestItem) (key : EPackageManifestItem → Text)
    (hkey : ∀ item, key (keptManifestItem item) = key item) (k : Text) :
    ((items.map keptManifestItem).find? fun item => key item = k) =
      (items.find? fun item => key item = k).map keptManifestItem := by
  rw [List.find?_map]
  congr 1
  congr 1
  funext item
  simp [hkey]

theorem navPath_kept (items : List EPackageManifestItem) :
    navPath (items.map keptManifestItem) = navPath items := by
  rw [navPath,List.foldl_map]
  rfl

theorem textless_kept (p : EpubPackage) : textless (kept p) = kept p := by
  simp only [textless,kept,List.map_map]
  rfl

theorem spineIndexLoop_kept (idMap : Text → Option EPackageManifestItem)
    (items : List EPackageSpineItem) (i : Nat) (index : Text → Option Nat) :
    spineIndexLoop (fun id => (idMap id).map keptManifestItem) (items.map keptSpineItem) i index =
      spineIndexLoop idMap items i index := by
  induction items generalizing i index with
  | nil => rfl
  | cons item items ih =>
    have henter : enterSection (fun id => (idMap id).map keptManifestItem) (keptSpineItem item) i
        index = enterSection idMap item i index := by
      unfold enterSection
      dsimp only [keptSpineItem]
      rcases idMap item.idRef with _ | manifestItem
      · rfl
      · rfl
    rw [List.map_cons,spineIndexLoop,henter,ih]
    rfl

theorem kept_finish (p : EpubPackage) :
    kept (findNCX (buildSpineIndexMap p)) = findNCX (buildSpineIndexMap (kept p)) := by
  have hindex : buildSpineIndexMap (kept p) = kept (buildSpineIndexMap p) := by
    rw [buildSpineIndexMap]
    dsimp only [kept]
    rw [spineIndexLoop_kept]
    rfl
  rw [hindex]
  unfold findNCX
  have hlookup :
      (buildSpineIndexMap p).kept.manifestItemIDMap (buildSpineIndexMap p).kept.spineToc =
      ((buildSpineIndexMap p).manifestItemIDMap (buildSpineIndexMap p).spineToc).map
        keptManifestItem := rfl
  rw [hlookup]
  rcases (buildSpineIndexMap p).manifestItemIDMap (buildSpineIndexMap p).spineToc with _ | item
  · rfl
  · dsimp only [Option.map_some]
    rw [show (keptManifestItem item).mediaType = item.mediaType from rfl]
    split
    case isTrue => rfl
    case isFalse => rfl

theorem createOPFXML_finish (p : EpubPackage) :
    createOPFXML (findNCX (buildSpineIndexMap p)) = createOPFXML p := by
  unfold findNCX
  split
  · rfl
  · split
    case isTrue => rfl
    case isFalse => rfl

end Kept

/-- A file with named components that can be addressed from the directory of the OPF file. -/
def Placed (parent href : Text) : Prop :=
  ∃ dirs path : List Text, parent = dirPath dirs ∧ href = joinPath path ∧ path ≠ [] ∧
    (∀ dir ∈ dirs, Name dir) ∧ (∀ part ∈ path, Plain part) ∧ Addressable dirs path

theorem Placed.kept {parent href : Text} (h : Placed parent href) : Kept parent href := by
  obtain ⟨dirs,path,rfl,rfl,hne,hdirs,hpath,haddress⟩ := h
  exact ⟨joinPath_ne_nil (fun part hpart => (hpath part hpart).ne_nil) hne,
    haddress.getAbsolutePath hdirs hpath⟩

/-- Packages with the same lists and identifiers, filled from files at the same place, are the
same. -/
theorem Filled.kept_eq {file parent : Text} {p q : EpubPackage} (hp : Filled file parent p)
    (hq : Filled file parent q) {ids hrefs : Text → Option EPackageManifestItem} {nav : Text}
    (h : q = { opened file parent with
      uniqueIdentifier := p.uniqueIdentifier
      version := p.version
      metaDCMES := p.metaDCMES.map keptDCME
      metaItems := p.metaItems.map keptMeta
      metaLinks := p.metaLinks.map keptLink
      manifestItems := p.manifestItems.map keptManifestItem
      manifestItemIDMap := ids
      manifestItemHrefMap := hrefs
      navTocPath := nav
      spineID := p.spineID
      spineToc := p.spineToc
      spineItems := p.spineItems.map keptSpineItem
      guideItems := p.guideItems }) : q = kept p := by
  have hmanifest : q.manifestItems = p.manifestItems.map keptManifestItem := by rw [h]
  have hids : ids = fun id => (p.manifestItemIDMap id).map keptManifestItem := by
    have hmap := hq.idMap
    rw [hmanifest] at hmap
    rw [hp.idMap,show ids = q.manifestItemIDMap by rw [h],hmap]
    funext id
    exact find_kept p.manifestItems EPackageManifestItem.id (fun _ => rfl) id
  have hhrefs : hrefs = fun href => (p.manifestItemHrefMap href).map keptManifestItem := by
    have hmap := hq.hrefMap
    rw [hmanifest] at hmap
    rw [hp.hrefMap,show hrefs = q.manifestItemHrefMap by rw [h],hmap]
    funext href
    exact find_kept p.manifestItems EPackageManifestItem.href (fun _ => rfl) href
  have hnav : nav = p.navTocPath := by
    rw [hp.navTocPath,← navPath_kept,← hmanifest,← hq.navTocPath,h]
  rw [h,hids,hhrefs,hnav,kept,hp.opfFilePath,hp.opfParentPath,hp.spineIndexMap,hp.ncxPath]
  rfl

/-- A package that was read is written and read again, with whatever texts the library puts
between the elements. It is the same package but for the attributes that are not written, if
the paths lead back to where they led. -/
theorem readPackage_createOPFXML (data : XMLNode) (child : XMLItem) (file parent : Text)
    (hmanifest : ∀ item ∈ (readPackage data child (opened file parent)).manifestItems,
      Kept parent item.href)
    (hguide : ∀ item ∈ (readPackage data child (opened file parent)).guideItems,
      LeadsBack parent item.href) (child' : XMLItem)
    (hchild : skeleton child' =
      skeleton (createOPFXML (readPackage data child (opened file parent))).2) :
    (readPackage (createOPFXML (readPackage data child (opened file parent))).1 child'
      (opened file parent)).textless = (readPackage data child (opened file parent)).kept := by
  let p := parts data child (opened file parent)
  have hp : Filled file parent p := filled_parts data child file parent
  rw [readPackage_parts data,createOPFXML_finish] at hchild ⊢
  rw [readPackage_parts data,findNCX_manifestItems] at hmanifest
  rw [readPackage_parts data,findNCX_guideItems] at hguide
  obtain ⟨ids,hrefs,nav,hparts⟩ := parts_written p file hp.named hp.identified
    (fun item hitem => hp.opfParentPath ▸ hmanifest item hitem)
    (fun item hitem => hp.opfParentPath ▸ hguide item hitem)
  rw [hp.opfParentPath] at hparts
  have hback := hp.kept_eq (filled_parts _ _ file parent) hparts
  have hsame := same_parts (createOPFXML p).1 child' (opened file parent)
  rw [hchild,SameTextless,hback] at hsame
  rw [readPackage_parts,textless_findNCX,kept_finish]
  show findNCX (buildSpineIndexMap (parts _ child' (opened file parent)).textless) = _
  rw [hsame,textless_kept]

def oneSection : XMLItem :=
  .ofList [
    (.element "manifest".toList [],.ofList [(.element "item".toList
      [("id".toList,"c".toList),("href".toList,"t/c".toList),("fallback".toList,"d".toList)],
      .null)]),
    (.element "spine".toList [],
      .ofList [(.element "itemref".toList [("idref".toList,"c".toList)],.null)])]

theorem placed_oneSection : Placed "o/".toList "o/t/c".toList :=
  ⟨["o".toList],["o".toList,"t".toList,"c".toList],rfl,rfl,by decide,
    by simpa using ⟨by decide,by decide⟩,
    by simpa using ⟨⟨⟨by decide,by decide⟩,by decide,by decide⟩,
      ⟨⟨by decide,by decide⟩,by decide,by decide⟩,⟨⟨by decide,by decide⟩,by decide,by decide⟩⟩,
    ⟨["o".toList],[],"t".toList,["c".toList],rfl,rfl,by decide⟩⟩

theorem readPackage_oneSection :
    (readPackage (createOPFXML (readPackage (.element "package".toList []) oneSection
        (opened "o/p".toList "o/".toList))).1
      (createOPFXML (readPackage (.element "package".toList []) oneSection
        (opened "o/p".toList "o/".toList))).2
      (opened "o/p".toList "o/".toList)).textless =
    (readPackage (.element "package".toList []) oneSection
      (opened "o/p".toList "o/".toList)).kept := by
  have hitems : (readPackage (.element "package".toList []) oneSection
      (opened "o/p".toList "o/".toList)).manifestItems.map EPackageManifestItem.href =
      ["o/t/c".toList] := by decide
  have hguides : (readPackage (.element "package".toList []) oneSection
      (opened "o/p".toList "o/".toList)).guideItems = [] := by decide
  refine readPackage_createOPFXML _ oneSection "o/p".toList "o/".toList (fun item hitem => ?_)
    (fun item hitem => ?_) _ rfl
  · have hhref := List.mem_map_of_mem (f := EPackageManifestItem.href) hitem
    rw [hitems] at hhref
    exact List.mem_singleton.mp hhref ▸ placed_oneSection.kept
  · rw [hguides] at hitem
    exact absurd hitem List.not_mem_nil

end EpubPackage

end MprMq.Epub
