import Mathlib.Order.Bounds.Basic
import MprMq.Epub.Package
set_option autoImplicit false

/-! What a package is when its OPF file has been read, and which section an item is. -/

namespace MprMq.Epub
open MprMq.Base MprMq.Lib

/-- The path of the navigation document, as the items of the manifest set it one by one. -/
def navPath (items : List EPackageManifestItem) : Text :=
  items.foldl (fun nav item =>
    if item.mediaType = packageMediaTypeXHTML ∧ item.properties = packageNavProperty then
      item.href
    else nav) []

def IsDCMEName (name : Text) : Prop := 3 < name.length ∧ name.take 3 = "dc:".toList

namespace EpubPackage

/-- What every step of the reading keeps. -/
structure Filled (file parent : Text) (p : EpubPackage) : Prop where
  opfFilePath : p.opfFilePath = file
  opfParentPath : p.opfParentPath = parent
  idMap : p.manifestItemIDMap = fun id => p.manifestItems.find? fun item => item.id = id
  hrefMap : p.manifestItemHrefMap = fun href => p.manifestItems.find? fun item => item.href = href
  navTocPath : p.navTocPath = navPath p.manifestItems
  named : ∀ item ∈ p.metaDCMES, IsDCMEName item.name
  identified : ∀ item ∈ p.manifestItems, item.id ≠ []
  spineIndexMap : p.spineIndexMap = fun _ => none
  ncxPath : p.ncxPath = []

variable {file parent : Text} {p : EpubPackage}

def opened (opfFilePath opfParentPath : Text) : EpubPackage :=
  { fresh with opfFilePath := opfFilePath, opfParentPath := opfParentPath }

theorem filled_opened (file parent : Text) : Filled file parent (opened file parent) :=
  ⟨rfl,rfl,rfl,rfl,rfl,fun _ h => absurd h List.not_mem_nil,
    fun _ h => absurd h List.not_mem_nil,rfl,rfl⟩

theorem Filled.readMetadataItem (h : Filled file parent p) (data : XMLNode) (child : XMLItem) :
    Filled file parent (readMetadataItem data child p) := by
  unfold EpubPackage.readMetadataItem
  dsimp only
  split
  case isTrue hname =>
    refine ⟨h.opfFilePath,h.opfParentPath,h.idMap,h.hrefMap,h.navTocPath,fun item hitem => ?_,
      h.identified,h.spineIndexMap,h.ncxPath⟩
    rcases List.mem_append.mp hitem with hold | hnew
    · exact h.named item hold
    · exact List.mem_singleton.mp hnew ▸ hname
  case isFalse =>
    split
    case isTrue => exact ⟨h.1,h.2,h.3,h.4,h.5,h.6,h.7,h.8,h.9⟩
    case isFalse =>
      split
      case isTrue => exact ⟨h.1,h.2,h.3,h.4,h.5,h.6,h.7,h.8,h.9⟩
      case isFalse => exact h

/-- Behind the items there are, an entry makes the map of the first ones again. -/
theorem addNew_find (items : List EPackageManifestItem) (key : EPackageManifestItem → Text)
    (item : EPackageManifestItem) :
    addNew (fun k => items.find? fun item => key item = k) (key item) item =
      fun k => (items ++ [item]).find? fun item => key item = k := by
  funext k
  rw [addNew_apply,List.find?_append,List.find?_singleton]
  simp

theorem Filled.addManifestItem (h : Filled file parent p) {item : EPackageManifestItem}
    (hid : item.id ≠ []) : Filled file parent (addManifestItem item p) where
  opfFilePath := h.opfFilePath
  opfParentPath := h.opfParentPath
  idMap := by
    rw [EpubPackage.addManifestItem,h.idMap]
    exact addNew_find p.manifestItems EPackageManifestItem.id item
  hrefMap := by
    rw [EpubPackage.addManifestItem,h.hrefMap]
    exact addNew_find p.manifestItems EPackageManifestItem.href item
  navTocPath := by simp [EpubPackage.addManifestItem,navPath,h.navTocPath]
  named := h.named
  identified := by
    intro other hother
    rcases List.mem_append.mp hother with hold | hnew
    · exact h.identified other hold
    · exact List.mem_singleton.mp hnew ▸ hid
  spineIndexMap := h.spineIndexMap
  ncxPath := h.ncxPath

theorem Filled.readManifestItem (h : Filled file parent p) (data : XMLNode) (child : XMLItem) :
    Filled file parent (readManifestItem data child p) := by
  unfold EpubPackage.readManifestItem
  split
  case isTrue => exact h
  case isFalse =>
    dsimp only
    split
    case isTrue => exact h
    case isFalse hne => exact h.addManifestItem (not_or.mp hne).1

theorem Filled.readSpineItem (h : Filled file parent p) (data : XMLNode) (child : XMLItem) :
    Filled file parent (readSpineItem data child p) := by
  unfold EpubPackage.readSpineItem
  split
  case isTrue => exact h
  case isFalse =>
    split
    case isTrue => exact h
    case isFalse => exact ⟨h.1,h.2,h.3,h.4,h.5,h.6,h.7,h.8,h.9⟩

theorem Filled.readGuideItem (h : Filled file parent p) (data : XMLNode) (child : XMLItem) :
    Filled file parent (readGuideItem data child p) := by
  unfold EpubPackage.readGuideItem
  split
  case isTrue => exact h
  case isFalse => exact ⟨h.1,h.2,h.3,h.4,h.5,h.6,h.7,h.8,h.9⟩

theorem Filled.readPart (h : Filled file parent p) (data : XMLNode) (child : XMLItem) :
    Filled file parent (readPart data child p) := by
  unfold EpubPackage.readPart
  dsimp only
  split
  case isTrue =>
    exact SiblingTree.each_keeps (fun data child _ hs => hs.readMetadataItem data child) child h
  case isFalse =>
    split
    case isTrue =>
      exact SiblingTree.each_keeps (fun data child _ hs => hs.readManifestItem data child) child
        ⟨h.1,h.2,h.3,h.4,h.5,h.6,h.7,h.8,h.9⟩
    case isFalse =>
      split
      case isTrue =>
        exact SiblingTree.each_keeps (fun data child _ hs => hs.readSpineItem data child) child
          ⟨h.1,h.2,h.3,h.4,h.5,h.6,h.7,h.8,h.9⟩
      case isFalse =>
        split
        case isTrue =>
          exact SiblingTree.each_keeps (fun data child _ hs => hs.readGuideItem data child) child h
        case isFalse => exact h

/-- What the reading leaves before the sections are counted. -/
def parts (data : XMLNode) (child : XMLItem) (p : EpubPackage) : EpubPackage :=
  child.each readPart
    { p with
      uniqueIdentifier := data.getAttrString "unique-identifier".toList
      version := data.getAttrString "version".toList }

theorem readPackage_parts (data : XMLNode) (child : XMLItem) (p : EpubPackage) :
    readPackage data child p = findNCX (buildSpineIndexMap (parts data child p)) := rfl

theorem filled_parts (data : XMLNode) (child : XMLItem) (file parent : Text) :
    Filled file parent (parts data child (opened file parent)) := by
  have h := filled_opened file parent
  exact SiblingTree.each_keeps (fun data child _ hs => hs.readPart data child) child
    ⟨h.1,h.2,h.3,h.4,h.5,h.6,h.7,h.8,h.9⟩

end EpubPackage

section SectionIndex
variable (idMap : Text → Option EPackageManifestItem) (href : Text)

def IsSection (items : List EPackageSpineItem) (i : Nat) : Prop :=
  ∃ item entry, items[i]? = some item ∧ idMap item.idRef = some entry ∧ entry.href = href

theorem isSection_succ {item : EPackageSpineItem} {items : List EPackageSpineItem} {i : Nat} :
    IsSection idMap href (item :: items) (i+1) ↔ IsSection idMap href items i := by
  simp [IsSection]

theorem isSection_zero {item : EPackageSpineItem} {items : List EPackageSpineItem} :
    IsSection idMap href (item :: items) 0 ↔
      ∃ entry, idMap item.idRef = some entry ∧ entry.href = href := by
  simp [IsSection]

/-- What the map has for a file is the last of the sections that are that file. -/
theorem spineIndexLoop_spec (items : List EPackageSpineItem) (i : Nat)
    (index : Text → Option Nat) :
    (∃ j, IsGreatest {j | IsSection idMap href items j} j ∧
      EpubPackage.spineIndexLoop idMap items i index href = some (i+j)) ∨
    (∀ j, ¬ IsSection idMap href items j) ∧
      EpubPackage.spineIndexLoop idMap items i index href = index href := by
  induction items generalizing i index with
  | nil => exact .inr ⟨fun j h => by simp [IsSection] at h,rfl⟩
  | cons item items ih =>
    rw [EpubPackage.spineIndexLoop]
    obtain ⟨j,⟨hj,hlast⟩,hloop⟩ | ⟨hnone,hloop⟩ :=
      ih (i+1) (EpubPackage.enterSection idMap item i index)
    · refine .inl ⟨j+1,⟨(isSection_succ idMap href).mpr hj,?_⟩,by rw [hloop]; congr 1; omega⟩
      rintro (_ | k) hk
      · exact Nat.zero_le _
      · exact Nat.succ_le_succ (hlast ((isSection_succ idMap href).mp hk))
    · rw [hloop]
      have hlater : ∀ k, ¬ IsSection idMap href (item :: items) (k+1) :=
        fun k hk => hnone k ((isSection_succ idMap href).mp hk)
      by_cases hhere : IsSection idMap href (item :: items) 0
      · obtain ⟨entry,hentry,rfl⟩ := (isSection_zero idMap href).mp hhere
        refine .inl ⟨0,⟨hhere,?_⟩,by simp [EpubPackage.enterSection,hentry]⟩
        rintro (_ | k) hk
        · exact Nat.le_refl 0
        · exact absurd hk (hlater k)
      · refine .inr ⟨?_,?_⟩
        · rintro (_ | k) hk
          · exact hhere hk
          · exact hlater k hk
        · unfold EpubPackage.enterSection
          rcases hentry : idMap item.idRef with _ | entry
          · rfl
          · have hne : href ≠ entry.href := fun heq =>
              hhere ((isSection_zero idMap href).mpr ⟨entry,hentry,heq.symm⟩)
            exact Function.update_of_ne hne _ _

end SectionIndex

namespace EpubPackage

/-- `findNCX` sets one path. -/
theorem findNCX_cases (p : EpubPackage) : ∃ path, findNCX p = { p with ncxPath := path } := by
  unfold findNCX
  split
  · exact ⟨p.ncxPath,rfl⟩
  · split
    case isTrue => exact ⟨_,rfl⟩
    case isFalse => exact ⟨p.ncxPath,rfl⟩

@[simp] theorem findNCX_spineIndexMap (p : EpubPackage) :
    (findNCX p).spineIndexMap = p.spineIndexMap := by
  obtain ⟨path,h⟩ := findNCX_cases p
  rw [h]

@[simp] theorem findNCX_spineItems (p : EpubPackage) : (findNCX p).spineItems = p.spineItems := by
  obtain ⟨path,h⟩ := findNCX_cases p
  rw [h]

@[simp] theorem findNCX_manifestItems (p : EpubPackage) :
    (findNCX p).manifestItems = p.manifestItems := by
  obtain ⟨path,h⟩ := findNCX_cases p
  rw [h]

@[simp] theorem findNCX_guideItems (p : EpubPackage) : (findNCX p).guideItems = p.guideItems := by
  obtain ⟨path,h⟩ := findNCX_cases p
  rw [h]

def sections (p : EpubPackage) (href : Text) : Set Nat :=
  {i | IsSection (fun id => p.manifestItems.find? fun item => item.id = id) href p.spineItems i}

theorem readPackage_spineIndexMap (data : XMLNode) (child : XMLItem) (file parent : Text) :
    (readPackage data child (opened file parent)).spineIndexMap =
      spineIndexLoop (parts data child (opened file parent)).manifestItemIDMap
        (parts data child (opened file parent)).spineItems 0 fun _ => none := by
  rw [readPackage_parts,findNCX_spineIndexMap,buildSpineIndexMap,
    (filled_parts data child file parent).spineIndexMap]

/-- The section index by the map of the identifiers. -/
theorem getSectionIndex_cases (data : XMLNode) (child : XMLItem) (file parent href : Text) :
    let p := parts data child (opened file parent)
    let sections := {i | IsSection p.manifestItemIDMap href p.spineItems i}
    let index := (readPackage data child (opened file parent)).getSectionIndex href
    (∃ i : Nat, IsGreatest sections i ∧ index = i) ∨ sections = ∅ ∧ index = -1 := by
  intro p sections index
  have hindex : index = (spineIndexLoop p.manifestItemIDMap p.spineItems 0
      (fun _ => none) href).elim (-1) (fun i => (i : Int)) := by
    rw [← readPackage_spineIndexMap data child file parent]
    show getSectionIndex _ href = _
    unfold getSectionIndex
    cases (readPackage data child (opened file parent)).spineIndexMap href with
    | some i => rfl
    | none => rfl
  obtain ⟨j,hj,hvalue⟩ | ⟨hnone,hvalue⟩ :=
    spineIndexLoop_spec p.manifestItemIDMap href p.spineItems 0 fun _ => none
  · refine .inl ⟨j,hj,?_⟩
    rw [hindex,hvalue,Nat.zero_add]
    rfl
  · refine .inr ⟨Set.eq_empty_of_forall_notMem hnone,?_⟩
    rw [hindex,hvalue]
    rfl

theorem readPackage_sections (data : XMLNode) (child : XMLItem) (file parent href : Text) :
    let p := parts data child (opened file parent)
    (readPackage data child (opened file parent)).sections href =
      {i | IsSection p.manifestItemIDMap href p.spineItems i} := by
  intro p
  rw [sections,readPackage_parts,findNCX_spineItems,findNCX_manifestItems,
    (filled_parts data child file parent).idMap]
  rfl

/-- The section index of a file is the last of its sections, and -1 if it has none. -/
theorem getSectionIndex_last (data : XMLNode) (child : XMLItem) (file parent href : Text) :
    let p := readPackage data child (opened file parent)
    (∃ i : Nat, IsGreatest (p.sections href) i ∧ p.getSectionIndex href = i) ∨
      p.sections href = ∅ ∧ p.getSectionIndex href = -1 := by
  intro p
  rw [show p.sections href = _ from readPackage_sections data child file parent href]
  exact getSectionIndex_cases data child file parent href

/-- What is kept of the filling when the reading is over. -/
structure Indexed (parent : Text) (p : EpubPackage) : Prop where
  opfParentPath : p.opfParentPath = parent
  idMap : p.manifestItemIDMap = fun id => p.manifestItems.find? fun item => item.id = id
  hrefMap : p.manifestItemHrefMap = fun href => p.manifestItems.find? fun item => item.href = href
  identified : ∀ item ∈ p.manifestItems, item.id ≠ []

theorem indexed_readPackage (data : XMLNode) (child : XMLItem) (file parent : Text) :
    Indexed parent (readPackage data child (opened file parent)) := by
  have hfilled := filled_parts data child file parent
  obtain ⟨path,heq⟩ := findNCX_cases (buildSpineIndexMap (parts data child (opened file parent)))
  rw [readPackage_parts,heq]
  exact ⟨hfilled.opfParentPath,hfilled.idMap,hfilled.hrefMap,hfilled.identified⟩

end EpubPackage

end MprMq.Epub
