import Mathlib.Data.List.Find
import MprMq.Epub.PackageWriter
set_option autoImplicit false

/-! The catalog that `EpubInfo` reads from the navigation document, and what it is of the nested
lists of the document. -/

namespace MprMq.Epub
open MprMq.Base MprMq.Lib

structure CatalogItem where
  title : Text
  href : Text
  level : Int
  sectionIndex : Int
  deriving DecidableEq, Repr

def newCatalogItem (level : Int) : CatalogItem := ⟨[],[],level,0⟩

def withoutAnchor (href : Text) : Text :=
  match href.findIdx? fun c => c = '#' with
  | some anchorIndex => href.take anchorIndex
  | none => href

def orderIndex (p : EpubPackage) (href : Text) : Int :=
  if p.getSectionIndex (withoutAnchor href) < 0 then 0 else p.getSectionIndex (withoutAnchor href)

/-- What one child of an `li` puts into the item. -/
def label (p : EpubPackage) (data : XMLNode) (child : XMLItem) (item : CatalogItem) :
    CatalogItem :=
  let eleName := data.getElement
  if eleName = "span".toList then { item with title := data.getValue child }
  else if eleName = "a".toList then
    let href := getAbsolutePath (data.getAttrString "href".toList) (getParentPath p.navTocPath)
    { item with
      title := data.getValue child
      href := href
      sectionIndex := orderIndex p href }
  else item

/-- An item without a link takes that of the first item below it which has one. -/
def takeFirstLink (nodeIndex : Nat) (catalogs : List CatalogItem) : List CatalogItem :=
  catalogs.modify nodeIndex fun navItem =>
    if navItem.href = [] then
      match (catalogs.drop (nodeIndex+1)).find? fun curItem =>
        curItem.href ≠ [] ∧ navItem.level < curItem.level with
      | some curItem => { navItem with
          href := curItem.href
          sectionIndex := curItem.sectionIndex }
      | none => navItem
    else navItem

mutual

def loadNavGroup (p : EpubPackage) (level : Int) : XMLItem → List CatalogItem → List CatalogItem
  | .null,catalogs => catalogs
  | .node data child next,catalogs =>
    loadNavGroup p level next
      (if data.getElement = "li".toList then
        takeFirstLink catalogs.length
          (navNodeLoop p level catalogs.length child (catalogs ++ [newCatalogItem level]))
      else catalogs)

def navNodeLoop (p : EpubPackage) (level : Int) (nodeIndex : Nat) :
    XMLItem → List CatalogItem → List CatalogItem
  | .null,catalogs => catalogs
  | .node data child next,catalogs =>
    navNodeLoop p level nodeIndex next
      (if data.getElement = "ol".toList then loadNavGroup p (level+1) child catalogs
      else catalogs.modify nodeIndex (label p data child))

end

def isToc : XMLItem → Bool
  | .null => false
  | .node data _ _ =>
    data.getElement = "nav".toList ∧ data.getAttrString "epub:type".toList = "toc".toList

/-- `ParseNav`, from what `FindItem("html/body")` gives; `none` is a walk that does not end. -/
def parseNav (p : EpubPackage) (fuel : Nat) (item : XMLItem) : Option (List CatalogItem) :=
  match item.walk isToc fuel with
  | none => none
  | some (some (.node _ child _)) =>
    some (child.each (fun data child catalogs =>
      if data.getElement = "ol".toList then loadNavGroup p 0 child catalogs else catalogs) [])
  | some _ => some []

section Outline

def labelChild (p : EpubPackage) (data : XMLNode) (child : XMLItem) (item : CatalogItem) :
    CatalogItem :=
  if data.getElement = "ol".toList then item else label p data child item

def ownItem (p : EpubPackage) (level : Int) (child : XMLItem) : CatalogItem :=
  child.each (labelChild p) (newCatalogItem level)

mutual

/-- The items of a list in the order of the document, each before those of its own lists. -/
def groupItems (p : EpubPackage) (level : Int) : XMLItem → List CatalogItem
  | .null => []
  | .node data child next =>
    (if data.getElement = "li".toList then ownItem p level child :: innerItems p level child
    else []) ++ groupItems p level next

def innerItems (p : EpubPackage) (level : Int) : XMLItem → List CatalogItem
  | .null => []
  | .node data child next =>
    (if data.getElement = "ol".toList then groupItems p (level+1) child else []) ++
      innerItems p level next

end

/-- An item with the link of the first one of those below it that has a link, if it has none. -/
def linked (item : CatalogItem) (below : List CatalogItem) : CatalogItem :=
  if item.href = [] then
    match below.find? fun other => other.href ≠ [] with
    | some other => { item with href := other.href, sectionIndex := other.sectionIndex }
    | none => item
  else item

/-- Every item linked; below an item are those that follow with greater levels. -/
def linkAll : List CatalogItem → List CatalogItem
  | [] => []
  | item :: rest =>
    linked item (rest.takeWhile fun other => item.level < other.level) :: linkAll rest

end Outline

section Linking
variable {item : CatalogItem}

@[simp] theorem linked_level (item : CatalogItem) (below : List CatalogItem) :
    (linked item below).level = item.level := by
  unfold linked
  split
  case isTrue =>
    split
    · rfl
    · rfl
  case isFalse => rfl

theorem map_level_linkAll (items : List CatalogItem) :
    (linkAll items).map CatalogItem.level = items.map CatalogItem.level := by
  induction items with
  | nil => rfl
  | cons item items ih => simp [linkAll,ih]

/-- A list whose items are no deeper than what stands in front of it is linked by itself. -/
theorem linkAll_append {items more : List CatalogItem}
    (h : ∀ item ∈ items, ∀ other ∈ more.head?, other.level ≤ item.level) :
    linkAll (items ++ more) = linkAll items ++ linkAll more := by
  induction items with
  | nil => rfl
  | cons item items ih =>
    have hmore : (more.takeWhile fun other => item.level < other.level) = [] := by
      rcases more with _ | ⟨first,more⟩
      · rfl
      · have hle := h item List.mem_cons_self first rfl
        rw [List.takeWhile_cons_of_neg (by simpa using hle)]
    rw [List.cons_append,linkAll,ih fun other hother => h other (List.mem_cons_of_mem item hother),
      linkAll,List.cons_append]
    congr 2
    rw [List.takeWhile_append]
    split
    case isTrue hall =>
      rw [hmore,List.append_nil]
      exact ((List.takeWhile_prefix _).eq_of_length hall).symm
    case isFalse => rfl

def link (item : CatalogItem) : Text × Int := (item.href,item.sectionIndex)

theorem linked_eq (item : CatalogItem) (below : List CatalogItem) : linked item below =
    if item.href = [] then
      match (below.find? fun other => other.href ≠ []).map link with
      | some (href,sectionIndex) => { item with href := href, sectionIndex := sectionIndex }
      | none => item
    else item := by
  unfold linked
  cases below.find? fun other => other.href ≠ [] with
  | none => rfl
  | some other => rfl

/-- The first link is the same before and after the items are linked. -/
theorem find_linkAll (items : List CatalogItem) :
    ((linkAll items).find? fun other => other.href ≠ []).map link =
      (items.find? fun other => other.href ≠ []).map link := by
  induction items with
  | nil => rfl
  | cons item items ih =>
    rw [linkAll]
    by_cases hhref : item.href = []
    · have hsplit := List.takeWhile_append_dropWhile (l := items)
        (p := fun other => decide (item.level < other.level))
      rw [List.find?_cons_of_neg (l := items) (by simpa using hhref)]
      rcases hfound : (items.takeWhile fun other => item.level < other.level).find?
          fun other => other.href ≠ [] with _ | other
      · have hitem : linked item (items.takeWhile fun other => item.level < other.level) =
            item := by rw [linked,if_pos hhref,hfound]
        rw [hitem,List.find?_cons_of_neg (by simpa using hhref),ih]
      · have hother : other.href ≠ [] := by simpa using List.find?_some hfound
        have hitem : linked item (items.takeWhile fun other => item.level < other.level) =
            { item with href := other.href, sectionIndex := other.sectionIndex } := by
          rw [linked,if_pos hhref,hfound]
        rw [hitem,List.find?_cons_of_pos (by simpa using hother),← hsplit,List.find?_append,hfound]
        rfl
    · have hitem : linked item (items.takeWhile fun other => item.level < other.level) = item := by
        rw [linked,if_neg hhref]
      rw [hitem,List.find?_cons_of_pos (by simpa using hhref),
        List.find?_cons_of_pos (by simpa using hhref)]

theorem linked_linkAll (item : CatalogItem) (below : List CatalogItem) :
    linked item (linkAll below) = linked item below := by
  rw [linked_eq,linked_eq,find_linkAll]

theorem linkAll_cons {below : List CatalogItem} (h : ∀ other ∈ below, item.level < other.level) :
    linkAll (item :: below) = linked item below :: linkAll below := by
  rw [linkAll,List.takeWhile_eq_self_iff.mpr (by simpa using h)]

theorem modify_middle {α : Type} (front : List α) (x : α) (back : List α) (f : α → α) :
    (front ++ x :: back).modify front.length f = front ++ f x :: back := by
  induction front with
  | nil => rfl
  | cons y front ih => simpa using ih

theorem find_deeper {below : List CatalogItem} (h : ∀ other ∈ below, item.level < other.level) :
    (below.find? fun curItem => curItem.href ≠ [] ∧ item.level < curItem.level) =
      below.find? fun curItem => curItem.href ≠ [] :=
  List.find?_congr fun other hother => by simp [h other hother]

/-- What the loop at the end of `CreateNavNode` does. -/
theorem takeFirstLink_eq (front : List CatalogItem) {below : List CatalogItem}
    (h : ∀ other ∈ below, item.level < other.level) :
    takeFirstLink front.length (front ++ item :: linkAll below) =
      front ++ linkAll (item :: below) := by
  have hlevel : ∀ other ∈ linkAll below, item.level < other.level := by
    intro other hother
    have hmem := List.mem_map_of_mem (f := CatalogItem.level) hother
    rw [map_level_linkAll] at hmem
    obtain ⟨deeper,hdeeper,heq⟩ := List.mem_map.mp hmem
    exact heq ▸ h deeper hdeeper
  have hdrop : (front ++ item :: linkAll below).drop (front.length+1) = linkAll below := by
    rw [List.append_cons,List.drop_left' (by simp)]
  rw [takeFirstLink,hdrop,modify_middle,find_deeper hlevel,linkAll_cons h,← linked_linkAll]
  rfl

end Linking

section Levels
variable {p : EpubPackage}

@[simp] theorem label_level (data : XMLNode) (child : XMLItem) (item : CatalogItem) :
    (label p data child item).level = item.level := by
  unfold label
  dsimp only
  split
  case isTrue => rfl
  case isFalse =>
    split
    case isTrue => rfl
    case isFalse => rfl

theorem ownItem_level (level : Int) (child : XMLItem) : (ownItem p level child).level = level := by
  refine SiblingTree.each_keeps (I := fun item : CatalogItem => item.level = level)
    (fun data child item hitem => ?_) child rfl
  unfold labelChild
  split
  case isTrue => exact hitem
  case isFalse => rw [label_level]; exact hitem

/-- No item of a list is above the level of the list, and the first one is at this level. -/
def StartsAt (level : Int) (items : List CatalogItem) : Prop :=
  (∀ item ∈ items, level ≤ item.level) ∧ ∀ item ∈ items.head?, item.level = level

theorem startsAt_nil (level : Int) : StartsAt level [] := ⟨by simp,by simp⟩

theorem StartsAt.append {level : Int} {items more : List CatalogItem} (h : StartsAt level items)
    (hmore : StartsAt level more) : StartsAt level (items ++ more) := by
  refine ⟨fun item hitem => ?_,fun item hitem => ?_⟩
  · rcases List.mem_append.mp hitem with hleft | hright
    · exact h.1 item hleft
    · exact hmore.1 item hright
  · rcases items with _ | ⟨first,items⟩
    · exact hmore.2 item hitem
    · exact h.2 item hitem

theorem StartsAt.linkAll_append {level : Int} {items more : List CatalogItem}
    (h : StartsAt level items) (hmore : StartsAt level more) :
    linkAll (items ++ more) = linkAll items ++ linkAll more :=
  Epub.linkAll_append fun item hitem other hother =>
    (hmore.2 other hother).le.trans (h.1 item hitem)

theorem startsAt_own {level : Int} {child : XMLItem}
    (h : StartsAt (level+1) (innerItems p level child)) :
    StartsAt level (ownItem p level child :: innerItems p level child) := by
  refine ⟨fun item hitem => ?_,fun item hitem => ?_⟩
  · rcases List.mem_cons.mp hitem with rfl | hinner
    · exact (ownItem_level level child).ge
    · have hle := h.1 item hinner
      omega
  · obtain rfl := Option.mem_some_iff.mp hitem
    exact ownItem_level level child

theorem startsAt_items (item : XMLItem) : ∀ level,
    StartsAt level (groupItems p level item) ∧ StartsAt (level+1) (innerItems p level item) := by
  induction item with
  | null =>
    intro level
    rw [groupItems,innerItems]
    exact ⟨startsAt_nil level,startsAt_nil (level+1)⟩
  | node data child next ihchild ihnext =>
    intro level
    rw [groupItems,innerItems]
    refine ⟨.append ?_ (ihnext level).1,.append ?_ (ihnext level).2⟩
    · split
      case isTrue => exact startsAt_own (ihchild level).2
      case isFalse => exact startsAt_nil level
    · split
      case isTrue => exact (ihchild (level+1)).1
      case isFalse => exact startsAt_nil (level+1)

end Levels

/-- The two loops append the linked items of a list, and label the item they are at. -/
theorem loadNavGroup_eq (p : EpubPackage) (item : XMLItem) :
    (∀ level catalogs, loadNavGroup p level item catalogs =
      catalogs ++ linkAll (groupItems p level item)) ∧
    ∀ level front own below, StartsAt (level+1) below →
      navNodeLoop p level front.length item (front ++ own :: linkAll below) =
        front ++ item.each (labelChild p) own :: linkAll (below ++ innerItems p level item) := by
  induction item with
  | null =>
    refine ⟨fun level catalogs => ?_,fun level front own below _ => ?_⟩
    · simp [loadNavGroup,groupItems,linkAll]
    · simp [navNodeLoop,innerItems,SiblingTree.each]
  | node data child next ihchild ihnext =>
    refine ⟨fun level catalogs => ?_,fun level front own below hbelow => ?_⟩
    · rw [loadNavGroup,groupItems]
      split
      case isTrue hli =>
        have hnode := ihchild.2 level catalogs (newCatalogItem level) [] (startsAt_nil _)
        have hchild := (startsAt_items (p := p) child level).2
        have hinner : ∀ other ∈ innerItems p level child,
            (ownItem p level child).level < other.level := by
          intro other hother
          have hle := hchild.1 other hother
          rw [ownItem_level]
          omega
        have hnext := (startsAt_items (p := p) next level).1
        rw [show linkAll [] = [] from rfl,List.nil_append] at hnode
        rw [hnode,show child.each (labelChild p) (newCatalogItem level) = ownItem p level child
          from rfl,takeFirstLink_eq catalogs hinner,ihnext.1,List.append_assoc,
          (startsAt_own hchild).linkAll_append hnext]
      case isFalse => rw [ihnext.1,List.nil_append]
    · rw [navNodeLoop,innerItems,SiblingTree.each,labelChild]
      split
      case isTrue hol =>
        have hgroup := (startsAt_items (p := p) child (level+1)).1
        have hload := ihchild.1 (level+1) (front ++ own :: linkAll below)
        rw [List.append_assoc,List.cons_append,← hbelow.linkAll_append hgroup] at hload
        rw [hload,ihnext.2 level front own _ (hbelow.append hgroup),List.append_assoc]
      case isFalse =>
        rw [modify_middle,ihnext.2 level front _ below hbelow,List.nil_append]

/-- The lists of the table of contents are those of an item above it. -/
theorem each_lists (p : EpubPackage) (child : XMLItem) {below : List CatalogItem}
    (h : StartsAt 0 below) :
    child.each (fun data child catalogs =>
      if data.getElement = "ol".toList then loadNavGroup p 0 child catalogs else catalogs)
      (linkAll below) = linkAll (below ++ innerItems p (-1) child) := by
  induction child generalizing below with
  | null => simp [SiblingTree.each,innerItems]
  | node data child next _ ih =>
    rw [SiblingTree.each,innerItems]
    split
    case isTrue =>
      have hgroup := (startsAt_items (p := p) child 0).1
      rw [(loadNavGroup_eq p child).1,← h.linkAll_append hgroup,ih (h.append hgroup),
        List.append_assoc]
      rfl
    case isFalse => rw [ih h,List.nil_append]

/-- The items of the document: those of the first table of contents from the bottom up. -/
def tocItems (p : EpubPackage) (item : XMLItem) : List CatalogItem :=
  match item.bottomUp.find? isToc with
  | some (.node _ child _) => innerItems p (-1) child
  | _ => []

theorem parseNav_eq (p : EpubPackage) (item : XMLItem) {fuel : Nat}
    (h : item.bottomUp.length < fuel) :
    parseNav p fuel item = some (linkAll (tocItems p item)) := by
  rw [parseNav,item.walk_eq isToc h,tocItems]
  rcases item.bottomUp.find? isToc with _ | ⟨_ | ⟨data,child,next⟩⟩
  · rfl
  · rfl
  · exact congrArg some (each_lists p child (startsAt_nil 0))

section Links
variable {p : EpubPackage}

theorem takeWhile_linkAll (items : List CatalogItem) (level : Int) :
    (linkAll items).takeWhile (fun other => level < other.level) =
      linkAll (items.takeWhile fun other => level < other.level) := by
  induction items with
  | nil => rfl
  | cons item items ih =>
    rw [linkAll]
    by_cases hlevel : level < item.level
    · have hbelow : (items.takeWhile fun other => level < other.level).takeWhile
          (fun other => item.level < other.level) =
            items.takeWhile fun other => item.level < other.level := by
        rw [List.takeWhile_takeWhile]
        congr 1
        funext other
        simp only [decide_eq_true_eq,decide_eq_decide]
        omega
      rw [List.takeWhile_cons_of_pos (by simpa using hlevel),
        List.takeWhile_cons_of_pos (by simpa using hlevel),ih,linkAll,hbelow]
    · rw [List.takeWhile_cons_of_neg (by simpa using hlevel),
        List.takeWhile_cons_of_neg (by simpa using hlevel)]
      rfl

theorem linked_href_nil {item : CatalogItem} {below : List CatalogItem}
    (h : (linked item below).href = []) :
    item.href = [] ∧ (below.find? fun other => other.href ≠ []) = none := by
  unfold linked at h
  split at h
  case isTrue hhref =>
    refine ⟨hhref,?_⟩
    rcases hfound : below.find? fun other => other.href ≠ [] with _ | other
    · exact hfound
    · rw [hfound] at h
      exact absurd h (by simpa using List.find?_some hfound)
  case isFalse hhref => exact absurd h hhref

/-- Below an item that is left without a link no item has one. -/
theorem linkAll_unlinked {items front rest : List CatalogItem} {item : CatalogItem}
    (hsplit : linkAll items = front ++ item :: rest) (hhref : item.href = []) :
    ∀ other ∈ rest.takeWhile (fun other => item.level < other.level), other.href = [] := by
  induction items generalizing front with
  | nil => simp [linkAll] at hsplit
  | cons first items ih =>
    rw [linkAll] at hsplit
    rcases front with _ | ⟨head,front⟩
    · obtain ⟨rfl,rfl⟩ := List.cons.inj hsplit
      have hnone := (linked_href_nil hhref).2
      have hlinks := find_linkAll (items.takeWhile fun other => first.level < other.level)
      rw [hnone,Option.map_none,Option.map_eq_none_iff,List.find?_eq_none] at hlinks
      rw [linked_level,takeWhile_linkAll]
      simpa using hlinks
    · exact ih (List.cons.inj hsplit).2

/-- The section of an item is the one its link is in. -/
def Linked (p : EpubPackage) (item : CatalogItem) : Prop :=
  item.href ≠ [] → item.sectionIndex = orderIndex p item.href

theorem linked_ownItem (level : Int) (child : XMLItem) : Linked p (ownItem p level child) := by
  refine SiblingTree.each_keeps (I := Linked p) (fun data child item hitem => ?_) child
    fun h => absurd rfl h
  unfold labelChild label
  dsimp only
  split
  case isTrue => exact hitem
  case isFalse =>
    split
    case isTrue => exact hitem
    case isFalse =>
      split
      case isTrue => exact fun _ => rfl
      case isFalse => exact hitem

theorem linked_items (item : XMLItem) : ∀ level,
    (∀ other ∈ groupItems p level item, Linked p other) ∧
      ∀ other ∈ innerItems p level item, Linked p other := by
  induction item with
  | null => exact fun level => ⟨by simp [groupItems],by simp [innerItems]⟩
  | node data child next ihchild ihnext =>
    intro level
    rw [groupItems,innerItems]
    refine ⟨fun other hother => ?_,fun other hother => ?_⟩
    · rcases List.mem_append.mp hother with hhere | hnext
      · split at hhere
        case isTrue =>
          rcases List.mem_cons.mp hhere with rfl | hinner
          · exact linked_ownItem level child
          · exact (ihchild level).2 other hinner
        case isFalse => exact absurd hhere List.not_mem_nil
      · exact (ihnext level).1 other hnext
    · rcases List.mem_append.mp hother with hhere | hnext
      · split at hhere
        case isTrue => exact (ihchild (level+1)).1 other hhere
        case isFalse => exact absurd hhere List.not_mem_nil
      · exact (ihnext level).2 other hnext

theorem linked_linkAll_items {items : List CatalogItem} (h : ∀ item ∈ items, Linked p item) :
    ∀ item ∈ linkAll items, Linked p item := by
  induction items with
  | nil => simp [linkAll]
  | cons first items ih =>
    have hrest := fun item hitem => h item (List.mem_cons_of_mem first hitem)
    rw [linkAll]
    refine List.forall_mem_cons.mpr ⟨?_,ih hrest⟩
    unfold linked
    split
    case isTrue =>
      split
      case h_1 other hfound =>
        exact hrest other ((List.takeWhile_subset _) (List.mem_of_find?_eq_some hfound))
      case h_2 => exact h first List.mem_cons_self
    case isFalse => exact h first List.mem_cons_self

theorem linked_tocItems (item : XMLItem) : ∀ other ∈ tocItems p item, Linked p other := by
  unfold tocItems
  split
  case h_1 data child next hfound => exact (linked_items child (-1)).2
  case h_2 => simp

theorem orderIndex_cases (data : XMLNode) (child : XMLItem) (file parent href : Text) :
    let p := EpubPackage.readPackage data child (EpubPackage.opened file parent)
    (∃ i : Nat, IsGreatest (p.sections (withoutAnchor href)) i ∧ orderIndex p href = i) ∨
      p.sections (withoutAnchor href) = ∅ ∧ orderIndex p href = 0 := by
  intro p
  have hcases := EpubPackage.getSectionIndex_cases data child file parent (withoutAnchor href)
  dsimp only at hcases
  rw [← EpubPackage.readPackage_sections data child file parent (withoutAnchor href)] at hcases
  rw [orderIndex]
  obtain ⟨i,hi,hindex⟩ | ⟨hnone,hindex⟩ := hcases
  · exact .inl ⟨i,hi,by rw [hindex,if_neg (by omega)]⟩
  · exact .inr ⟨hnone,by rw [hindex,if_pos (by omega)]⟩

/-- The catalog is the items of the nested lists in the order of the document, at the depth of
their lists; each has the first link at it or below it, with the last section that link is in. -/
theorem parseNav_links (data : XMLNode) (child nav : XMLItem) (file parent : Text) {fuel : Nat}
    (h : nav.bottomUp.length < fuel) :
    let p := EpubPackage.readPackage data child (EpubPackage.opened file parent)
    ∃ catalogs, parseNav p fuel nav = some catalogs ∧ catalogs = linkAll (tocItems p nav) ∧
      ∀ (front : List CatalogItem) (entry : CatalogItem) (rest : List CatalogItem),
        catalogs = front ++ entry :: rest →
        (entry.href = [] →
          ∀ other ∈ rest.takeWhile (fun other => entry.level < other.level), other.href = []) ∧
        (entry.href ≠ [] →
          (∃ i : Nat, IsGreatest (p.sections (withoutAnchor entry.href)) i ∧
            entry.sectionIndex = i) ∨
          p.sections (withoutAnchor entry.href) = ∅ ∧ entry.sectionIndex = 0) := by
  intro p
  refine ⟨_,parseNav_eq p nav h,rfl,fun front entry rest hsplit => ⟨linkAll_unlinked hsplit,?_⟩⟩
  intro hhref
  have hmem : entry ∈ linkAll (tocItems p nav) := by
    rw [hsplit]
    exact List.mem_append_right front List.mem_cons_self
  rw [linked_linkAll_items (linked_tocItems nav) entry hmem hhref]
  exact orderIndex_cases data child file parent entry.href

def oneItemNav : XMLItem :=
  .node (.element "nav".toList [("epub:type".toList,"toc".toList)])
    (.node (.element "ol".toList [])
      (.node (.element "li".toList [])
        (.node (.element "a".toList [("href".toList,"t/c".toList)]) .null .null) .null) .null) .null

theorem parseNav_oneItemNav :
    ∃ catalogs, parseNav (EpubPackage.readPackage (.element "package".toList [])
      EpubPackage.oneSection (EpubPackage.opened "o/p".toList "o/".toList)) 5 oneItemNav =
        some catalogs :=
  have h := parseNav_links (.element "package".toList []) EpubPackage.oneSection oneItemNav
    "o/p".toList "o/".toList (by decide : _ < 5)
  ⟨_,h.choose_spec.1⟩

end Links

end MprMq.Epub
