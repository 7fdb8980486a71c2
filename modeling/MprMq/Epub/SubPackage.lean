import MprMq.Epub.PackageWriter
set_option autoImplicit false

/-! A book that is split: the package of some sections is written, and what is read of it. -/

namespace MprMq.Epub
open MprMq.Base MprMq.Lib

namespace EpubPackage
variable {p : EpubPackage} {resources : Text → Option (List Text)}

theorem mem_insertResource {set : List Text} {href other : Text} :
    other ∈ insertResource set href ↔ other = href ∨ other ∈ set := by
  unfold insertResource
  split
  case isTrue h =>
    rw [List.contains_iff_mem] at h
    constructor
    · exact Or.inr
    · rintro (rfl | hset)
      · exact h
      · exact hset
  case isFalse => exact List.mem_orderedInsert _

theorem nodup_insertResource {set : List Text} (h : set.Nodup) (href : Text) :
    (insertResource set href).Nodup := by
  unfold insertResource
  split
  case isTrue => exact h
  case isFalse hnot =>
    rw [List.contains_iff_mem] at hnot
    exact (List.perm_orderedInsert _ href set).nodup_iff.mpr (List.nodup_cons.mpr ⟨hnot,h⟩)

theorem mem_foldl_insertResource {hrefs set : List Text} {other : Text} :
    other ∈ hrefs.foldl insertResource set ↔ other ∈ hrefs ∨ other ∈ set := by
  induction hrefs generalizing set with
  | nil => simp
  | cons href hrefs ih =>
    rw [List.foldl_cons,ih,mem_insertResource,List.mem_cons]
    tauto

theorem nodup_foldl_insertResource (hrefs : List Text) {set : List Text} (h : set.Nodup) :
    (hrefs.foldl insertResource set).Nodup := by
  induction hrefs generalizing set with
  | nil => exact h
  | cons href hrefs ih => exact ih (nodup_insertResource h href)

def reserved (p : EpubPackage) (spines : List Int) : List EPackageSpineItem :=
  spines.filterMap fun spine => if 0 ≤ spine then p.spineItems[spine.toNat]? else none

structure Gathered (p : EpubPackage) (s : List EPackageSpineItem × List Text) : Prop where
  nodup : s.2.Nodup
  listed : ∀ href ∈ s.2, href ∈ p.manifestItems.map EPackageManifestItem.href
  resolved : ∀ item ∈ s.1, ∀ entry, p.manifestItemIDMap item.idRef = some entry → entry.href ∈ s.2

/-- Every resource of a section is in the manifest. -/
def Listed (p : EpubPackage) (resources : Text → Option (List Text)) : Prop :=
  ∀ spine, ∀ href ∈ p.fetchExternalResourceInSpine resources spine,
    href ∈ p.manifestItems.map EPackageManifestItem.href

theorem Gathered.reserveSpine {s : List EPackageSpineItem × List Text} (h : Gathered p s)
    (hlisted : Listed p resources)
    (hmap : ∀ id entry, p.manifestItemIDMap id = some entry → entry ∈ p.manifestItems)
    (spine : Int) : Gathered p (p.reserveSpine resources spine s) ∧
      (p.reserveSpine resources spine s).1 = s.1 ++ p.reserved [spine] := by
  unfold EpubPackage.reserveSpine
  split
  case isFalse hrange =>
    refine ⟨h,?_⟩
    have hnone : (if 0 ≤ spine then p.spineItems[spine.toNat]? else none) = none := by
      split
      case isTrue => rw [List.getElem?_eq_none_iff]; omega
      case isFalse => rfl
    simp [reserved,hnone]
  case isTrue hrange =>
    obtain ⟨item,hitem⟩ : ∃ item, p.spineItems[spine.toNat]? = some item :=
      ⟨_,List.getElem?_eq_getElem (by omega)⟩
    rw [hitem]
    dsimp only
    have hfetched : ∀ href ∈ (p.fetchExternalResourceInSpine resources spine.toNat).foldl
        insertResource s.2, href ∈ p.manifestItems.map EPackageManifestItem.href := by
      intro href hhref
      rcases mem_foldl_insertResource.mp hhref with hnew | hold
      · exact hlisted _ href hnew
      · exact h.listed href hold
    have hnodup := nodup_foldl_insertResource
      (p.fetchExternalResourceInSpine resources spine.toNat) h.nodup
    refine ⟨?_,by simp [reserved,hrange.1,hitem]⟩
    rcases hentry : p.manifestItemIDMap item.idRef with _ | entry
    · refine ⟨hnodup,hfetched,fun other hother found hfound => ?_⟩
      rcases List.mem_append.mp hother with hold | hnew
      · exact mem_foldl_insertResource.mpr (.inr (h.resolved other hold found hfound))
      · rw [List.mem_singleton.mp hnew,hentry] at hfound
        cases hfound
    · refine ⟨nodup_insertResource hnodup _,fun href hhref => ?_,
        fun other hother found hfound => mem_insertResource.mpr ?_⟩
      · rcases mem_insertResource.mp hhref with rfl | hset
        · exact List.mem_map_of_mem (hmap _ _ hentry)
        · exact hfetched href hset
      · rcases List.mem_append.mp hother with hold | hnew
        · exact .inr (mem_foldl_insertResource.mpr (.inr (h.resolved other hold found hfound)))
        · rw [List.mem_singleton.mp hnew,hentry] at hfound
          exact .inl (congrArg EPackageManifestItem.href (Option.some.inj hfound)).symm

theorem subSpineLoop_gathered (hlisted : Listed p resources)
    (hmap : ∀ id entry, p.manifestItemIDMap id = some entry → entry ∈ p.manifestItems)
    (spines : List Int) {s : List EPackageSpineItem × List Text} (h : Gathered p s) :
    Gathered p (p.subSpineLoop resources spines s) ∧
      (p.subSpineLoop resources spines s).1 = s.1 ++ p.reserved spines := by
  induction spines generalizing s with
  | nil => exact ⟨h,by simp [subSpineLoop,reserved]⟩
  | cons spine spines ih =>
    obtain ⟨hturn,hitems⟩ := h.reserveSpine hlisted hmap spine
    obtain ⟨hrest,heq⟩ := ih hturn
    refine ⟨hrest,?_⟩
    rw [subSpineLoop,heq,hitems,List.append_assoc]
    congr 1
    exact List.filterMap_append.symm

/-- Items with different identifiers are found by them. -/
theorem find_of_nodup {items : List EPackageManifestItem} {key : EPackageManifestItem → Text}
    (h : (items.map key).Nodup) {item : EPackageManifestItem} (hitem : item ∈ items) :
    (items.find? fun other => key other = key item) = some item := by
  induction items with
  | nil => cases hitem
  | cons first items ih =>
    rw [List.map_cons,List.nodup_cons] at h
    rcases List.mem_cons.mp hitem with rfl | hrest
    · simp
    · have hne : key first ≠ key item := fun heq => h.1 (heq ▸ List.mem_map_of_mem hrest)
      rw [List.find?_cons_of_neg (by simpa using hne),ih h.2 hrest]

/-- A package of which identifiers and files are told apart, as the books are that are split. -/
structure Sound (parent : Text) (p : EpubPackage) : Prop extends Indexed parent p where
  ids : (p.manifestItems.map EPackageManifestItem.id).Nodup
  hrefs : (p.manifestItems.map EPackageManifestItem.href).Nodup
  kept : ∀ item ∈ p.manifestItems, Kept parent item.href

variable {parent : Text}

theorem Sound.idMap_of_mem (h : Sound parent p) {item : EPackageManifestItem}
    (hitem : item ∈ p.manifestItems) : p.manifestItemIDMap item.id = some item := by
  rw [h.idMap]
  exact find_of_nodup h.ids hitem

theorem Indexed.mem_of_idMap (h : Indexed parent p) {id : Text} {entry : EPackageManifestItem}
    (hentry : p.manifestItemIDMap id = some entry) :
    entry ∈ p.manifestItems ∧ entry.id = id := by
  rw [h.idMap] at hentry
  exact ⟨List.mem_of_find?_eq_some hentry,by simpa using List.find?_some hentry⟩

theorem Sound.create (h : Sound parent p) {item : EPackageManifestItem}
    (hitem : item ∈ p.manifestItems) : p.createManifestItemByHref item.href = item := by
  rw [createManifestItemByHref,h.hrefMap]
  dsimp only
  rw [find_of_nodup h.hrefs hitem]

/-- The manifest of the smaller package is a part of the manifest. -/
structure Part (p q : EpubPackage) (spines : List Int) : Prop where
  opfParentPath : q.opfParentPath = p.opfParentPath
  metaDCMES : q.metaDCMES = []
  guideItems : q.guideItems = []
  spineItems : q.spineItems = p.reserved spines
  manifest : ∀ item ∈ q.manifestItems, item ∈ p.manifestItems
  resolved : ∀ item ∈ p.reserved spines, ∀ entry,
    p.manifestItemIDMap item.idRef = some entry → entry ∈ q.manifestItems

theorem Sound.part (h : Sound parent p) (hlisted : Listed p resources) {spines : List Int}
    {q : EpubPackage} (hq : p.subPackage resources spines true = some q) : Part p q spines := by
  obtain ⟨hgathered,hspine⟩ := subSpineLoop_gathered hlisted
    (fun id entry hentry => (h.mem_of_idMap hentry).1) spines (s := ([],[]))
    ⟨List.nodup_nil,by simp,by simp⟩
  unfold subPackage at hq
  split at hq
  case isTrue => cases hq
  case isFalse =>
    obtain rfl := Option.some.inj hq
    have hmem : ∀ item ∈ (p.subSpineLoop resources spines ([],[])).2.map
        p.createManifestItemByHref, item ∈ p.manifestItems := by
      intro item hitem
      obtain ⟨href,hhref,rfl⟩ := List.mem_map.mp hitem
      obtain ⟨entry,hentry,rfl⟩ := List.mem_map.mp (hgathered.listed href hhref)
      rw [h.create hentry]
      exact hentry
    refine ⟨rfl,rfl,rfl,hspine,hmem,fun item hitem entry hentry => ?_⟩
    have hhref := hgathered.resolved item (hspine ▸ hitem) entry hentry
    have hcreate := h.create (h.mem_of_idMap hentry).1
    exact hcreate ▸ List.mem_map_of_mem hhref

/-- The sections that were taken are the same files by both manifests. -/
theorem Part.find {q : EpubPackage} {spines : List Int} (hpart : Part p q spines)
    (h : Sound parent p) {item : EPackageSpineItem} (hitem : item ∈ p.reserved spines) :
    (q.manifestItems.find? fun entry => entry.id = item.idRef) =
      p.manifestItemIDMap item.idRef := by
  have hfound : ∀ entry, (q.manifestItems.find? fun entry => entry.id = item.idRef) = some entry →
      p.manifestItemIDMap item.idRef = some entry := by
    intro entry hentry
    have hid : entry.id = item.idRef := by simpa using List.find?_some hentry
    rw [← hid]
    exact h.idMap_of_mem (hpart.manifest entry (List.mem_of_find?_eq_some hentry))
  rcases hq : q.manifestItems.find? fun entry => entry.id = item.idRef with _ | entry
  · rcases hp : p.manifestItemIDMap item.idRef with _ | entry
    · exact hq
    · have hnot := List.find?_eq_none.mp hq entry (hpart.resolved item hitem entry hp)
      exact absurd (h.mem_of_idMap hp).2 (by simpa using hnot)
  · exact hq.trans (hfound entry hq).symm

/-- What is read of a part that was written, before the sections are counted. -/
theorem Part.parts_eq {q : EpubPackage} {spines : List Int} (hpart : Part p q spines)
    (h : Sound parent p) (file : Text) {child' : XMLItem}
    (hchild : skeleton child' = skeleton (createOPFXML q).2) :
    (parts (createOPFXML q).1 child' (opened file parent)).spineItems =
        (p.reserved spines).map keptSpineItem ∧
      (parts (createOPFXML q).1 child' (opened file parent)).manifestItems =
        q.manifestItems.map keptManifestItem := by
  have hparent : q.opfParentPath = parent := hpart.opfParentPath.trans h.opfParentPath
  obtain ⟨ids,hrefs,nav,hparts⟩ := parts_written q file (by simp [hpart.metaDCMES])
    (fun item hitem => h.identified item (hpart.manifest item hitem))
    (fun item hitem => hparent ▸ h.kept item (hpart.manifest item hitem))
    (by simp [hpart.guideItems])
  have hsame := same_parts (createOPFXML q).1 child' (opened file parent)
  rw [hparent] at hparts
  rw [hchild,SameTextless,hparts] at hsame
  refine ⟨?_,congrArg EpubPackage.manifestItems hsame⟩
  rw [← hpart.spineItems]
  exact congrArg EpubPackage.spineItems hsame

theorem isSection_congr {idMap other : Text → Option EPackageManifestItem}
    {items : List EPackageSpineItem}
    (h : ∀ item ∈ items, other item.idRef = (idMap item.idRef).map keptManifestItem)
    (href : Text) (i : Nat) :
    IsSection other href (items.map keptSpineItem) i ↔ IsSection idMap href items i := by
  rcases hi : items[i]? with _ | item
  · simp [IsSection,hi]
  · have hitem := h item (List.mem_of_getElem? hi)
    simp [IsSection,hi,keptSpineItem,hitem,keptManifestItem]

/-- A book is split: some of its sections are written to a book of their own, which is opened.
The new book has these sections in their order, each with the entry it had in the manifest, but
for the attributes that are not written, and the section index of a file is the last of the
sections taken that are this file. -/
theorem subPackage_reopened (data : XMLNode) (child : XMLItem) (file parent : Text)
    (resources : Text → Option (List Text)) (spines : List Int) (q : EpubPackage)
    (hsound : Sound parent (readPackage data child (opened file parent)))
    (hlisted : Listed (readPackage data child (opened file parent)) resources)
    (hq : (readPackage data child (opened file parent)).subPackage resources spines true = some q)
    (child' : XMLItem) (hchild : skeleton child' = skeleton (createOPFXML q).2) :
    let p := readPackage data child (opened file parent)
    let r := readPackage (createOPFXML q).1 child' (opened file parent)
    r.spineItems = (p.reserved spines).map keptSpineItem ∧
      (∀ item ∈ p.reserved spines, r.manifestItemIDMap item.idRef =
        (p.manifestItemIDMap item.idRef).map keptManifestItem) ∧
      ∀ href,
        (∃ i : Nat, IsGreatest {i | IsSection p.manifestItemIDMap href (p.reserved spines) i} i ∧
          r.getSectionIndex href = i) ∨
        (∀ i, ¬ IsSection p.manifestItemIDMap href (p.reserved spines) i) ∧
          r.getSectionIndex href = -1 := by
  intro p r
  have hpart := hsound.part hlisted hq
  obtain ⟨hspine,hmanifest⟩ := hpart.parts_eq hsound file hchild
  have hfilled := filled_parts (createOPFXML q).1 child' file parent
  have hmap : ∀ item ∈ p.reserved spines,
      (parts (createOPFXML q).1 child' (opened file parent)).manifestItemIDMap item.idRef =
        (p.manifestItemIDMap item.idRef).map keptManifestItem := by
    intro item hitem
    rw [hfilled.idMap,hmanifest]
    dsimp only
    rw [find_kept q.manifestItems EPackageManifestItem.id (fun _ => rfl),
      hpart.find hsound hitem]
  refine ⟨(findNCX_spineItems _).trans hspine,fun item hitem => ?_,fun href => ?_⟩
  · obtain ⟨path,hncx⟩ := findNCX_cases
      (buildSpineIndexMap (parts (createOPFXML q).1 child' (opened file parent)))
    rw [show r = _ from readPackage_parts _ _ _,hncx]
    exact hmap item hitem
  · have hset : {i | IsSection
        (parts (createOPFXML q).1 child' (opened file parent)).manifestItemIDMap href
        (parts (createOPFXML q).1 child' (opened file parent)).spineItems i} =
        {i | IsSection p.manifestItemIDMap href (p.reserved spines) i} := by
      rw [hspine]
      exact Set.ext fun i => isSection_congr hmap href i
    have hcases := getSectionIndex_cases (createOPFXML q).1 child' file parent href
    simp only [hset] at hcases
    obtain ⟨i,hi,hindex⟩ | ⟨hnone,hindex⟩ := hcases
    · exact .inl ⟨i,hi,hindex⟩
    · exact .inr ⟨Set.eq_empty_iff_forall_notMem.mp hnone,hindex⟩

def oneSectionBook : EpubPackage :=
  readPackage (.element "package".toList []) oneSection (opened "o/p".toList "o/".toList)

theorem oneSectionBook_reopened : ∃ q,
    oneSectionBook.subPackage (fun _ => none) [0] true = some q ∧
    let r := readPackage (createOPFXML q).1 (createOPFXML q).2
      (opened "o/p".toList "o/".toList)
    r.spineItems = (oneSectionBook.reserved [0]).map keptSpineItem ∧
      (∀ item ∈ oneSectionBook.reserved [0], r.manifestItemIDMap item.idRef =
        (oneSectionBook.manifestItemIDMap item.idRef).map keptManifestItem) ∧
      ∀ href,
        (∃ i : Nat, IsGreatest
            {i | IsSection oneSectionBook.manifestItemIDMap href (oneSectionBook.reserved [0]) i}
            i ∧ r.getSectionIndex href = i) ∨
        (∀ i, ¬ IsSection oneSectionBook.manifestItemIDMap href
            (oneSectionBook.reserved [0]) i) ∧
          r.getSectionIndex href = -1 := by
  have hitems : oneSectionBook.manifestItems.map EPackageManifestItem.href =
      ["o/t/c".toList] := by decide
  have hsound : Sound "o/".toList oneSectionBook := by
    refine ⟨indexed_readPackage _ _ _ _,by decide,by decide,fun item hitem => ?_⟩
    have hhref := List.mem_map_of_mem (f := EPackageManifestItem.href) hitem
    rw [hitems] at hhref
    exact List.mem_singleton.mp hhref ▸ placed_oneSection.kept
  have hlisted : Listed oneSectionBook fun _ => none := by
    intro spine href hhref
    unfold fetchExternalResourceInSpine at hhref
    split at hhref
    · cases hhref
    · split at hhref <;> cases hhref
  obtain ⟨q,hq⟩ : ∃ q, oneSectionBook.subPackage (fun _ => none) [0] true = some q := ⟨_,rfl⟩
  exact ⟨q,hq,subPackage_reopened _ _ _ _ _ _ q hsound hlisted hq _ rfl⟩

end EpubPackage

end MprMq.Epub
