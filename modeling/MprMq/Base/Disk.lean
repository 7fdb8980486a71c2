import MprMq.Base.Enumeration
set_option autoImplicit false

/-! A disk on which `unlink` removes every file and `rmdir` every empty directory. -/

namespace MprMq.Base
open Lib

abbrev Location : Type := List Text

inductive Inode where
  /-- The entries are read in this order, those that are there. -/
  | directory (st : DirStat) (order : List Text)
  | other (st : FileStat)

def Inode.stat : Inode → StatBuf
  | .directory st _ => st.val
  | .other st => st.val

structure Disk where
  entry : Location → Option Inode
  /-- Whatever is there is in a directory, and is read with it. -/
  listed : ∀ dir n, entry (dir ++ [n]) ≠ none →
    isDots n = false ∧ ∃ st order, entry dir = some (.directory st order) ∧ n ∈ order

namespace Disk
variable {disk : Disk} {l : Location}

def Without (after disk : Disk) (gone : List Location) : Prop := ∀ place,
  after.entry place = if place ∈ gone then none else disk.entry place

structure Empty (disk : Disk) (l : Location) : Prop where
  directory : ∃ st order, disk.entry l = some (.directory st order)
  nothing : ∀ below, below ≠ [] → disk.entry (l ++ below) = none

section without
variable {after : Disk} {gone : List Location}

theorem Without.kept (h : after.Without disk gone) (hl : l ∉ gone) :
    after.entry l = disk.entry l := by
  rw [h l,if_neg hl]

theorem Without.out (h : after.Without disk gone) (hl : l ∈ gone) : after.entry l = none := by
  rw [h l,if_pos hl]

theorem Without.of_ne (h : after.Without disk gone) (hl : after.entry l ≠ none) :
    l ∉ gone ∧ disk.entry l ≠ none := by
  have hout : l ∉ gone := fun hmem => hl (h.out hmem)
  exact ⟨hout,h.kept hout ▸ hl⟩

theorem Without.refl (disk : Disk) : disk.Without disk [] := fun _ => rfl

theorem Without.trans {further : Disk} {more : List Location} (h : after.Without disk gone)
    (hfurther : further.Without after more) : further.Without disk (gone ++ more) := by
  intro place
  by_cases hmore : place ∈ more
  · rw [hfurther.out hmore,if_pos (List.mem_append_right _ hmore)]
  rw [hfurther.kept hmore,h place]
  simp only [List.mem_append,hmore,or_false]

end without

theorem directory_of_below (disk : Disk) {l below : Location} (hbelow : below ≠ [])
    (h : disk.entry (l ++ below) ≠ none) :
    ∃ st order, disk.entry l = some (.directory st order) := by
  induction below using List.reverseRecOn with
  | nil => exact absurd rfl hbelow
  | append_singleton front n ih =>
    rw [← List.append_assoc] at h
    obtain ⟨-,st,order,hdir,-⟩ := disk.listed (l ++ front) n h
    by_cases hfront : front = []
    · rw [hfront,List.append_nil] at hdir
      exact ⟨st,order,hdir⟩
    · refine ih hfront ?_
      rw [hdir]
      exact Option.some_ne_none _

theorem nothing_below (hnone : ∀ n, disk.entry (l ++ [n]) = none) {below : Location}
    (hbelow : below ≠ []) : disk.entry (l ++ below) = none := by
  obtain ⟨n,rest,rfl⟩ := List.exists_cons_of_ne_nil hbelow
  by_contra hne
  rw [← List.singleton_append,← List.append_assoc] at hne
  by_cases hrest : rest = []
  · rw [hrest,List.append_nil] at hne
    exact hne (hnone n)
  · obtain ⟨st,order,hdir⟩ := disk.directory_of_below hrest hne
    exact Option.some_ne_none _ (hdir.symm.trans (hnone n))

def remove (disk : Disk) (l : Location) (h : ∀ n, disk.entry (l ++ [n]) = none) : Disk where
  entry := fun place => if place = l then none else disk.entry place
  listed := by
    intro dir n hne
    split at hne
    case isTrue => exact absurd rfl hne
    case isFalse =>
      obtain ⟨hdots,st,order,hdir,hn⟩ := disk.listed dir n hne
      have hother : dir ≠ l := fun heq => hne (heq ▸ h n)
      exact ⟨hdots,st,order,by rw [if_neg hother,hdir],hn⟩

theorem remove_without (h : ∀ n, disk.entry (l ++ [n]) = none) :
    (disk.remove l h).Without disk [l] := by
  intro place
  simp only [remove,List.mem_singleton]

theorem childless {st : FileStat} (h : disk.entry l = some (.other st)) (n : Text) :
    disk.entry (l ++ [n]) = none := by
  by_contra hne
  obtain ⟨-,st',order,hdir,-⟩ := disk.listed l n hne
  rw [h] at hdir
  cases hdir

theorem emptied {st : DirStat} {order : List Text} (h : disk.entry l = some (.directory st order))
    (hnone : ∀ n ∈ order, (disk.entry (l ++ [n])).isNone = true) (n : Text) :
    disk.entry (l ++ [n]) = none := by
  by_contra hne
  obtain ⟨-,st',order',hdir,hn⟩ := disk.listed l n hne
  rw [h] at hdir
  cases hdir
  exact hne (Option.isNone_iff_eq_none.mp (hnone n hn))

def unlink (disk : Disk) (l : Location) : Option Disk :=
  match h : disk.entry l with
  | some (.other _) => some (disk.remove l (childless h))
  | _ => none

def rmdir (disk : Disk) (l : Location) : Option Disk :=
  match h : disk.entry l with
  | some (.directory _ order) =>
    if hnone : ∀ n ∈ order, (disk.entry (l ++ [n])).isNone = true then
      some (disk.remove l (emptied h hnone))
    else none
  | _ => none

theorem unlink_entry {st : FileStat} (h : disk.entry l = some (.other st)) :
    ∃ after, disk.unlink l = some after ∧ after.Without disk [l] := by
  refine ⟨disk.remove l (childless h),?_,remove_without _⟩
  unfold unlink
  split
  case h_1 => rfl
  case h_2 hother => exact absurd h (hother st)

theorem rmdir_entry (h : disk.Empty l) :
    ∃ after, disk.rmdir l = some after ∧ after.Without disk [l] := by
  have hnone : ∀ n, disk.entry (l ++ [n]) = none := fun n =>
    h.nothing [n] (List.cons_ne_nil _ _)
  refine ⟨disk.remove l hnone,?_,remove_without hnone⟩
  obtain ⟨st,order,hdir⟩ := h.directory
  unfold rmdir
  split
  case h_1 => exact dif_pos fun n _ => Option.isNone_iff_eq_none.mpr (hnone n)
  case h_2 hother => exact absurd hdir (hother st order)

/-- `rmdir` fails on whatever is not empty. -/
theorem empty_of_rmdir {after : Disk} (h : disk.rmdir l = some after) : disk.Empty l := by
  unfold rmdir at h
  split at h
  case h_1 st order hdir =>
    split at h
    case isTrue hnone =>
      exact ⟨⟨st,order,hdir⟩,fun below => nothing_below (emptied hdir hnone)⟩
    case isFalse => cases h
  case h_2 => cases h

end Disk

/-- Besides the directory where a path without a separator in front starts, the calls that are not
about this disk. -/
structure Kernel where
  cwd : Location
  stat : Disk → FilePath → Except Errno StatBuf
  fnmatch : Text → Text → Bool

def walk (dir : Location) (n : Text) : Location :=
  if n = kCurrentDirectory then dir
  else if n = kParentDirectory then dir.dropLast
  else dir ++ [n]

/-- Where a path leads. No links are followed, so that this does not depend on the disk. -/
def Kernel.locate (kernel : Kernel) (path : FilePath) : Option Location :=
  if path.value = [] then none
  else some ((names path.value).foldl walk (if isPathAbsolute path.value then [] else kernel.cwd))

def Kernel.calls (kernel : Kernel) (disk : Disk) : DirCalls where
  opendir := fun path =>
    (kernel.locate path).bind fun dir =>
      match disk.entry dir with
      | some (.directory _ order) =>
        some (order.filter fun n => isDots n || (disk.entry (dir ++ [n])).isSome)
      | _ => none
  lstat := fun path =>
    match (kernel.locate path).bind disk.entry with
    | some inode => .ok inode.stat
    | none => .error .enoent
  stat := kernel.stat disk
  fnmatch := kernel.fnmatch

def spot (base : Location) (place : List EntryName) : Location := base ++ place.map EntryName.text

theorem spot_snoc (base : Location) (dir : List EntryName) (name : EntryName) :
    spot base (dir ++ [name]) = spot base dir ++ [name.text] := by
  rw [spot,List.map_append,← List.append_assoc]
  rfl

theorem spot_injective (base : Location) : Function.Injective (spot base) := fun _ _ h =>
  List.map_injective_iff.mpr EntryName.text_injective (List.append_cancel_left h)

theorem within_of_spot {base : Location} {place other : List EntryName}
    (h : spot base place <+: spot base other) : place <+: other := by
  obtain ⟨front,hfront,heq⟩ := List.prefix_map_iff.mp ((List.prefix_append_right_inj base).mp h)
  rwa [List.map_injective_iff.mpr EntryName.text_injective heq]

section located
variable {kernel : Kernel} {disk : Disk} {root : FilePath} {base : Location}

theorem locate_appended {path : FilePath} {l : Location} (h : kernel.locate path = some l)
    (name : EntryName) : kernel.locate (path.appended name.text) = some (l ++ [name.text]) := by
  have hne := (path.appended_ended name.name name.noNul).ne_nil
  unfold Kernel.locate at h ⊢
  rw [if_neg hne,path.appended_names name.name name.noNul,
    path.appended_absolute name.name name.noNul,List.foldl_append]
  split at h
  case isTrue => cases h
  case isFalse =>
    rw [Option.some.injEq] at h ⊢
    have hahead : (FilePath.ahead path.value).foldl walk
        (if isPathAbsolute path.value then [] else kernel.cwd) = l := by
      rw [FilePath.ahead]
      by_cases hcur : path.value = kCurrentDirectory
      · rw [if_pos hcur]
        rw [hcur] at h ⊢
        exact h
      · rw [if_neg hcur]
        exact h
    rw [hahead,List.foldl_cons,List.foldl_nil,walk,if_neg name.notCurrent,if_neg name.notParent]

theorem locate_pathOf (h : kernel.locate root = some base) (place : List EntryName) :
    kernel.locate (root.pathOf place) = some (spot base place) := by
  induction place using List.reverseRecOn with
  | nil =>
    rw [spot,List.map_nil,List.append_nil]
    exact h
  | append_singleton dir name ih =>
    rw [FilePath.pathOf_snoc,spot_snoc]
    exact locate_appended ih name

theorem strip_names (path : Text) :
    names (stripTrailingSeparatorsInternal path) = names path ∧
      isPathAbsolute (stripTrailingSeparatorsInternal path) = isPathAbsolute path ∧
      (stripTrailingSeparatorsInternal path = [] ↔ path = []) := by
  obtain ⟨front,k,rfl,rfl | hended⟩ := exists_trailing path
  · rw [List.nil_append]
    cases k with
    | zero => exact ⟨rfl,rfl,Iff.rfl⟩
    | succ k =>
      rw [strip_seps,names_seps]
      split
      · exact ⟨names_seps _,rfl,Iff.rfl⟩
      · exact ⟨rfl,rfl,iff_of_false (List.cons_ne_nil _ _) (List.cons_ne_nil _ _)⟩
  · rw [strip_trailing hended,names_trailing,isPathAbsolute_append hended.ne_nil]
    refine ⟨rfl,rfl,iff_of_false hended.ne_nil ?_⟩
    exact List.append_ne_nil_of_left_ne_nil hended.ne_nil _

theorem locate_strip (kernel : Kernel) (path : FilePath) :
    kernel.locate path.stripTrailingSeparators = kernel.locate path := by
  obtain ⟨hnames,habs,hnil⟩ := strip_names path.value
  rw [Kernel.locate,Kernel.locate,FilePath.stripTrailingSeparators,hnames,habs]
  simp only [hnil]

end located

section holds
variable {kernel : Kernel} {disk : Disk} {root : FilePath} {base : Location}
  {dir : List EntryName} {tree : FileTree}

theorem lstat_entry {path : FilePath} {l : Location} {st : StatBuf}
    (hl : kernel.locate path = some l) (h : (kernel.calls disk).lstat path = .ok st) :
    ∃ inode, disk.entry l = some inode ∧ inode.stat = st := by
  unfold Kernel.calls at h
  dsimp only at h
  rw [hl,Option.bind_some] at h
  split at h
  case h_1 inode hinode => exact ⟨inode,hinode,Except.ok.inj h⟩
  case h_2 => cases h

theorem lstat_eq {path : FilePath} {l : Location} {inode : Inode}
    (hl : kernel.locate path = some l) (h : disk.entry l = some inode) :
    (kernel.calls disk).lstat path = .ok inode.stat := by
  unfold Kernel.calls
  dsimp only
  rw [hl,Option.bind_some,h]

theorem opendir_directory {path : FilePath} {l : Location} {dNames : List Text}
    (hl : kernel.locate path = some l) (h : (kernel.calls disk).opendir path = some dNames) :
    ∃ st order, disk.entry l = some (.directory st order) ∧
      dNames = order.filter fun n => isDots n || (disk.entry (l ++ [n])).isSome := by
  unfold Kernel.calls at h
  dsimp only at h
  rw [hl,Option.bind_some] at h
  split at h
  case h_1 st order hdir => exact ⟨st,order,hdir,(Option.some.inj h).symm⟩
  case h_2 => cases h

theorem opendir_eq {path : FilePath} {l : Location} {st : DirStat} {order : List Text}
    (hl : kernel.locate path = some l) (h : disk.entry l = some (.directory st order)) :
    (kernel.calls disk).opendir path =
      some (order.filter fun n => isDots n || (disk.entry (l ++ [n])).isSome) := by
  unfold Kernel.calls
  dsimp only
  rw [hl,Option.bind_some,h]

theorem listed_of_entry {path : FilePath} {l : Location} (hl : kernel.locate path = some l)
    (h : (kernel.calls disk).Lists path tree) {n : Text} (hn : disk.entry (l ++ [n]) ≠ none) :
    ∃ name ∈ tree.names, name.text = n := by
  obtain ⟨dNames,hopen,hnames⟩ := h
  obtain ⟨st,order,hdir,rfl⟩ := opendir_directory hl hopen
  obtain ⟨hdots,st',order',hdir',hmem⟩ := disk.listed l n hn
  rw [hdir] at hdir'
  cases hdir'
  have hlisted : n ∈ tree.names.map EntryName.text := by
    rw [← hnames,List.mem_filter,List.mem_filter]
    refine ⟨⟨hmem,?_⟩,by rw [hdots]; rfl⟩
    rw [Option.isSome_iff_ne_none.mpr hn,Bool.or_true]
  exact List.mem_map.mp hlisted

theorem node_entry (hroot : kernel.locate root = some base)
    (h : (kernel.calls disk).Contains (root.pathOf dir) tree) :
    ∀ x ∈ tree.nodes dir, ∃ inode, disk.entry (spot base x.1) = some inode ∧
      inode.stat = nodeStat x.2 := by
  have hlocate : ∀ name : EntryName, kernel.locate ((root.pathOf dir).appended name.text) =
      some (spot base (dir ++ [name])) := by
    intro name
    rw [← FilePath.pathOf_snoc]
    exact locate_pathOf hroot _
  induction tree generalizing dir with
  | nil => exact fun x hx => absurd hx List.not_mem_nil
  | leaf name st rest ih =>
    intro x hx
    rcases List.mem_cons.mp hx with rfl | hx
    · exact lstat_entry (hlocate name) h.1
    · exact ih h.2 hlocate x hx
  | branch name st inside rest ihInside ih =>
    intro x hx
    rcases List.mem_cons.mp hx with rfl | hx
    · exact lstat_entry (hlocate name) h.1
    rcases List.mem_append.mp hx with hx | hx
    · have hcontains := h.2.1.2
      rw [← FilePath.pathOf_snoc] at hcontains
      refine ihInside hcontains (fun deeper => ?_) x hx
      rw [← FilePath.pathOf_snoc]
      exact locate_pathOf hroot _
    · exact ih h.2.2 hlocate x hx

theorem file_entry {x : FileNode} {st : FileStat} (hx : x.2 = .inl st)
    (h : ∃ inode, disk.entry (spot base x.1) = some inode ∧ inode.stat = nodeStat x.2) :
    ∃ st, disk.entry (spot base x.1) = some (.other st) := by
  obtain ⟨inode,hentry,hstat⟩ := h
  cases inode with
  | other st' => exact ⟨st',hentry⟩
  | directory st' order =>
    rw [hx] at hstat
    have hdir := st'.property
    rw [show st'.val = st.val from hstat,st.property] at hdir
    cases hdir

theorem directory_entry {x : FileNode} {st : DirStat} (hx : x.2 = .inr st)
    (h : ∃ inode, disk.entry (spot base x.1) = some inode ∧ inode.stat = nodeStat x.2) :
    ∃ st order, disk.entry (spot base x.1) = some (.directory st order) := by
  obtain ⟨inode,hentry,hstat⟩ := h
  cases inode with
  | directory st' order => exact ⟨st',order,hentry⟩
  | other st' =>
    rw [hx] at hstat
    have hother := st'.property
    rw [show st'.val = st.val from hstat,st.property] at hother
    cases hother

theorem node_of_entry (hroot : kernel.locate root = some base)
    (h : (kernel.calls disk).Holds (root.pathOf dir) tree) {below : Location}
    (hbelow : below ≠ []) (hentry : disk.entry (spot base dir ++ below) ≠ none) :
    ∃ x ∈ tree.nodes dir, spot base x.1 = spot base dir ++ below := by
  induction below generalizing dir tree with
  | nil => exact absurd rfl hbelow
  | cons n rest ih =>
    rw [← List.singleton_append,← List.append_assoc] at hentry ⊢
    have hn : disk.entry (spot base dir ++ [n]) ≠ none := by
      by_cases hrest : rest = []
      · rwa [hrest,List.append_nil] at hentry
      · obtain ⟨st,order,hdir⟩ := disk.directory_of_below hrest hentry
        rw [hdir]
        exact Option.some_ne_none _
    obtain ⟨name,hname,rfl⟩ := listed_of_entry (locate_pathOf hroot dir) h.1 hn
    rw [← spot_snoc] at hentry ⊢
    by_cases hrest : rest = []
    · rw [hrest,List.append_nil]
      obtain ⟨label,hmem⟩ := Forest.node_of_name hname dir
      exact ⟨_,hmem,rfl⟩
    obtain ⟨st,order,hdir⟩ := disk.directory_of_below hrest hentry
    rcases Forest.leaf_or_inside hname dir with ⟨label,hmem⟩ | ⟨inside,hmem⟩
    · obtain ⟨st',hother⟩ := file_entry rfl (node_entry hroot h.2 _ hmem)
      rw [hdir] at hother
      cases hother
    · obtain ⟨x,hx,hspot⟩ := ih (contains_insides h.2 _ hmem) hrest hentry
      exact ⟨x,Forest.nodes_of_insides hmem hx,hspot⟩

section removal
variable {after : Disk} {gone : List Location}

theorem lstat_kept (hafter : after.Without disk gone) {path : FilePath} {place : Location}
    (hplace : kernel.locate path = some place) (hout : place ∉ gone) :
    (kernel.calls after).lstat path = (kernel.calls disk).lstat path := by
  unfold Kernel.calls
  dsimp only
  rw [hplace,Option.bind_some,Option.bind_some,hafter.kept hout]

theorem lists_kept (hafter : after.Without disk gone)
    (hgone : ∀ l ∈ gone, ∃ st, disk.entry l = some (.other st)) {path : FilePath}
    {place : Location} (hplace : kernel.locate path = some place)
    (hnames : ∀ name ∈ tree.names, place ++ [name.text] ∉ gone)
    (h : (kernel.calls disk).Lists path tree) : (kernel.calls after).Lists path tree := by
  have hout : ∀ n, place ++ [n] ∉ gone := by
    intro n hmem
    obtain ⟨st,hother⟩ := hgone _ hmem
    have hne : disk.entry (place ++ [n]) ≠ none := by
      rw [hother]
      exact Option.some_ne_none _
    obtain ⟨name,hname,rfl⟩ := listed_of_entry hplace h hne
    exact hnames name hname hmem
  obtain ⟨dNames,hopen,hfilter⟩ := h
  obtain ⟨st,order,hdir,rfl⟩ := opendir_directory hplace hopen
  have hkept : place ∉ gone := by
    intro hmem
    obtain ⟨st',hother⟩ := hgone _ hmem
    rw [hdir] at hother
    cases hother
  refine ⟨_,opendir_eq hplace ((hafter.kept hkept).trans hdir),?_⟩
  simp only [hafter.kept (hout _)]
  exact hfilter

/-- Files outside of the tree make no difference. -/
theorem contains_kept (hafter : after.Without disk gone)
    (hgone : ∀ l ∈ gone, ∃ st, disk.entry l = some (.other st))
    (hroot : kernel.locate root = some base) (hout : ∀ x ∈ tree.nodes dir, spot base x.1 ∉ gone)
    (h : (kernel.calls disk).Contains (root.pathOf dir) tree) :
    (kernel.calls after).Contains (root.pathOf dir) tree := by
  have hlstat : ∀ (dir : List EntryName) (name : EntryName), spot base (dir ++ [name]) ∉ gone →
      (kernel.calls after).lstat ((root.pathOf dir).appended name.text) =
        (kernel.calls disk).lstat ((root.pathOf dir).appended name.text) := by
    intro dir name hkept
    rw [← FilePath.pathOf_snoc]
    exact lstat_kept hafter (locate_pathOf hroot _) hkept
  induction tree generalizing dir with
  | nil => exact trivial
  | leaf name st rest ih =>
    refine ⟨(hlstat dir name ?_).trans h.1,ih ?_ h.2⟩
    · exact hout _ List.mem_cons_self
    · exact fun x hx => hout x (List.mem_cons_of_mem _ hx)
  | branch name st inside rest ihInside ih =>
    have hinside : ∀ x ∈ inside.nodes (dir ++ [name]), spot base x.1 ∉ gone := fun x hx =>
      hout x (List.mem_cons_of_mem _ (List.mem_append_left _ hx))
    have hcontains := h.2.1
    rw [← FilePath.pathOf_snoc] at hcontains
    refine ⟨(hlstat dir name ?_).trans h.1,?_,ih ?_ h.2.2⟩
    · exact hout _ List.mem_cons_self
    · rw [← FilePath.pathOf_snoc]
      refine ⟨lists_kept hafter hgone (locate_pathOf hroot _) ?_ hcontains.1,
        ihInside hinside hcontains.2⟩
      intro deeper hdeeper
      obtain ⟨label,hmem⟩ := Forest.node_of_name hdeeper (dir ++ [name])
      rw [← spot_snoc]
      exact hinside _ hmem
    · exact fun x hx => hout x (List.mem_cons_of_mem _ (List.mem_append_right _ hx))

theorem holds_kept (hafter : after.Without disk gone)
    (hgone : ∀ l ∈ gone, ∃ st, disk.entry l = some (.other st))
    (hroot : kernel.locate root = some base) (hout : ∀ x ∈ tree.nodes dir, spot base x.1 ∉ gone)
    (h : (kernel.calls disk).Holds (root.pathOf dir) tree) :
    (kernel.calls after).Holds (root.pathOf dir) tree := by
  refine ⟨lists_kept hafter hgone (locate_pathOf hroot _) ?_ h.1,
    contains_kept hafter hgone hroot hout h.2⟩
  intro name hname
  obtain ⟨label,hmem⟩ := Forest.node_of_name hname dir
  rw [← spot_snoc]
  exact hout _ hmem

end removal

end holds

end MprMq.Base
