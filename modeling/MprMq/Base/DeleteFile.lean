import MprMq.Base.Disk
set_option autoImplicit false

/-! `DeleteFile`, and what it leaves of a tree of directories. -/

namespace MprMq.Base
open Lib FileEnumerator

/-- The calls of `DeleteFile`. Those that remove something change the world, and are true when they
return 0. -/
structure DeleteCalls (ω : Type) where
  dirCalls : ω → DirCalls
  unlink : ω → FilePath → Bool × ω
  rmdir : ω → FilePath → Bool × ω

structure DeleteState (ω : Type) where
  success : Bool
  /-- The top is in front. -/
  directories : List Text
  current : FilePath
  traversal : FileEnumerator
  world : ω

section source
variable {ω : Type}

def deleteEntry (os : DeleteCalls ω) (info : FileEnumerator.FileInfo) (s : DeleteState ω) :
    DeleteState ω :=
  if info.isDirectory then {s with directories := s.current.value :: s.directories}
  else
    let (success,world) := os.unlink s.world s.current
    {s with success, world}

def deleteTurn (os : DeleteCalls ω) (fuel : Nat) (s : DeleteState ω) :
    Option (Turn (DeleteState ω) (DeleteState ω)) :=
  if s.success ∧ s.current.value ≠ [] then do
    let s := deleteEntry os (← s.traversal.getInfo) s
    let (current,traversal) ← next (os.dirCalls s.world) fuel s.traversal
    return .next {s with current, traversal}
  else some (.done s)

def removeDirectories (os : DeleteCalls ω) : Bool → List Text → ω → Bool × ω
  | true, top :: directories, world =>
    let (success,world) := os.rmdir world (.ofText top)
    removeDirectories os success directories world
  | success, _, world => (success,world)

/-- `none` when the fuel does not do, or for a failed `DCHECK` or an index outside of the
entries. -/
def deleteFile (os : DeleteCalls ω) (fuel : Nat) (path : FilePath) (recursive : Bool)
    (world : ω) : Option (Bool × ω) :=
  match (os.dirCalls world).lstat path with
  | .error errno => some (errno = .enoent ∨ errno = .enotdir,world)
  | .ok fileInfo =>
    if ¬sIsDir fileInfo.stMode then some (os.unlink world path)
    else if ¬recursive then some (os.rmdir world path)
    else do
      let traversal ← FileEnumerator.create path true (kFiles ||| kDirectories ||| kShowSymLinks)
      let (current,traversal) ← next (os.dirCalls world) fuel traversal
      let s ← runLoop (deleteTurn os fuel) fuel ⟨true,[path.value],current,traversal,world⟩
      return removeDirectories os s.success s.directories s.world

end source

/-- The disk, and what it was like at each call of `rmdir`. -/
structure DiskWorld where
  disk : Disk
  rmdirs : List (FilePath × Disk)

def Kernel.deleteCalls (kernel : Kernel) : DeleteCalls DiskWorld where
  dirCalls := fun world => kernel.calls world.disk
  unlink := fun world path =>
    match (kernel.locate path).bind world.disk.unlink with
    | some disk => (true,{world with disk})
    | none => (false,world)
  rmdir := fun world path =>
    let rmdirs := world.rmdirs ++ [(path,world.disk)]
    match (kernel.locate path).bind world.disk.rmdir with
    | some disk => (true,⟨disk,rmdirs⟩)
    | none => (false,{world with rmdirs})

def EmptyAt (kernel : Kernel) (call : FilePath × Disk) : Prop :=
  ∃ l, kernel.locate call.1 = some l ∧ call.2.Empty l

structure Removable (kernel : Kernel) (disk : Disk) (stack : List (FilePath × Location)) :
    Prop where
  located : ∀ p ∈ stack, kernel.locate p.1 = some p.2
  directory : ∀ p ∈ stack, ∃ st order, disk.entry p.2 = some (.directory st order)
  below : ∀ p ∈ stack, ∀ place, place ≠ [] → disk.entry (p.2 ++ place) ≠ none →
    ∃ q ∈ stack, q.2 = p.2 ++ place
  order : stack.Pairwise fun p q => ¬p.2 <+: q.2

section stack
variable {kernel : Kernel} {disk after : Disk} {p : FilePath × Location}
  {stack : List (FilePath × Location)}

theorem Removable.top_empty (h : Removable kernel disk (p :: stack)) : disk.Empty p.2 := by
  refine ⟨h.directory p List.mem_cons_self,fun place hplace => ?_⟩
  by_contra hne
  obtain ⟨q,hq,heq⟩ := h.below p List.mem_cons_self place hplace hne
  rcases List.mem_cons.mp hq with rfl | hq
  · exact hplace (List.self_eq_append_right.mp heq)
  · exact (List.pairwise_cons.mp h.order).1 q hq (heq ▸ List.prefix_append _ _)

theorem Removable.pop (h : Removable kernel disk (p :: stack))
    (hafter : after.Without disk [p.2]) : Removable kernel after stack := by
  obtain ⟨hp,horder⟩ := List.pairwise_cons.mp h.order
  constructor
  case located => exact fun q hq => h.located q (List.mem_cons_of_mem _ hq)
  case directory =>
    intro q hq
    have hother : q.2 ∉ [p.2] := by
      rw [List.mem_singleton]
      exact fun heq => hp q hq (heq ▸ List.prefix_rfl)
    rw [hafter.kept hother]
    exact h.directory q (List.mem_cons_of_mem _ hq)
  case below =>
    intro q hq place hplace hne
    obtain ⟨hother,hentry⟩ := hafter.of_ne hne
    obtain ⟨r,hr,heq⟩ := h.below q (List.mem_cons_of_mem _ hq) place hplace hentry
    rcases List.mem_cons.mp hr with rfl | hr
    · exact absurd (List.mem_singleton.mpr heq.symm) hother
    · exact ⟨r,hr,heq⟩
  case order => exact horder

theorem removeDirectories_all (h : Removable kernel disk stack) (rmdirs : List (FilePath × Disk))
    (hrmdirs : ∀ call ∈ rmdirs, EmptyAt kernel call) :
    ∃ world, removeDirectories kernel.deleteCalls true (stack.map fun p => p.1.value)
        ⟨disk,rmdirs⟩ = (true,world) ∧
      world.disk.Without disk (stack.map Prod.snd) ∧
      ∀ call ∈ world.rmdirs, EmptyAt kernel call := by
  induction stack generalizing disk rmdirs with
  | nil => exact ⟨⟨disk,rmdirs⟩,rfl,.refl disk,hrmdirs⟩
  | cons p stack ih =>
    have hlocate := h.located p List.mem_cons_self
    obtain ⟨after,hrmdir,hafter⟩ := Disk.rmdir_entry h.top_empty
    have hcalls : ∀ call ∈ rmdirs ++ [(p.1,disk)], EmptyAt kernel call := by
      intro call hcall
      rcases List.mem_append.mp hcall with hcall | hcall
      · exact hrmdirs call hcall
      · rw [List.mem_singleton.mp hcall]
        exact ⟨p.2,hlocate,h.top_empty⟩
    obtain ⟨world,hrest,hworld,hempty⟩ := ih (h.pop hafter) _ hcalls
    refine ⟨world,?_,hafter.trans hworld,hempty⟩
    have hcall : kernel.deleteCalls.rmdir ⟨disk,rmdirs⟩ (.ofText p.1.value) =
        (true,⟨after,rmdirs ++ [(p.1,disk)]⟩) := by
      unfold Kernel.deleteCalls
      dsimp only
      rw [FilePath.ofText_value,hlocate,Option.bind_some,hrmdir]
    rw [List.map_cons,removeDirectories,hcall]
    exact hrest

end stack

def fileSpots (base : Location) (out : List FileNode) : List Location :=
  (out.filter fun x => x.2.isLeft).map fun x => spot base x.1

def directoriesOf (out : List FileNode) : List FileNode := out.filter fun x => x.2.isRight

structure TreeAt (kernel : Kernel) (disk : Disk) (root : FilePath) (base : Location)
    (tree : FileTree) : Prop where
  located : kernel.locate root = some base
  holds : (kernel.calls disk).Holds root.stripTrailingSeparators tree
  distinct : tree.Distinct

/-- The files among the entries that have been returned are gone, and the directories are on the
stack above the root. -/
structure Cleared (disk : Disk) (root : FilePath) (base : Location) (out : List FileNode)
    (s : DeleteState DiskWorld) : Prop where
  success : s.success = true
  disk : s.world.disk.Without disk (fileSpots base out)
  rmdirs : s.world.rmdirs = []
  directories : s.directories = ((directoriesOf out).map fun x =>
    (root.stripTrailingSeparators.pathOf x.1).value).reverse ++ [root.value]

theorem TreeAt.stripped {kernel : Kernel} {disk : Disk} {root : FilePath} {base : Location}
    {tree : FileTree} (h : TreeAt kernel disk root base tree) :
    kernel.locate root.stripTrailingSeparators = some base :=
  (locate_strip kernel root).trans h.located

theorem TreeAt.directory {kernel : Kernel} {disk : Disk} {root : FilePath} {base : Location}
    {tree : FileTree} (h : TreeAt kernel disk root base tree) :
    ∃ st order, disk.entry base = some (.directory st order) := by
  obtain ⟨dNames,hopen,-⟩ := h.holds.1
  obtain ⟨st,order,hdir,-⟩ := opendir_directory h.stripped hopen
  exact ⟨st,order,hdir⟩

section entries
variable {kernel : Kernel} {disk : Disk} {root : FilePath} {base : Location} {tree : FileTree}
  {out listed : List FileNode} {pending : List (List EntryName × FileTree)} {x : FileNode}
  {s : DeleteState DiskWorld}

theorem fileSpots_append (base : Location) (out more : List FileNode) :
    fileSpots base (out ++ more) = fileSpots base out ++ fileSpots base more := by
  rw [fileSpots,List.filter_append,List.map_append]
  rfl

theorem mem_fileSpots {l : Location} :
    l ∈ fileSpots base out ↔ ∃ y ∈ out, y.2.isLeft = true ∧ spot base y.1 = l := by
  simp only [fileSpots,List.mem_map,List.mem_filter,and_assoc]

theorem deleteEntry_traversal {ω : Type} (os : DeleteCalls ω) (info : FileEnumerator.FileInfo)
    (s : DeleteState ω) : (deleteEntry os info s).traversal = s.traversal := by
  rw [deleteEntry]
  split <;> rfl

theorem Cleared.entry (h : Cleared disk root base out s)
    (hlocate : kernel.locate s.current = some (spot base x.1))
    (hcurrent : s.current = root.stripTrailingSeparators.pathOf x.1)
    (hentry : ∀ st, x.2 = .inl st → ∃ st, s.world.disk.entry (spot base x.1) = some (.other st)) :
    Cleared disk root base (out ++ [x]) (deleteEntry kernel.deleteCalls (nodeInfo x) s) ∧
      (deleteEntry kernel.deleteCalls (nodeInfo x) s).world.disk.Without s.world.disk
        (fileSpots base [x]) := by
  obtain ⟨place,st | st⟩ := x
  · obtain ⟨st',hother⟩ := hentry st rfl
    obtain ⟨after,hunlink,hafter⟩ := Disk.unlink_entry hother
    have hcall : kernel.deleteCalls.unlink s.world s.current =
        (true,{s.world with disk := after}) := by
      unfold Kernel.deleteCalls
      dsimp only
      rw [hlocate,Option.bind_some,hunlink]
    have hbody : deleteEntry kernel.deleteCalls (nodeInfo (place,.inl st)) s =
        {s with success := true, world := {s.world with disk := after}} := by
      have hfile : (nodeInfo (place,.inl st)).isDirectory = false := st.property
      rw [deleteEntry,hfile,hcall]
      rfl
    rw [hbody]
    refine ⟨⟨rfl,?_,h.rmdirs,?_⟩,hafter⟩
    · rw [fileSpots_append]
      exact h.disk.trans hafter
    · have hout : directoriesOf (out ++ [(place,.inl st)]) = directoriesOf out :=
        (List.filter_append _ _).trans (List.append_nil _)
      rw [hout]
      exact h.directories
  · have hbody : deleteEntry kernel.deleteCalls (nodeInfo (place,.inr st)) s =
        {s with directories := s.current.value :: s.directories} := by
      have hdir : (nodeInfo (place,.inr st)).isDirectory = true := st.property
      rw [deleteEntry,if_pos hdir]
    rw [hbody]
    refine ⟨⟨h.success,?_,h.rmdirs,?_⟩,.refl _⟩
    · rw [fileSpots_append]
      exact h.disk.trans (.refl _)
    · have hout : directoriesOf (out ++ [(place,.inr st)]) =
          directoriesOf out ++ [(place,.inr st)] := List.filter_append _ _
      rw [hout,h.directories,hcurrent,List.map_append,List.reverse_append]
      rfl

theorem Tour.places_nodup {os : DirCalls} {r : FilePath} {enumerator : FileEnumerator}
    (h : Tour os r tree enumerator out listed pending) (hdistinct : tree.Distinct) :
    ((out ++ listed ++ pending.flatMap fun b => b.2.nodes b.1).map Prod.fst).Nodup :=
  (h.nodes.map Prod.fst).nodup_iff.mpr (Forest.places_nodup hdistinct)

theorem Tour.listed_node {os : DirCalls} {r : FilePath} {enumerator : FileEnumerator}
    (h : Tour os r tree enumerator out (x :: listed) pending) : x ∈ tree.nodes [] :=
  h.nodes.mem_iff.mp (List.mem_append_left _ (List.mem_append_right _ List.mem_cons_self))

theorem Tour.listed_new {os : DirCalls} {r : FilePath} {enumerator : FileEnumerator}
    (h : Tour os r tree enumerator out (x :: listed) pending) (hdistinct : tree.Distinct) :
    x.1 ∉ out.map Prod.fst := by
  have hplaces := h.places_nodup hdistinct
  rw [List.map_append,List.map_append,List.nodup_append',List.nodup_append'] at hplaces
  exact fun hmem => hplaces.1.2.2 hmem List.mem_cons_self

theorem Tour.after_entry {r : FilePath} {enumerator : FileEnumerator} {after : Disk}
    (h : Tour (kernel.calls disk) r tree enumerator out (x :: listed) pending)
    (hdistinct : tree.Distinct) (hr : kernel.locate r = some base)
    (hentry : ∀ st, x.2 = .inl st → ∃ st, disk.entry (spot base x.1) = some (.other st))
    (hafter : after.Without disk (fileSpots base [x])) :
    Tour (kernel.calls after) r tree enumerator out (x :: listed) pending := by
  have hgone : ∀ l ∈ fileSpots base [x], ∃ st, disk.entry l = some (.other st) := by
    intro l hl
    obtain ⟨y,hy,hfile,rfl⟩ := mem_fileSpots.mp hl
    rw [List.mem_singleton.mp hy] at hfile ⊢
    obtain ⟨st,hst⟩ := Sum.isLeft_iff.mp hfile
    exact hentry st hst
  have hkept : ∀ b ∈ pending, ∀ y ∈ b.2.nodes b.1, spot base y.1 ∉ fileSpots base [x] := by
    intro b hb y hy hmem
    obtain ⟨z,hz,-,hspot⟩ := mem_fileSpots.mp hmem
    rw [List.mem_singleton.mp hz] at hspot
    have hplaces := h.places_nodup hdistinct
    rw [List.map_append,List.nodup_append'] at hplaces
    have hlisted : x.1 ∈ (out ++ x :: listed).map Prod.fst :=
      List.mem_map_of_mem (List.mem_append_right _ List.mem_cons_self)
    have hpending : y.1 ∈ (pending.flatMap fun b => b.2.nodes b.1).map Prod.fst :=
      List.mem_map_of_mem (List.mem_flatMap.mpr ⟨b,hb,hy⟩)
    rw [← spot_injective base hspot] at hpending
    exact hplaces.2.2 hlisted hpending
  exact {h with holds := fun b hb => holds_kept hafter hgone hr (hkept b hb) (h.holds b hb)}

structure Deleting (kernel : Kernel) (disk : Disk) (root : FilePath) (base : Location)
    (tree : FileTree) (bound : Nat) (out : List FileNode) (s : DeleteState DiskWorld) :
    Prop where
  cleared : Cleared disk root base out s
  returned : NextDone (kernel.calls s.world.disk) root.stripTrailingSeparators tree bound out
    (s.current,s.traversal)

def EntriesDone (disk : Disk) (root : FilePath) (base : Location) (tree : FileTree)
    (s : DeleteState DiskWorld) : Prop :=
  ∃ out : List FileNode, Cleared disk root base out s ∧ out.Perm (tree.nodes []) ∧ Outwards out

theorem node_there (h : TreeAt kernel disk root base tree) (hx : x ∈ tree.nodes []) :
    ∃ inode, disk.entry (spot base x.1) = some inode ∧ inode.stat = nodeStat x.2 :=
  node_entry h.stripped h.holds.2 x hx

theorem Cleared.kept (hs : Cleared disk root base out s) (hx : x.1 ∉ out.map Prod.fst) :
    s.world.disk.entry (spot base x.1) = disk.entry (spot base x.1) := by
  refine hs.disk.kept fun hmem => ?_
  obtain ⟨y,hy,-,hspot⟩ := mem_fileSpots.mp hmem
  exact hx (spot_injective base hspot ▸ List.mem_map_of_mem hy)

/-- A turn handles the entry that has been returned, or there is none. -/
theorem deleteTurn_keeps (h : TreeAt kernel disk root base tree) (bound n : Nat)
    (s : DeleteState DiskWorld) (hs : ∃ out, Deleting kernel disk root base tree bound out s ∧
      (tree.nodes []).length-out.length = n) :
    ∃ o, (∀ fuel, bound+1 ≤ fuel → deleteTurn kernel.deleteCalls fuel s = some o) ∧
      o.Meets (fun t => ∃ m < n, ∃ out, Deleting kernel disk root base tree bound out t ∧
        (tree.nodes []).length-out.length = m) (EntriesDone disk root base tree) := by
  obtain ⟨out,hs,rfl⟩ := hs
  rcases hs.returned with ⟨x,listed,pending,hpath,hbound,htour⟩ | ⟨hpath,htour⟩
  · dsimp only at hpath htour
    have hcurrent : s.current.value ≠ [] := by
      obtain ⟨dir,name,hplace,-⟩ := htour.places x List.mem_cons_self
      rw [hpath,hplace]
      exact FilePath.pathOf_ne_nil _ dir name
    have hentry : ∀ st, x.2 = .inl st →
        ∃ st, s.world.disk.entry (spot base x.1) = some (.other st) := by
      intro st hst
      rw [hs.cleared.kept (htour.listed_new h.distinct)]
      exact file_entry hst (node_there h htour.listed_node)
    have hlocate : kernel.locate s.current = some (spot base x.1) := by
      rw [hpath]
      exact locate_pathOf h.stripped x.1
    obtain ⟨hcleared,hafter⟩ := hs.cleared.entry hlocate hpath hentry
    have hadvance := (htour.after_entry h.distinct h.stripped hentry hafter).advance
    obtain ⟨⟨current,traversal⟩,hdone,hnext⟩ := next_returns hadvance hbound
    refine ⟨.next {deleteEntry kernel.deleteCalls (nodeInfo x) s with current, traversal},?_,?_⟩
    · intro fuel hfuel
      have hinfo := htour.turn_listed.2
      rw [deleteTurn,if_pos ⟨hs.cleared.success,hcurrent⟩,hinfo,Option.bind_eq_bind,
        Option.bind_some]
      dsimp only
      rw [deleteEntry_traversal]
      change Option.bind (next (kernel.calls _) fuel s.traversal) _ = _
      rw [hnext fuel hfuel]
      rfl
    · have hlength := htour.nodes.length_eq
      simp only [List.length_append,List.length_cons] at hlength
      refine ⟨_,?_,out ++ [x],⟨⟨hcleared.success,hcleared.disk,hcleared.rmdirs,
        hcleared.directories⟩,hdone⟩,rfl⟩
      rw [List.length_append,List.length_singleton]
      omega
  · refine ⟨.done s,fun fuel _ => ?_,?_⟩
    · have hempty : s.current.value = [] := congrArg FilePath.value hpath
      rw [deleteTurn,if_neg fun hgo => hgo.2 hempty]
    · refine ⟨out,hs.cleared,?_,htour.order⟩
      have hnodes := htour.nodes
      rwa [List.flatMap_nil,List.append_nil,List.append_nil] at hnodes

def stackOf (root : FilePath) (base : Location) (out : List FileNode) :
    List (FilePath × Location) :=
  ((directoriesOf out).map fun x =>
    (root.stripTrailingSeparators.pathOf x.1,spot base x.1)).reverse ++ [(root,base)]

theorem mem_stackOf {p : FilePath × Location} : p ∈ stackOf root base out ↔
    (∃ y ∈ out, y.2.isRight = true ∧
      (root.stripTrailingSeparators.pathOf y.1,spot base y.1) = p) ∨ p = (root,base) := by
  simp only [stackOf,directoriesOf,List.mem_append,List.mem_reverse,List.mem_map,List.mem_filter,
    List.mem_singleton,and_assoc]

theorem Cleared.stack (hs : Cleared disk root base out s) :
    s.directories = (stackOf root base out).map fun p => p.1.value := by
  rw [hs.directories,stackOf,List.map_append,List.map_reverse,List.map_map]
  rfl

theorem on_stack (h : TreeAt kernel disk root base tree) (hs : Cleared disk root base out s)
    (hperm : out.Perm (tree.nodes [])) {below : Location} (hbelow : below ≠ [])
    (hentry : s.world.disk.entry (base ++ below) ≠ none) :
    ∃ p ∈ stackOf root base out, p.2 = base ++ below := by
  obtain ⟨hkept,hthere⟩ := hs.disk.of_ne hentry
  have hroot : spot base [] = base := List.append_nil base
  rw [← hroot] at hthere
  obtain ⟨x,hx,hspot⟩ := node_of_entry h.stripped h.holds hbelow hthere
  rw [hroot] at hspot
  have hout := hperm.mem_iff.mpr hx
  refine ⟨_,mem_stackOf.mpr (.inl ⟨x,hout,?_,rfl⟩),hspot⟩
  cases hfile : x.2 with
  | inr st => rfl
  | inl st => exact absurd (mem_fileSpots.mpr ⟨x,hout,by rw [hfile]; rfl,hspot⟩) hkept

theorem not_root (h : Outwards out) (hx : x ∈ out) : ¬spot base x.1 <+: base := by
  intro hplace
  obtain ⟨pre,post,rfl⟩ := List.append_of_mem hx
  obtain ⟨dir,name,hsnoc,-⟩ := h pre x post rfl
  have hlength := hplace.length_le
  rw [spot,hsnoc,List.length_append,List.length_map,List.length_append,
    List.length_singleton] at hlength
  omega

theorem stack_there (h : TreeAt kernel disk root base tree) (hs : Cleared disk root base out s)
    (hperm : out.Perm (tree.nodes [])) (horder : Outwards out) {p : FilePath × Location}
    (hp : p ∈ stackOf root base out) :
    ∃ st order, s.world.disk.entry p.2 = some (.directory st order) := by
  have hnodup : (out.map Prod.fst).Nodup :=
    (hperm.map Prod.fst).nodup_iff.mpr (Forest.places_nodup h.distinct)
  rcases mem_stackOf.mp hp with ⟨x,hx,hdir,rfl⟩ | rfl
  · obtain ⟨st,hst⟩ := Sum.isRight_iff.mp hdir
    have hkept : spot base x.1 ∉ fileSpots base out := by
      intro hmem
      obtain ⟨y,hy,hfile,hspot⟩ := mem_fileSpots.mp hmem
      have hsame := List.inj_on_of_nodup_map hnodup hy hx (spot_injective base hspot)
      rw [hsame,hst] at hfile
      cases hfile
    dsimp only
    rw [hs.disk.kept hkept]
    exact directory_entry hst (node_there h (hperm.mem_iff.mp hx))
  · have hkept : base ∉ fileSpots base out := by
      intro hmem
      obtain ⟨y,hy,-,hspot⟩ := mem_fileSpots.mp hmem
      exact not_root horder hy (by rw [hspot])
    dsimp only
    rw [hs.disk.kept hkept]
    exact h.directory

theorem removable (h : TreeAt kernel disk root base tree) (hs : Cleared disk root base out s)
    (hperm : out.Perm (tree.nodes [])) (horder : Outwards out) :
    Removable kernel s.world.disk (stackOf root base out) := by
  constructor
  case located =>
    intro p hp
    rcases mem_stackOf.mp hp with ⟨x,-,-,rfl⟩ | rfl
    · exact locate_pathOf h.stripped x.1
    · exact h.located
  case directory => exact fun p hp => stack_there h hs hperm horder hp
  case below =>
    intro p hp place hplace hentry
    have hbase : ∃ above, p.2 = base ++ above := by
      rcases mem_stackOf.mp hp with ⟨x,-,-,rfl⟩ | rfl
      · exact ⟨_,rfl⟩
      · exact ⟨[],(List.append_nil base).symm⟩
    obtain ⟨above,habove⟩ := hbase
    rw [habove,List.append_assoc] at hentry ⊢
    exact on_stack h hs hperm (List.append_ne_nil_of_right_ne_nil _ hplace) hentry
  case order =>
    rw [stackOf,List.pairwise_append]
    refine ⟨?_,List.pairwise_singleton _ _,?_⟩
    · rw [List.pairwise_reverse,List.pairwise_map]
      have hnodup : (out.map Prod.fst).Nodup :=
        (hperm.map Prod.fst).nodup_iff.mpr (Forest.places_nodup h.distinct)
      exact ((horder.pairwise hnodup).filter _).imp fun hnot hplace => hnot (within_of_spot hplace)
    · intro p hp q hq
      rw [List.mem_reverse] at hp
      obtain ⟨x,hx,rfl⟩ := List.mem_map.mp hp
      rw [List.mem_singleton.mp hq]
      exact not_root horder (List.mem_of_mem_filter hx)

/-- The tree is gone with its root, all else is as it was, and every directory was empty when it
was removed. -/
structure Removed (kernel : Kernel) (disk : Disk) (base : Location) (world : DiskWorld) :
    Prop where
  gone : ∀ l, base <+: l → world.disk.entry l = none
  kept : ∀ l, ¬base <+: l → world.disk.entry l = disk.entry l
  empty : ∀ call ∈ world.rmdirs, EmptyAt kernel call

theorem removeDirectories_removes (h : TreeAt kernel disk root base tree)
    (hs : EntriesDone disk root base tree s) :
    ∃ world, removeDirectories kernel.deleteCalls s.success s.directories s.world =
      (true,world) ∧ Removed kernel disk base world := by
  obtain ⟨out,hcleared,hperm,horder⟩ := hs
  have hnone : ∀ call ∈ s.world.rmdirs, EmptyAt kernel call := by
    rw [hcleared.rmdirs]
    exact fun call hcall => absurd hcall List.not_mem_nil
  obtain ⟨world,hruns,hworld,hempty⟩ :=
    removeDirectories_all (removable h hcleared hperm horder) s.world.rmdirs hnone
  refine ⟨world,?_,?_,?_,hempty⟩
  · rw [hcleared.success,hcleared.stack]
    exact hruns
  · rintro l ⟨below,rfl⟩
    by_contra hne
    obtain ⟨hout,hentry⟩ := hworld.of_ne hne
    by_cases hbelow : below = []
    · rw [hbelow,List.append_nil] at hout
      exact hout (List.mem_map_of_mem (mem_stackOf.mpr (.inr rfl)))
    · obtain ⟨p,hp,hplace⟩ := on_stack h hcleared hperm hbelow hentry
      exact hout (hplace ▸ List.mem_map_of_mem hp)
  · intro l hl
    rw [hworld.kept,hcleared.disk.kept]
    · intro hmem
      obtain ⟨y,-,-,rfl⟩ := mem_fileSpots.mp hmem
      exact hl (List.prefix_append _ _)
    · intro hmem
      obtain ⟨p,hp,rfl⟩ := List.mem_map.mp hmem
      rcases mem_stackOf.mp hp with ⟨x,-,-,rfl⟩ | rfl
      · exact hl (List.prefix_append _ _)
      · exact hl List.prefix_rfl

end entries

/-- A recursive `DeleteFile` of a tree returns true, and the tree is all that goes. -/
theorem deleteFile_removes (kernel : Kernel) (disk : Disk) (root : FilePath) (base : Location)
    (tree : FileTree) (h : TreeAt kernel disk root base tree) :
    ∃ world, Removed kernel disk base world ∧ ∃ turns, ∀ fuel ≥ turns,
      deleteFile kernel.deleteCalls fuel root true ⟨disk,[]⟩ = some (true,world) := by
  obtain ⟨⟨current,traversal⟩,hdone,hnext⟩ :=
    next_returns (Tour.start h.holds) (Nat.le_refl _)
  have hstart : Deleting kernel disk root base tree (unread [([],tree)]) []
      ⟨true,[root.value],current,traversal,⟨disk,[]⟩⟩ := ⟨⟨rfl,.refl disk,rfl,rfl⟩,hdone⟩
  obtain ⟨s,hs,hloop⟩ := runLoop_ghost (deleteTurn kernel.deleteCalls) (unread [([],tree)]+1)
    (deleteTurn_keeps h (unread [([],tree)])) ⟨[],hstart,rfl⟩
  obtain ⟨world,hruns,hremoved⟩ := removeDirectories_removes h hs
  obtain ⟨st,order,hdir⟩ := h.directory
  have hlstat : (kernel.deleteCalls.dirCalls ⟨disk,[]⟩).lstat root = .ok st.val :=
    lstat_eq h.located hdir
  refine ⟨world,hremoved,unread [([],tree)]+(tree.nodes []).length+2,fun fuel hfuel => ?_⟩
  have hfirst : next (kernel.deleteCalls.dirCalls ⟨disk,[]⟩) fuel
      ⟨[],0,root,true,kFiles ||| kDirectories ||| kShowSymLinks,[],[root]⟩ =
        some (current,traversal) := hnext fuel (by omega)
  have hcreate : FileEnumerator.create root true (kFiles ||| kDirectories ||| kShowSymLinks) =
      some ⟨[],0,root,true,kFiles ||| kDirectories ||| kShowSymLinks,[],[root]⟩ := rfl
  have hless : (tree.nodes []).length-([] : List FileNode).length < fuel := by
    rw [List.length_nil]
    omega
  rw [deleteFile,hlstat]
  dsimp only
  rw [if_neg (not_not.mpr st.property),if_neg (not_not.mpr rfl),hcreate,Option.bind_eq_bind,
    Option.bind_some,hfirst,Option.bind_eq_bind,Option.bind_some]
  dsimp only
  rw [hloop fuel fuel (by omega) hless,Option.bind_eq_bind,Option.bind_some,hruns]
  rfl

def nestedDisk : Disk where
  entry := fun l =>
    if l = [] then some (.directory nestedDir ["r".toList])
    else if l = [] ++ ["r".toList] then some (.directory nestedDir [".".toList,"d".toList])
    else if l = ["r".toList] ++ ["d".toList] then
      some (.directory nestedDir ["a".toList,"..".toList])
    else if l = ["r".toList,"d".toList] ++ ["a".toList] then some (.other nestedFile)
    else none
  listed := by
    intro dir n hne
    split_ifs at hne with hnil hr hd ha
    · exact absurd hnil (List.append_ne_nil_of_right_ne_nil _ (List.cons_ne_nil _ _))
    · obtain ⟨rfl,hn⟩ := List.append_inj' hr rfl
      rw [List.singleton_inj.mp hn]
      exact ⟨by decide,_,_,rfl,by decide⟩
    · obtain ⟨rfl,hn⟩ := List.append_inj' hd rfl
      rw [List.singleton_inj.mp hn]
      exact ⟨by decide,_,_,rfl,by decide⟩
    · obtain ⟨rfl,hn⟩ := List.append_inj' ha rfl
      rw [List.singleton_inj.mp hn]
      exact ⟨by decide,_,_,rfl,by decide⟩
    · exact absurd rfl hne

def nestedKernel : Kernel := ⟨[],fun _ _ => .error .enoent,fun _ _ => false⟩

theorem deleteFile_removes_nested :
    ∃ world, Removed nestedKernel nestedDisk ["r".toList] world ∧ ∃ turns, ∀ fuel ≥ turns,
      deleteFile nestedKernel.deleteCalls fuel (.ofText "r//".toList) true ⟨nestedDisk,[]⟩ =
        some (true,world) :=
  deleteFile_removes nestedKernel nestedDisk (.ofText "r//".toList) ["r".toList] nestedTree
    ⟨rfl,⟨⟨_,rfl,rfl⟩,rfl,⟨⟨_,rfl,rfl⟩,rfl,trivial⟩,trivial⟩,
      List.not_mem_nil,⟨List.not_mem_nil,trivial⟩,trivial⟩

end MprMq.Base
