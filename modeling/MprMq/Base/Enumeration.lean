import MprMq.Base.FileEnumerator
import MprMq.Base.TreePaths
import MprMq.Lib.Forest
set_option autoImplicit false

/-! What `FileEnumerator::Next` returns of a finite tree of directories. -/

namespace MprMq.Base
open Lib FileEnumerator

/-- The `lstat` of what is no directory, a symbolic link too. -/
abbrev FileStat : Type := {st : StatBuf // sIsDir st.stMode = false}

abbrev DirStat : Type := {st : StatBuf // sIsDir st.stMode = true}

abbrev FileTree : Type := Forest EntryName FileStat DirStat

abbrev FileNode : Type := TreeNode EntryName FileStat DirStat

def nodeStat (x : FileStat ⊕ DirStat) : StatBuf := x.elim Subtype.val Subtype.val

def nodeInfo (node : FileNode) : FileEnumerator.FileInfo :=
  ⟨nodeStat node.2,.ofText ((node.1.getLast?.map EntryName.text).getD [])⟩

def isDots (dName : Text) : Bool := dName = kCurrentDirectory ∨ dName = kParentDirectory

namespace DirCalls

/-- The names that are read are those in the tree and the two that every directory has. -/
def Lists (os : DirCalls) (dir : FilePath) (tree : FileTree) : Prop :=
  ∃ dNames, os.opendir dir = some dNames ∧
    dNames.filter (fun dName => !isDots dName) = tree.names.map EntryName.text

def Contains (os : DirCalls) (dir : FilePath) : FileTree → Prop
  | .nil => True
  | .leaf name st rest => os.lstat (dir.appended name.text) = .ok st.val ∧ os.Contains dir rest
  | .branch name st inside rest =>
    os.lstat (dir.appended name.text) = .ok st.val ∧
      (os.Lists (dir.appended name.text) inside ∧ os.Contains (dir.appended name.text) inside) ∧
      os.Contains dir rest

def Holds (os : DirCalls) (dir : FilePath) (tree : FileTree) : Prop :=
  os.Lists dir tree ∧ os.Contains dir tree

end DirCalls

structure Everything (enumerator : FileEnumerator) : Prop where
  recursive : enumerator.recursive = true
  fileType : enumerator.fileType = kFiles ||| kDirectories ||| kShowSymLinks
  pattern : enumerator.pattern = []

def entryInfo (os : DirCalls) (dir : FilePath) (dName : Text) : FileEnumerator.FileInfo :=
  ⟨(os.lstat (dir.appended dName)).toOption.getD .zero,.ofText dName⟩

section reading
variable {os : DirCalls} {enumerator : FileEnumerator} {dir : FilePath} {n : Text}

theorem relative_append (dir : FilePath) (h : Name n) (hnul : nul ∉ n) :
    dir.append n = some (dir.appended n) :=
  dir.append_relative (by rw [cString_of_notMem hnul]; exact h.relative)

theorem Everything.has_eq (h : Everything enumerator) (flag : Nat) : enumerator.has flag =
    decide ((kFiles ||| kDirectories ||| kShowSymLinks) &&& flag ≠ 0) := by
  rw [has,h.fileType]

theorem readEntry_eq (h : Name n) (hnul : nul ∉ n) :
    readEntry os dir true n = some (entryInfo os dir n) := by
  rw [readEntry,relative_append dir h hnul]
  rfl

theorem shouldSkip_eq (h : Everything enumerator) (hname : Name n) (hnul : nul ∉ n) :
    enumerator.shouldSkip (dir.appended n) = isDots n := by
  have hdots : enumerator.has kIncludeDotDot = false := h.has_eq kIncludeDotDot
  rw [shouldSkip,dir.appended_baseName hname hnul,hdots,isDots]
  simp

theorem name_of_isDots (h : isDots n = true) : Name n ∧ nul ∉ n := by
  rcases of_decide_eq_true h with rfl | rfl
  · exact ⟨⟨by decide,by decide⟩,by decide⟩
  · exact ⟨⟨by decide,by decide⟩,by decide⟩

theorem takeEntry_dots (h : Everything enumerator) (hdots : isDots n = true) (st : StatBuf) :
    takeEntry os enumerator ⟨st,.ofText n⟩ = some enumerator := by
  obtain ⟨hname,hnul⟩ := name_of_isDots hdots
  rw [takeEntry,FilePath.ofText_of_notMem hnul,relative_append _ hname hnul,Option.bind_eq_bind,
    Option.bind_some,shouldSkip_eq h hname hnul,hdots]
  rfl

theorem takeEntry_entry (h : Everything enumerator) (name : EntryName) (st : StatBuf) :
    takeEntry os enumerator ⟨st,.ofText name.text⟩ = some {enumerator with
      pendingPaths := if sIsDir st.stMode then
          enumerator.rootPath.appended name.text :: enumerator.pendingPaths
        else enumerator.pendingPaths
      directoryEntries := enumerator.directoryEntries ++ [⟨st,.ofText name.text⟩]} := by
  have hdots : isDots name.text = false :=
    decide_eq_false (not_or.mpr ⟨name.notCurrent,name.notParent⟩)
  have hfiles : enumerator.has kFiles = true := h.has_eq kFiles
  have hdirectories : enumerator.has kDirectories = true := h.has_eq kDirectories
  rw [takeEntry,FilePath.ofText_of_notMem name.noNul,relative_append _ name.name name.noNul,
    Option.bind_eq_bind,Option.bind_some,shouldSkip_eq h name.name name.noNul,hdots]
  cases hdir : sIsDir st.stMode <;> simp [h.pattern,h.recursive,hfiles,hdirectories]

theorem nodeInfo_snoc (place : List EntryName) (name : EntryName) (x : FileStat ⊕ DirStat) :
    nodeInfo (place ++ [name],x) = ⟨nodeStat x,.ofText name.text⟩ := by
  rw [nodeInfo,List.getLast?_append,List.getLast?_singleton]
  rfl

theorem entryInfo_eq {st : StatBuf} (h : os.lstat (dir.appended n) = .ok st) :
    entryInfo os dir n = ⟨st,.ofText n⟩ := by
  rw [entryInfo,h]
  rfl

theorem takeEntries {root : FilePath} {place : List EntryName} {tree : FileTree}
    {dNames : List Text}
    (hnames : dNames.filter (fun dName => !isDots dName) = tree.names.map EntryName.text)
    (hcontains : os.Contains (root.pathOf place) tree) (h : Everything enumerator)
    (hroot : enumerator.rootPath = root.pathOf place) :
    (dNames.map (entryInfo os (root.pathOf place))).foldlM (takeEntry os) enumerator =
      some {enumerator with
        directoryEntries := enumerator.directoryEntries ++ (tree.top place).map nodeInfo
        pendingPaths := ((tree.insides place).map fun b => root.pathOf b.1).reverse ++
          enumerator.pendingPaths} := by
  induction dNames generalizing tree enumerator with
  | nil =>
    cases tree with
    | nil =>
      rw [Forest.top,Forest.insides,List.map_nil,List.map_nil,List.append_nil]
      rfl
    | leaf => cases hnames
    | branch => cases hnames
  | cons d dNames ih =>
    rw [List.map_cons,List.foldlM_cons]
    cases hdots : isDots d with
    | true =>
      rw [List.filter_cons_of_neg (by simp [hdots])] at hnames
      rw [entryInfo,takeEntry_dots h hdots]
      exact ih hnames hcontains h hroot
    | false =>
      rw [List.filter_cons_of_pos (by simp [hdots])] at hnames
      cases tree with
      | nil => cases hnames
      | leaf name st rest =>
        obtain ⟨rfl,hrest⟩ := List.cons_eq_cons.mp hnames
        rw [entryInfo_eq hcontains.1,takeEntry_entry h,Option.bind_eq_bind,Option.bind_some]
        refine (ih hrest hcontains.2 ?_ ?_).trans ?_
        · exact ⟨h.recursive,h.fileType,h.pattern⟩
        · exact hroot
        simp [st.property,Forest.top,Forest.insides,nodeInfo_snoc,nodeStat]
      | branch name st inside rest =>
        obtain ⟨rfl,hrest⟩ := List.cons_eq_cons.mp hnames
        rw [entryInfo_eq hcontains.1,takeEntry_entry h,Option.bind_eq_bind,Option.bind_some]
        refine (ih hrest hcontains.2.2 ?_ ?_).trans ?_
        · exact ⟨h.recursive,h.fileType,h.pattern⟩
        · exact hroot
        simp [st.property,Forest.top,Forest.insides,nodeInfo_snoc,nodeStat,FilePath.pathOf_snoc,
          hroot]

theorem readDirectory_eq {tree : FileTree} (h : os.Lists dir tree) :
    ∃ dNames : List Text, readDirectory os dir true = some (some (dNames.map (entryInfo os dir))) ∧
      dNames.filter (fun dName => !isDots dName) = tree.names.map EntryName.text := by
  obtain ⟨dNames,hopen,hnames⟩ := h
  refine ⟨dNames,?_,hnames⟩
  have hall : ∀ d ∈ dNames, readEntry os dir true d = some (entryInfo os dir d) := by
    intro d hd
    cases hdots : isDots d with
    | true => exact readEntry_eq (name_of_isDots hdots).1 (name_of_isDots hdots).2
    | false =>
      have hmem : d ∈ dNames.filter fun dName => !isDots dName :=
        List.mem_filter.mpr ⟨hd,by rw [hdots]; rfl⟩
      rw [hnames] at hmem
      obtain ⟨name,-,rfl⟩ := List.mem_map.mp hmem
      exact readEntry_eq name.name name.noNul
  have hentries : dNames.mapM (readEntry os dir true) = some (dNames.map (entryInfo os dir)) := by
    clear hopen hnames
    induction dNames with
    | nil => rfl
    | cons d dNames ih =>
      rw [List.mapM_cons,hall d List.mem_cons_self,
        ih fun d hd => hall d (List.mem_cons_of_mem _ hd)]
      rfl
  rw [readDirectory,hopen]
  dsimp only
  rw [hentries]
  rfl

end reading

/-- What has been returned, what is still to come of the directory that is listed, and the trees
of the directories on the stack. -/
structure Tour (os : DirCalls) (root : FilePath) (tree : FileTree) (enumerator : FileEnumerator)
    (out listed : List FileNode) (pending : List (List EntryName × FileTree)) : Prop where
  settings : Everything enumerator
  nodes : (out ++ listed ++ pending.flatMap fun b => b.2.nodes b.1).Perm (tree.nodes [])
  entries : enumerator.directoryEntries.drop enumerator.currentDirectoryEntry =
    listed.map nodeInfo
  stack : enumerator.pendingPaths.map FilePath.stripTrailingSeparators =
    pending.map fun b => root.pathOf b.1
  holds : ∀ b ∈ pending, os.Holds (root.pathOf b.1) b.2
  places : ∀ x ∈ listed, ∃ dir name, x.1 = dir ++ [name] ∧
    enumerator.rootPath = root.pathOf dir ∧ (dir = [] ∨ dir ∈ out.map Prod.fst)
  inside : ∀ b ∈ pending, b.1 = [] ∨ b.1 ∈ (out ++ listed).map Prod.fst
  order : Outwards out

def unread : List (List EntryName × FileTree) → Nat
  | [] => 0
  | b :: pending => b.2.branches+1+unread pending

theorem unread_append (front pending : List (List EntryName × FileTree)) :
    unread (front ++ pending) = unread front+unread pending := by
  induction front with
  | nil => rw [List.nil_append,unread,Nat.zero_add]
  | cons b front ih =>
    rw [List.cons_append,unread,unread,ih]
    omega

theorem unread_reverse (pending : List (List EntryName × FileTree)) :
    unread pending.reverse = unread pending := by
  induction pending with
  | nil => rfl
  | cons b pending ih =>
    rw [List.reverse_cons,unread_append,ih,unread,unread,unread]
    omega

theorem unread_insides (tree : FileTree) (place : List EntryName) :
    unread (tree.insides place) = tree.branches := by
  induction tree with
  | nil => rfl
  | leaf name st rest ih => exact ih
  | branch name st inside rest _ ih =>
    rw [Forest.insides,unread,ih,Forest.branches]
    dsimp only
    omega

section tour
variable {os : DirCalls} {root : FilePath} {tree : FileTree} {enumerator : FileEnumerator}
  {out listed : List FileNode} {pending : List (List EntryName × FileTree)}

theorem Tour.turn_listed {x : FileNode}
    (h : Tour os root tree enumerator out (x :: listed) pending) :
    nextTurn os enumerator = some (.done (root.pathOf x.1,enumerator)) ∧
      enumerator.getInfo = some (nodeInfo x) := by
  have hinfo : enumerator.getInfo = some (nodeInfo x) := by
    rw [getInfo,← List.head?_drop,h.entries]
    rfl
  obtain ⟨dir,name,hplace,hroot,-⟩ := h.places x List.mem_cons_self
  refine ⟨?_,hinfo⟩
  obtain ⟨place,stat⟩ := x
  dsimp only at hplace
  subst hplace
  have hfile : (nodeInfo (dir ++ [name],stat)).filename.value = name.text := by
    rw [nodeInfo_snoc]
    exact FilePath.ofText_of_notMem name.noNul
  rw [getInfo] at hinfo
  rw [nextTurn,hinfo]
  dsimp only
  rw [hfile,hroot,relative_append _ name.name name.noNul,FilePath.pathOf_snoc]
  rfl

theorem Tour.none_listed (h : Tour os root tree enumerator out [] pending) :
    enumerator.directoryEntries[enumerator.currentDirectoryEntry]? = none := by
  rw [← List.head?_drop,h.entries]
  rfl

theorem Tour.turn_end (h : Tour os root tree enumerator out [] []) :
    nextTurn os enumerator = some (.done (.ofText [],enumerator)) := by
  have hstack : enumerator.pendingPaths = [] := List.map_eq_nil_iff.mp h.stack
  rw [nextTurn,h.none_listed,hstack]

theorem pathOf_insides {place : List EntryName} (tree : FileTree) :
    ((tree.insides place).map fun b => root.pathOf b.1).map FilePath.stripTrailingSeparators =
      (tree.insides place).map fun b => root.pathOf b.1 := by
  induction tree with
  | nil => rfl
  | leaf name st rest ih => exact ih
  | branch name st inside rest _ ih =>
    rw [Forest.insides,List.map_cons,List.map_cons,ih,FilePath.pathOf_strip]

theorem contains_insides {place : List EntryName} (h : os.Contains (root.pathOf place) tree) :
    ∀ b ∈ tree.insides place, os.Holds (root.pathOf b.1) b.2 := by
  induction tree with
  | nil => exact fun b hb => absurd hb List.not_mem_nil
  | leaf name st rest ih => exact ih h.2
  | branch name st inside rest _ ih =>
    intro b hb
    rcases List.mem_cons.mp hb with rfl | hb
    · rw [FilePath.pathOf_snoc]
      exact h.2.1
    · exact ih h.2.2 b hb

theorem Tour.listing {b : List EntryName × FileTree} {moved : FileEnumerator}
    (h : Tour os root tree enumerator out [] (b :: pending)) (hsettings : Everything moved)
    (hentries : moved.directoryEntries.drop moved.currentDirectoryEntry =
      (b.2.top b.1).map nodeInfo)
    (hroot : moved.rootPath = root.pathOf b.1)
    (hstack : moved.pendingPaths.map FilePath.stripTrailingSeparators =
      ((b.2.insides b.1).reverse ++ pending).map fun c => root.pathOf c.1) :
    Tour os root tree moved out (b.2.top b.1) ((b.2.insides b.1).reverse ++ pending) := by
  have hinside : ∀ c ∈ (b.2.insides b.1).reverse ++ pending,
      c ∈ b.2.insides b.1 ∨ c ∈ pending := by
    intro c hc
    rw [List.mem_append,List.mem_reverse] at hc
    exact hc
  constructor
  case settings => exact hsettings
  case nodes =>
    refine List.Perm.trans ?_ h.nodes
    rw [List.append_nil,List.flatMap_append,List.flatMap_cons,List.append_assoc out,
      ← List.append_assoc (b.2.top b.1)]
    exact ((b.2.nodes_perm_reverse b.1).append_right _).append_left out
  case entries => exact hentries
  case stack => exact hstack
  case holds =>
    intro c hc
    rcases hinside c hc with hc | hc
    · exact contains_insides (h.holds b List.mem_cons_self).2 c hc
    · exact h.holds c (List.mem_cons_of_mem _ hc)
  case places =>
    intro x hx
    obtain ⟨name,hplace⟩ := Forest.place_of_top hx
    refine ⟨b.1,name,hplace,hroot,?_⟩
    have hdir := h.inside b List.mem_cons_self
    rwa [List.append_nil] at hdir
  case inside =>
    intro c hc
    rw [List.map_append,List.mem_append]
    rcases hinside c hc with hc | hc
    · exact .inr (.inr (Forest.top_of_insides hc))
    · have hdir := h.inside c (List.mem_cons_of_mem _ hc)
      rw [List.append_nil] at hdir
      exact hdir.imp_right .inl
  case order => exact h.order

theorem Tour.turn_pending {b : List EntryName × FileTree}
    (h : Tour os root tree enumerator out [] (b :: pending)) :
    ∃ moved, nextTurn os enumerator = some (.next moved) ∧
      Tour os root tree moved out (b.2.top b.1) ((b.2.insides b.1).reverse ++ pending) := by
  obtain ⟨top,rest,hstack,htop,hrest⟩ := List.map_eq_cons_iff.mp h.stack
  have hb := h.holds b List.mem_cons_self
  obtain ⟨dNames,hread,hnames⟩ := readDirectory_eq hb.1
  have hlinks : enumerator.has kShowSymLinks = true := h.settings.has_eq kShowSymLinks
  have hsettings : Everything ⟨[],0,root.pathOf b.1,enumerator.recursive,enumerator.fileType,
      enumerator.pattern,rest⟩ := ⟨h.settings.recursive,h.settings.fileType,h.settings.pattern⟩
  refine ⟨⟨(b.2.top b.1).map nodeInfo,0,root.pathOf b.1,enumerator.recursive,
    enumerator.fileType,enumerator.pattern,
    ((b.2.insides b.1).map fun b => root.pathOf b.1).reverse ++ rest⟩,?_,h.listing ?_ rfl rfl ?_⟩
  · have hhas : FileEnumerator.has ⟨enumerator.directoryEntries,
        enumerator.currentDirectoryEntry,root.pathOf b.1,enumerator.recursive,
        enumerator.fileType,enumerator.pattern,rest⟩ kShowSymLinks = true := hlinks
    rw [nextTurn,h.none_listed,hstack]
    dsimp only
    rw [htop,hhas,hread,Option.bind_eq_bind,Option.bind_some]
    dsimp only
    rw [takeEntries hnames hb.2 hsettings rfl]
    rfl
  · exact ⟨hsettings.recursive,hsettings.fileType,hsettings.pattern⟩
  · rw [List.map_append,List.map_append,hrest,List.map_reverse,List.map_reverse,pathOf_insides]

def NextDone (os : DirCalls) (root : FilePath) (tree : FileTree) (bound : Nat)
    (out : List FileNode) (r : FilePath × FileEnumerator) : Prop :=
  (∃ x listed pending, r.1 = root.pathOf x.1 ∧ unread pending ≤ bound ∧
    Tour os root tree r.2 out (x :: listed) pending) ∨
  r.1 = .ofText [] ∧ Tour os root tree r.2 out [] []

/-- A turn returns, or it reads one of the directories. -/
theorem nextTurn_keeps (bound n : Nat) (moved : FileEnumerator)
    (h : ∃ listed pending, Tour os root tree moved out listed pending ∧
      unread pending = n ∧ n ≤ bound) :
    ∃ o, (∀ fuel : Nat, 0 ≤ fuel → nextTurn os moved = some o) ∧
      o.Meets (fun further => ∃ m < n, ∃ listed pending,
        Tour os root tree further out listed pending ∧ unread pending = m ∧ m ≤ bound)
        (NextDone os root tree bound out) := by
  obtain ⟨listed,pending,htour,rfl,hbound⟩ := h
  cases listed with
  | cons x listed =>
    exact ⟨_,fun _ _ => htour.turn_listed.1,.inl ⟨x,listed,pending,rfl,hbound,htour⟩⟩
  | nil =>
    cases pending with
    | nil => exact ⟨_,fun _ _ => htour.turn_end,.inr ⟨rfl,htour⟩⟩
    | cons b pending =>
      obtain ⟨further,hturn,hfurther⟩ := htour.turn_pending
      have hless : unread ((b.2.insides b.1).reverse ++ pending) < unread (b :: pending) := by
        rw [unread_append,unread_reverse,unread_insides,unread]
        omega
      exact ⟨_,fun _ _ => hturn,_,hless,_,_,hfurther,rfl,by omega⟩

def advanced (enumerator : FileEnumerator) : FileEnumerator :=
  {enumerator with currentDirectoryEntry := enumerator.currentDirectoryEntry+1}

theorem next_returns {bound : Nat} (h : Tour os root tree (advanced enumerator) out listed pending)
    (hbound : unread pending ≤ bound) :
    ∃ r, NextDone os root tree bound out r ∧ ∀ fuel > bound,
      next os fuel enumerator = some r := by
  obtain ⟨r,hr,hruns⟩ := runLoop_ghost (fun _ => nextTurn os) 0 (nextTurn_keeps bound)
    ⟨listed,pending,h,rfl,hbound⟩
  exact ⟨r,hr,fun fuel hfuel => hruns 0 fuel (Nat.le_refl 0) (by omega)⟩

theorem Tour.advance {x : FileNode}
    (h : Tour os root tree enumerator out (x :: listed) pending) :
    Tour os root tree (advanced enumerator) (out ++ [x]) listed pending := by
  have hlist : out ++ [x] ++ listed = out ++ x :: listed := by
    rw [List.append_assoc,List.singleton_append]
  constructor
  case settings => exact ⟨h.settings.recursive,h.settings.fileType,h.settings.pattern⟩
  case nodes =>
    rw [hlist]
    exact h.nodes
  case entries =>
    have hentries := congrArg List.tail h.entries
    rwa [List.tail_drop] at hentries
  case stack => exact h.stack
  case holds => exact h.holds
  case places =>
    intro y hy
    obtain ⟨dir,name,hplace,hroot,hdir⟩ := h.places y (List.mem_cons_of_mem _ hy)
    refine ⟨dir,name,hplace,hroot,hdir.imp_right fun hmem => ?_⟩
    rw [List.map_append]
    exact List.mem_append_left _ hmem
  case inside =>
    rw [hlist]
    exact h.inside
  case order =>
    obtain ⟨dir,name,hplace,-,hdir⟩ := h.places x List.mem_cons_self
    exact h.order.snoc hplace hdir

theorem Tour.advance_end (h : Tour os root tree enumerator out [] []) :
    Tour os root tree (advanced enumerator) out [] [] := by
  have hentries := congrArg List.tail h.entries
  rw [List.tail_drop] at hentries
  exact ⟨⟨h.settings.recursive,h.settings.fileType,h.settings.pattern⟩,h.nodes,hentries,h.stack,
    h.holds,h.places,h.inside,h.order⟩

theorem nextCalls_succ {fuel : Nat} {path : FilePath} {moved : FileEnumerator}
    (h : next os fuel enumerator = some (path,moved)) (calls : Nat) :
    nextCalls os fuel (calls+1) enumerator =
      (nextCalls os fuel calls moved).map fun rest => (path,moved.getInfo) :: rest := by
  rw [nextCalls,h,Option.bind_eq_bind,Option.bind_some]
  dsimp only
  cases nextCalls os fuel calls moved <;> rfl

theorem nextCalls_end (h : Tour os root tree (advanced enumerator) out [] []) (later : Nat)
    {fuel : Nat} (hfuel : 0 < fuel) :
    nextCalls os fuel later enumerator = some (List.replicate later (.ofText [],none)) := by
  induction later generalizing enumerator with
  | zero => rfl
  | succ later ih =>
    obtain ⟨fuel,rfl⟩ := Nat.exists_eq_add_of_lt hfuel
    have hnext : next os (0+fuel+1) enumerator = some (.ofText [],advanced enumerator) :=
      runLoop_done h.turn_end _
    have hinfo : (advanced enumerator).getInfo = none := h.none_listed
    rw [nextCalls_succ hnext,ih h.advance_end,hinfo]
    rfl

/-- The calls return what is still to come, and then the empty path. -/
theorem nextCalls_eq {bound : Nat}
    (h : Tour os root tree (advanced enumerator) out listed pending)
    (hbound : unread pending ≤ bound) :
    ∃ order, (out ++ order).Perm (tree.nodes []) ∧ Outwards (out ++ order) ∧
      ∀ fuel > bound, ∀ later, nextCalls os fuel (order.length+later) enumerator =
        some (order.map (fun x => (root.pathOf x.1,some (nodeInfo x))) ++
          List.replicate later (.ofText [],none)) := by
  induction hleft : (tree.nodes []).length-out.length using Nat.strongRecOn
    generalizing enumerator out listed pending with
  | _ left ih =>
    obtain ⟨⟨path,moved⟩,hdone,hnext⟩ := next_returns h hbound
    rcases hdone with ⟨x,listed',pending',hpath,hbound',htour⟩ | ⟨hpath,htour⟩
    · have hlength := htour.nodes.length_eq
      simp only [List.length_append,List.length_cons] at hlength
      have hless : (tree.nodes []).length-(out ++ [x]).length < left := by
        rw [List.length_append,List.length_singleton]
        omega
      obtain ⟨order,hperm,horder,hcalls⟩ := ih _ hless htour.advance hbound' rfl
      rw [List.append_assoc,List.singleton_append] at hperm horder
      refine ⟨x :: order,hperm,horder,fun fuel hfuel later => ?_⟩
      have hinfo := htour.turn_listed.2
      dsimp only at hpath hinfo
      rw [List.length_cons,Nat.add_right_comm,nextCalls_succ (hnext fuel hfuel),
        hcalls fuel hfuel later,hinfo,hpath]
      rfl
    · refine ⟨[],?_,?_,fun fuel hfuel later => ?_⟩
      · have hnodes := htour.nodes
        rwa [List.flatMap_nil,List.append_nil] at hnodes
      · rw [List.append_nil]
        exact htour.order
      · dsimp only at hpath htour
        have hinfo : moved.getInfo = none := htour.none_listed
        rw [List.length_nil,Nat.zero_add]
        cases later with
        | zero => rfl
        | succ later =>
          rw [nextCalls_succ (hnext fuel hfuel),
            nextCalls_end htour.advance_end later (by omega),hinfo,hpath]
          rfl

end tour

/-- The calls return every node of the tree once and with its `GetInfo`, a directory in front of
what is inside it, and the empty path from then on. -/
def EnumeratesAll (os : DirCalls) (root : FilePath) (tree : FileTree) : Prop :=
  ∃ enumerator order,
    FileEnumerator.create root true (kFiles ||| kDirectories ||| kShowSymLinks) =
      some enumerator ∧
    order.Perm (tree.nodes []) ∧
    (order.map fun x => root.stripTrailingSeparators.pathOf x.1).Nodup ∧
    (∀ x ∈ order, (root.stripTrailingSeparators.pathOf x.1).value ≠ []) ∧
    (∀ pre x post, order = pre ++ x :: post →
      ∀ d ∈ order, d.1 <+: x.1 → d.1 ≠ x.1 → d ∈ pre) ∧
    ∃ turns, ∀ fuel ≥ turns, ∀ later, nextCalls os fuel (order.length+later) enumerator =
      some (order.map (fun x => (root.stripTrailingSeparators.pathOf x.1,some (nodeInfo x))) ++
        List.replicate later (.ofText [],none))

theorem Tour.start {os : DirCalls} {root : FilePath} {tree : FileTree}
    (h : os.Holds root.stripTrailingSeparators tree) :
    Tour os root.stripTrailingSeparators tree (advanced
      ⟨[],0,root,true,kFiles ||| kDirectories ||| kShowSymLinks,[],[root]⟩) [] []
      [([],tree)] := by
  constructor
  case settings => exact ⟨rfl,rfl,rfl⟩
  case nodes =>
    rw [List.flatMap_cons,List.flatMap_nil,List.append_nil,List.append_nil,List.nil_append]
  case entries => rfl
  case stack => rfl
  case holds =>
    intro b hb
    rw [List.mem_singleton.mp hb]
    exact h
  case places => exact fun x hx => absurd hx List.not_mem_nil
  case inside => exact fun b hb => .inl (by rw [List.mem_singleton.mp hb])
  case order => exact .nil

theorem path_ne_nil (root : FilePath) {order : List FileNode} (h : Outwards order) {x : FileNode}
    (hx : x ∈ order) : (root.pathOf x.1).value ≠ [] := by
  obtain ⟨pre,post,rfl⟩ := List.append_of_mem hx
  obtain ⟨dir,name,hplace,-⟩ := h pre x post rfl
  rw [hplace]
  exact root.pathOf_ne_nil dir name

/-- A finite tree that can be read is enumerated from its root. -/
theorem next_enumerates (os : DirCalls) (root : FilePath) (tree : FileTree)
    (hdistinct : tree.Distinct) (h : os.Holds root.stripTrailingSeparators tree) :
    EnumeratesAll os root tree := by
  obtain ⟨order,hperm,horder,hcalls⟩ := nextCalls_eq (Tour.start h) (Nat.le_refl _)
  rw [List.nil_append] at hperm horder
  have hnodup : (order.map Prod.fst).Nodup :=
    (hperm.map Prod.fst).nodup_iff.mpr (Forest.places_nodup hdistinct)
  refine ⟨_,order,rfl,hperm,?_,fun x hx => path_ne_nil _ horder hx,?_,_,hcalls⟩
  · have hpaths := hnodup.map root.stripTrailingSeparators.pathOf_injective
    rwa [List.map_map] at hpaths
  · intro pre x post heq d hd hplace hne
    exact horder.before hnodup heq hd hplace hne

def nestedDir : DirStat := ⟨{StatBuf.zero with stMode := 16877},by decide⟩

def nestedFile : FileStat := ⟨{StatBuf.zero with stMode := 33188, stSize := 5},by decide⟩

def nestedTree : FileTree :=
  .branch ⟨"d".toList,⟨by decide,by decide⟩,by decide,by decide,by decide⟩ nestedDir
    (.leaf ⟨"a".toList,⟨by decide,by decide⟩,by decide,by decide,by decide⟩ nestedFile .nil) .nil

def nestedCalls : DirCalls where
  opendir := fun path =>
    if path.value = "r".toList then some [".".toList,"d".toList,"..".toList]
    else if path.value = "r/d".toList then some ["..".toList,"a".toList,".".toList]
    else none
  lstat := fun path =>
    if path.value = "r/d".toList then .ok nestedDir
    else if path.value = "r/d/a".toList then .ok nestedFile
    else .error .enoent
  stat := fun _ => .error .enoent
  fnmatch := fun _ _ => false

theorem next_enumerates_nested : EnumeratesAll nestedCalls (.ofText "r/".toList) nestedTree :=
  next_enumerates nestedCalls (.ofText "r/".toList) nestedTree
    ⟨List.not_mem_nil,⟨List.not_mem_nil,trivial⟩,trivial⟩
    ⟨⟨_,rfl,rfl⟩,rfl,⟨⟨_,rfl,rfl⟩,rfl,trivial⟩,trivial⟩

end MprMq.Base
