import MprMq.Base.DirName
set_option autoImplicit false

/-! `TPathUtil`: paths inside an archive, and when a relative path leads back. -/

namespace MprMq.Epub
open MprMq.Base

/-- `TStringUtils::Split` for one delimiting character. In the end `index` is `npos`, so the
rest is pushed, be it empty. -/
def split (str : Text) (delim : Char) : List Text := str.splitOn delim

/-- The answers of `find` and `rfind` go through an `int` here and below, so paths are shorter
than `2^31`. -/
def getParentPath (path : Text) : Text :=
  if 0 < path.length then
    let index :=
      if path[path.length-1]? = some '/' ∧ 1 < path.length then
        findLastUpTo isSeparator path (path.length-2)
      else findLast isSeparator path
    match index with
    | some i => path.take (i+1)
    | none => []
  else []

def parentBase (basePath : Text) : Text :=
  if 1 < basePath.length then
    match findLastUpTo isSeparator basePath (basePath.length-2) with
    | some i => basePath.take (i+1)
    | none => []
  else []

/-- `NormalizePath`; every call has a shorter path. -/
def normalizeLoop : Nat → Text → Text → Text × Text
  | 0, path, basePath => (path,basePath)
  | fuel+1, path, basePath =>
    if path = [] ∨ basePath = [] then (path,basePath)
    else
      match path.findIdx? isSeparator with
      | none => (path,basePath)
      | some obliqueIndex =>
        let firstComponent := path.take (obliqueIndex+1)
        if firstComponent = "./".toList ∨ firstComponent = "../".toList then
          normalizeLoop fuel (path.drop (obliqueIndex+1))
            (if firstComponent = "../".toList then parentBase basePath else basePath)
        else (path,basePath)

def normalizePath (path basePath : Text) : Text × Text := normalizeLoop path.length path basePath

def getAbsolutePath (path basePath : Text) : Text :=
  if basePath ≠ [] ∧ path ≠ [] then
    let completeBasePath :=
      if basePath[basePath.length-1]? = some '/' then basePath else basePath ++ ['/']
    let pathBody := if path[0]? = some '/' then path.drop 1 else path
    let (pathBody,completeBasePath) := normalizePath pathBody completeBasePath
    completeBasePath ++ pathBody
  else path

def reletiveLoop : List Text → Nat → List Text → List Text
  | [], _, pathCoponents => pathCoponents
  | component :: rest, i, pathCoponents =>
    reletiveLoop rest (i+1)
      (if i < pathCoponents.length ∧ component ≠ [] then
        if pathCoponents[i]? = some component then pathCoponents.set i []
        else "..".toList :: pathCoponents
      else pathCoponents)

def joinCoponents (reletivePath : Text) : List Text → Text
  | [] => reletivePath
  | component :: rest =>
    joinCoponents
      (if component = [] then reletivePath
      else if reletivePath = [] then component else reletivePath ++ '/' :: component) rest

def getReletivePath (completePath base : Text) : Text :=
  if base = [] then completePath
  else joinCoponents [] (reletiveLoop (split base '/') 0 (split completePath '/'))

def getExtension (path : Text) : Text :=
  match findLast isExtensionSeparator path with
  | some pos => path.drop (pos+1)
  | none => []

def getLastComponent (path : Text) : Text :=
  match findLast isSeparator path with
  | some pos => path.drop (pos+1)
  | none => path

def joinPath (parts : List Text) : Text := ['/'].intercalate parts

def dirPath (dirs : List Text) : Text := dirs.flatMap fun dir => dir ++ ['/']

/-- A name that no step of `NormalizePath` takes away. -/
structure Plain (part : Text) : Prop extends Name part where
  notCurrent : part ≠ kCurrentDirectory
  notParent : part ≠ kParentDirectory

theorem name_parent : Name kParentDirectory := ⟨by decide,by decide⟩

@[simp] theorem dirPath_nil : dirPath [] = [] := rfl

theorem dirPath_cons (dir : Text) (dirs : List Text) :
    dirPath (dir :: dirs) = dir ++ '/' :: dirPath dirs := by
  simp [dirPath]

theorem dirPath_concat (dirs : List Text) (dir : Text) :
    dirPath (dirs ++ [dir]) = dirPath dirs ++ dir ++ ['/'] := by
  simp [dirPath]

theorem dirPath_ne_nil {dirs : List Text} (h : dirs ≠ []) : dirPath dirs ≠ [] := by
  obtain ⟨dir,rest,rfl⟩ := List.exists_cons_of_ne_nil h
  simp [dirPath_cons]

theorem length_le_dirPath (dirs : List Text) : dirs.length ≤ (dirPath dirs).length := by
  induction dirs with
  | nil => exact Nat.le_refl 0
  | cons dir dirs ih =>
    simp only [dirPath_cons,List.length_cons,List.length_append]
    omega

theorem joinPath_cons {part : Text} {parts : List Text} (h : parts ≠ []) :
    joinPath (part :: parts) = part ++ '/' :: joinPath parts := by
  rw [joinPath,List.intercalate_cons_of_ne_nil h]
  simp [joinPath]

theorem joinPath_append (dirs : List Text) {parts : List Text} (h : parts ≠ []) :
    joinPath (dirs ++ parts) = dirPath dirs ++ joinPath parts := by
  induction dirs with
  | nil => rfl
  | cons dir dirs ih =>
    rw [List.cons_append,joinPath_cons (by simp [h]),ih,dirPath_cons]
    simp

theorem joinPath_ne_nil {parts : List Text} (h : ∀ part ∈ parts, part ≠ [])
    (hne : parts ≠ []) : joinPath parts ≠ [] := by
  obtain ⟨part,rest,rfl⟩ := List.exists_cons_of_ne_nil hne
  have hpart := h part List.mem_cons_self
  rcases rest with _ | ⟨next,rest⟩
  · simpa [joinPath] using hpart
  · simp [joinPath_cons]

theorem joinPath_head {part : Text} (parts : List Text) (h : Name part) :
    (joinPath (part :: parts))[0]? ≠ some '/' := by
  obtain ⟨c,cs,rfl⟩ := List.exists_cons_of_ne_nil h.ne_nil
  have hc : c ≠ '/' := fun heq => h.noSep (heq ▸ List.mem_cons_self)
  rcases parts with _ | ⟨next,parts⟩
  · simpa [joinPath] using hc
  · simpa [joinPath_cons] using hc

theorem split_joinPath {parts : List Text} (h : ∀ part ∈ parts, Name part) (hne : parts ≠ []) :
    split (joinPath parts) '/' = parts :=
  List.splitOn_intercalate '/' (fun part hpart => (h part hpart).noSep) hne

theorem split_dirPath {dirs : List Text} (h : ∀ dir ∈ dirs, Name dir) :
    split (dirPath dirs) '/' = dirs ++ [[]] := by
  have hjoin : dirPath dirs = joinPath (dirs ++ [[]]) := by
    rw [joinPath_append dirs (List.cons_ne_nil _ _)]
    simp [joinPath]
  rw [hjoin]
  refine List.splitOn_intercalate '/' (fun part hpart => ?_) (by simp)
  rcases List.mem_append.mp hpart with hdir | hnil
  · exact (h part hdir).noSep
  · simp [List.mem_singleton.mp hnil]

theorem joinPath_injective {parts more : List Text} (hparts : ∀ part ∈ parts, Name part)
    (hmore : ∀ part ∈ more, Name part) (hp : parts ≠ []) (hm : more ≠ [])
    (h : joinPath parts = joinPath more) : parts = more := by
  rw [← split_joinPath hparts hp,h,split_joinPath hmore hm]

section Climb

/-- What the first loop leaves: how often it puts `..` in front, and what it does not match. -/
def climb : List Text → List Text → Nat × List Text
  | [], own => (0,own)
  | _ :: _, [] => (0,[])
  | dir :: dirs, part :: own =>
    if part = dir then climb dirs own
    else ((climb dirs (part :: own)).1+1,(climb dirs (part :: own)).2)

def climbed (ups matched : Nat) (own : List Text) : List Text :=
  List.replicate ups kParentDirectory ++ (List.replicate matched [] ++ own)

theorem length_climbed (ups matched : Nat) (own : List Text) :
    (climbed ups matched own).length = ups+matched+own.length := by
  simp [climbed]; omega

theorem climbed_get (ups matched : Nat) (own : List Text) :
    (climbed ups matched own)[ups+matched]? = own.head? := by
  rw [climbed,List.getElem?_append_right (by simp),List.getElem?_append_right (by simp)]
  simp [List.head?_eq_getElem?]

theorem climbed_set (ups matched : Nat) (part : Text) (own : List Text) :
    (climbed ups matched (part :: own)).set (ups+matched) [] = climbed ups (matched+1) own := by
  rw [climbed,List.set_append_right _ _ (by simp),List.set_append_right _ _ (by simp)]
  simp [climbed,List.replicate_succ']

theorem climbed_up (ups matched : Nat) (own : List Text) :
    kParentDirectory :: climbed ups matched own = climbed (ups+1) matched own := by
  simp [climbed,List.replicate_succ]

theorem reletiveLoop_trailing (i : Nat) (coponents : List Text) :
    reletiveLoop [[]] i coponents = coponents := by
  simp [reletiveLoop]

/-- Once the path has come to its end the loop does nothing more. -/
theorem reletiveLoop_exhausted (dirs : List Text) {i : Nat} {coponents : List Text}
    (h : coponents.length ≤ i) : reletiveLoop (dirs ++ [[]]) i coponents = coponents := by
  induction dirs generalizing i with
  | nil => exact reletiveLoop_trailing i coponents
  | cons dir dirs ih =>
    rw [List.cons_append,reletiveLoop,if_neg (by omega)]
    exact ih (by omega)

theorem reletiveLoop_climb {dirs : List Text} (h : ∀ dir ∈ dirs, Name dir) (ups matched : Nat)
    (own : List Text) : ∃ matched',
      reletiveLoop (dirs ++ [[]]) (ups+matched) (climbed ups matched own) =
        climbed (ups+(climb dirs own).1) matched' (climb dirs own).2 := by
  induction dirs generalizing ups matched own with
  | nil => exact ⟨matched,reletiveLoop_trailing _ _⟩
  | cons dir dirs ih =>
    have hdir := (h dir List.mem_cons_self).ne_nil
    have ih := ih fun d hd => h d (List.mem_cons_of_mem dir hd)
    cases own with
    | nil =>
      refine ⟨matched,?_⟩
      rw [reletiveLoop_exhausted (dir :: dirs) (by simp [length_climbed])]
      rfl
    | cons part own =>
      rw [List.cons_append,reletiveLoop,
        if_pos ⟨by simp only [length_climbed,List.length_cons]; omega,hdir⟩,climbed_get]
      simp only [List.head?_cons,Option.some.injEq,climb]
      split
      case isTrue =>
        rw [climbed_set,Nat.add_assoc]
        exact ih ups (matched+1) own
      case isFalse =>
        obtain ⟨matched',hloop⟩ := ih (ups+1) matched (part :: own)
        refine ⟨matched',?_⟩
        have hclimbed := climbed_up ups matched (part :: own)
        rw [kParentDirectory] at hclimbed
        rw [hclimbed,Nat.add_right_comm ups matched 1,hloop]
        congr 1
        omega

theorem joinPath_concat (parts : List Text) {part : Text} (hne : parts ≠ []) :
    joinPath (parts ++ [part]) = joinPath parts ++ '/' :: part := by
  induction parts with
  | nil => exact absurd rfl hne
  | cons first parts ih =>
    rcases eq_or_ne parts [] with rfl | hparts
    · simp [joinPath]
    · rw [List.cons_append,joinPath_cons (by simp),ih hparts,joinPath_cons hparts]
      simp

theorem joinCoponents_eq (start parts : List Text)
    (h : ∀ part ∈ start, part ≠ []) :
    joinCoponents (joinPath start) parts =
      joinPath (start ++ parts.filter fun part => part ≠ []) := by
  induction parts generalizing start with
  | nil => simp [joinCoponents]
  | cons part parts ih =>
    rw [joinCoponents]
    by_cases hpart : part = []
    · rw [if_pos hpart,ih start h]
      simp [hpart]
    · have hstart : ∀ p ∈ start ++ [part], p ≠ [] := by
        simpa [or_imp,forall_and,hpart] using h
      have hcons : start ++ part :: parts.filter (fun part => part ≠ []) =
          start ++ [part] ++ parts.filter fun part => part ≠ [] := by simp
      rw [if_neg hpart,List.filter_cons_of_pos (by simpa using hpart),hcons,← ih _ hstart]
      rcases eq_or_ne start [] with rfl | hne
      · simp [joinPath]
      · rw [if_neg (joinPath_ne_nil h hne),joinPath_concat start hne]

theorem climb_suffix (dirs own : List Text) : (climb dirs own).2 <:+ own := by
  induction dirs generalizing own with
  | nil => exact List.suffix_rfl
  | cons dir dirs ih =>
    cases own with
    | nil => exact List.suffix_rfl
    | cons part own =>
      rw [climb]
      split
      case isTrue => exact (ih own).trans (List.suffix_cons part own)
      case isFalse => exact ih (part :: own)

theorem climb_le (dirs own : List Text) : (climb dirs own).1 ≤ dirs.length := by
  induction dirs generalizing own with
  | nil => exact Nat.le_refl 0
  | cons dir dirs ih =>
    cases own with
    | nil => exact Nat.zero_le _
    | cons part own =>
      rw [climb]
      split
      case isTrue => exact Nat.le_succ_of_le (ih own)
      case isFalse => exact Nat.succ_le_succ (ih (part :: own))

theorem climb_common (above dirs own : List Text) :
    climb (above ++ dirs) (above ++ own) = climb dirs own := by
  induction above with
  | nil => rfl
  | cons dir above ih => simpa [climb] using ih

theorem climb_all {dirs : List Text} {part : Text} (own : List Text) :
    (climb dirs (part :: own)).1 = dirs.length ↔ part ∉ dirs := by
  induction dirs with
  | nil => simp [climb]
  | cons dir dirs ih =>
    rw [climb]
    split
    case isTrue heq =>
      have hle := climb_le dirs own
      simp only [List.length_cons,heq,List.mem_cons,true_or,not_true,iff_false]
      omega
    case isFalse hneq => simp [ih,hneq]

theorem climb_of_notMem {dirs : List Text} {part : Text} (own : List Text) (h : part ∉ dirs) :
    climb dirs (part :: own) = (dirs.length,part :: own) := by
  induction dirs with
  | nil => rfl
  | cons dir dirs ih =>
    simp only [List.mem_cons,not_or] at h
    rw [climb,if_neg h.1,ih h.2]
    rfl

theorem filter_climbed (ups matched : Nat) {own : List Text} (h : ∀ part ∈ own, part ≠ []) :
    ((climbed ups matched own).filter fun part => part ≠ []) =
      List.replicate ups kParentDirectory ++ own := by
  have hown : (own.filter fun part => part ≠ []) = own :=
    List.filter_eq_self.mpr (by simpa using h)
  have hup : kParentDirectory ≠ [] := name_parent.ne_nil
  rw [climbed,List.filter_append,List.filter_append,hown,List.filter_replicate,
    List.filter_replicate,if_pos (by simpa using hup),if_neg (by simp),List.nil_append]

/-- What `GetReletivePath` gives for the names of a path and of a directory. -/
theorem getReletivePath_eq {dirs path : List Text} (hdirs : ∀ dir ∈ dirs, Name dir)
    (hpath : ∀ part ∈ path, Name part) (hd : dirs ≠ []) (hp : path ≠ []) :
    getReletivePath (joinPath path) (dirPath dirs) =
      joinPath (List.replicate (climb dirs path).1 kParentDirectory ++ (climb dirs path).2) := by
  obtain ⟨matched,hloop⟩ := reletiveLoop_climb hdirs 0 0 path
  have hclimbed : climbed 0 0 path = path := rfl
  rw [Nat.zero_add,Nat.zero_add,hclimbed] at hloop
  rw [getReletivePath,if_neg (dirPath_ne_nil hd),split_dirPath hdirs,split_joinPath hpath hp,hloop]
  have hjoin := joinCoponents_eq []
    (climbed (climb dirs path).1 matched (climb dirs path).2) (by simp)
  have hnil : joinPath [] = [] := rfl
  rw [hnil,List.nil_append] at hjoin
  rw [hjoin,filter_climbed]
  exact fun part hpart => (hpath part ((climb_suffix dirs path).subset hpart)).ne_nil

end Climb

section Normalize

/-- A path that no call of `NormalizePath` shortens. -/
def Settled (path : Text) : Prop :=
  ∀ fuel basePath, normalizeLoop fuel path basePath = (path,basePath)

theorem findIdx_name {part : Text} (h : Name part) : part.findIdx? isSeparator = none := by
  simpa [List.findIdx?_eq_none_iff] using h.no_separator

theorem settled_name {part : Text} (h : Name part) : Settled part := by
  intro fuel basePath
  cases fuel with
  | zero => rfl
  | succ fuel =>
    rw [normalizeLoop,findIdx_name h]
    split
    case isTrue => rfl
    case isFalse => rfl

theorem findIdx_behind {part : Text} (h : Name part) (rest : Text) :
    (part ++ '/' :: rest).findIdx? isSeparator = some part.length := by
  rw [List.findIdx?_append,findIdx_name h]
  simp [List.findIdx?_cons,isSeparator]

theorem settled_behind {part : Text} (h : Plain part) (rest : Text) :
    Settled (part ++ '/' :: rest) := by
  intro fuel basePath
  cases fuel with
  | zero => rfl
  | succ fuel =>
    have htake : (part ++ '/' :: rest).take (part.length+1) = part ++ ['/'] := by
      rw [List.append_cons,List.take_left' (by simp)]
    have hcur : part ++ ['/'] ≠ "./".toList := fun heq =>
      h.notCurrent (List.append_cancel_right (heq : part ++ ['/'] = ['.'] ++ ['/']))
    have hpar : part ++ ['/'] ≠ "../".toList := fun heq =>
      h.notParent (List.append_cancel_right (heq : part ++ ['/'] = ['.','.'] ++ ['/']))
    rw [normalizeLoop,findIdx_behind h.toName]
    simp only [htake,hcur,hpar,or_self,if_false,ite_self]

theorem settled_joinPath {part : Text} (parts : List Text) (h : Plain part) :
    Settled (joinPath (part :: parts)) := by
  rcases eq_or_ne parts [] with rfl | hne
  · have hjoin : joinPath [part] = part := by simp [joinPath]
    rw [hjoin]
    exact settled_name h.toName
  · rw [joinPath_cons hne]
    exact settled_behind h _

theorem parentBase_concat (dirs : List Text) {dir : Text} (h : Name dir) :
    parentBase (dirPath (dirs ++ [dir])) = dirPath dirs := by
  have hpos := List.length_pos_iff.mpr h.ne_nil
  have hlen : (dirPath (dirs ++ [dir])).length = (dirPath dirs ++ dir).length+1 := by
    simp [dirPath_concat,Nat.add_assoc]
  have htake : (dirPath (dirs ++ [dir])).take ((dirPath (dirs ++ [dir])).length-2+1) =
      dirPath dirs ++ dir := by
    rw [hlen,dirPath_concat]
    refine List.take_left' ?_
    simp only [List.length_append]
    omega
  rw [parentBase,if_pos (by simp only [hlen,List.length_append]; omega),findLastUpTo,htake]
  rcases List.eq_nil_or_concat dirs with rfl | ⟨front,last,rfl⟩
  · rw [dirPath_nil,List.nil_append,findLast_eq_none.mpr h.no_separator]
  · rw [List.concat_eq_append,dirPath_concat front last,List.append_assoc,
      List.singleton_append,findLast_middle (dirPath front ++ last) rfl h.no_separator]
    dsimp only
    rw [dirPath_concat,dirPath_concat front last,List.append_assoc,
      List.take_left' (by simp only [List.length_append,List.length_singleton])]

/-- Each `../` in front takes one directory away. -/
theorem normalizeLoop_climb {dirs below : List Text} (h : ∀ dir ∈ below, Name dir)
    {path : Text} (hsettled : Settled path) {fuel : Nat} (hfuel : below.length ≤ fuel) :
    normalizeLoop fuel (dirPath (List.replicate below.length kParentDirectory) ++ path)
      (dirPath (dirs ++ below)) = (path,dirPath dirs) := by
  induction below using List.reverseRecOn generalizing fuel with
  | nil => simpa using hsettled fuel (dirPath dirs)
  | append_singleton below dir ih =>
    have hdir := h dir (by simp)
    have hbelow : ∀ d ∈ below, Name d := fun d hd => h d (by simp [hd])
    simp only [List.length_append,List.length_singleton] at hfuel
    obtain ⟨fuel,rfl⟩ : ∃ more, fuel = more+1 := ⟨fuel-1,by omega⟩
    have hpath : dirPath (List.replicate (below ++ [dir]).length kParentDirectory) ++ path =
        kParentDirectory ++ '/' ::
          (dirPath (List.replicate below.length kParentDirectory) ++ path) := by
      rw [List.length_append,List.length_singleton,List.replicate_succ,dirPath_cons]
      simp
    have hbase : dirPath (dirs ++ (below ++ [dir])) = dirPath ((dirs ++ below) ++ [dir]) := by
      rw [List.append_assoc]
    rw [hpath,hbase,normalizeLoop,findIdx_behind name_parent,
      if_neg (not_or.mpr ⟨by simp [kParentDirectory],dirPath_ne_nil (by simp)⟩)]
    have htake : (kParentDirectory ++ '/' ::
        (dirPath (List.replicate below.length kParentDirectory) ++ path)).take
          (kParentDirectory.length+1) = "../".toList := by
      rw [List.take_append]
      rfl
    have hdrop : (kParentDirectory ++ '/' ::
        (dirPath (List.replicate below.length kParentDirectory) ++ path)).drop
          (kParentDirectory.length+1) =
        dirPath (List.replicate below.length kParentDirectory) ++ path := by simp
    simp only [htake,hdrop,or_true,if_true,parentBase_concat _ hdir]
    exact ih hbelow (by omega)

end Normalize

/-- How a relative path that climbs and then goes down is made absolute. -/
theorem getAbsolutePath_climb (dirs below : List Text) (h : ∀ dir ∈ below, Name dir)
    {path : Text} (hsettled : Settled path) (hne : path ≠ []) (hsep : path[0]? ≠ some '/')
    (hbase : dirs ++ below ≠ []) :
    getAbsolutePath (dirPath (List.replicate below.length kParentDirectory) ++ path)
      (dirPath (dirs ++ below)) = dirPath dirs ++ path := by
  have hlast : (dirPath (dirs ++ below))[(dirPath (dirs ++ below)).length-1]? = some '/' := by
    rcases List.eq_nil_or_concat (dirs ++ below) with hnil | ⟨front,last,heq⟩
    · exact absurd hnil hbase
    · rw [heq,List.concat_eq_append,dirPath_concat]
      simp
  have hhead : (dirPath (List.replicate below.length kParentDirectory) ++ path)[0]? ≠
      some '/' := by
    cases below with
    | nil => simpa using hsep
    | cons dir below => simp [List.replicate_succ,dirPath_cons,kParentDirectory]
  rw [getAbsolutePath,if_pos ⟨dirPath_ne_nil hbase,by simp [hne]⟩]
  simp only [hlast,if_true,hhead,if_false]
  have hfuel : below.length ≤
      (dirPath (List.replicate below.length kParentDirectory) ++ path).length := by
    have hle := length_le_dirPath (List.replicate below.length kParentDirectory)
    rw [List.length_replicate] at hle
    rw [List.length_append]
    omega
  rw [normalizePath,normalizeLoop_climb h hsettled hfuel]

/-- The names of the path and of the directory agree down to one place, and the name of the path
there is none of the directories that are left. -/
def Addressable (dirs path : List Text) : Prop :=
  ∃ above below part own, dirs = above ++ below ∧ path = above ++ part :: own ∧ part ∉ below

theorem Addressable.climb_eq {dirs path : List Text} (h : Addressable dirs path) :
    ∃ above below own, own ≠ [] ∧ dirs = above ++ below ∧ path = above ++ own ∧
      climb dirs path = (below.length,own) := by
  obtain ⟨above,below,part,own,rfl,rfl,hpart⟩ := h
  refine ⟨above,below,part :: own,List.cons_ne_nil _ _,rfl,rfl,?_⟩
  rw [climb_common,climb_of_notMem own hpart]

theorem addressable_of_climb {dirs path own : List Text} {part : Text}
    (h : path = dirs.take (dirs.length-(climb dirs path).1) ++ part :: own) :
    Addressable dirs path := by
  let above := dirs.take (dirs.length-(climb dirs path).1)
  let below := dirs.drop (dirs.length-(climb dirs path).1)
  have hsplit : dirs = above ++ below := (List.take_append_drop _ _).symm
  refine ⟨above,below,part,own,hsplit,h,(climb_all own).mp ?_⟩
  have hle := climb_le dirs path
  have hcommon := climb_common above below (part :: own)
  rw [← hsplit,← h] at hcommon
  rw [← hcommon,List.length_drop]
  omega

theorem getAbsolutePath_ups {dirs rest : List Text} {ups : Nat} (hdirs : ∀ dir ∈ dirs, Name dir)
    (hd : dirs ≠ []) (hups : ups ≤ dirs.length) (hrest : ∀ part ∈ rest, Name part)
    (hne : rest ≠ []) (hsettled : Settled (joinPath rest)) :
    getAbsolutePath (joinPath (List.replicate ups kParentDirectory ++ rest)) (dirPath dirs) =
      joinPath (dirs.take (dirs.length-ups) ++ rest) := by
  let above := dirs.take (dirs.length-ups)
  let below := dirs.drop (dirs.length-ups)
  have hsplit : dirs = above ++ below := (List.take_append_drop _ _).symm
  have hlen : below.length = ups := by
    rw [List.length_drop]
    omega
  have hhead : (joinPath rest)[0]? ≠ some '/' := by
    obtain ⟨part,own,rfl⟩ := List.exists_cons_of_ne_nil hne
    exact joinPath_head own (hrest part List.mem_cons_self)
  have hjoin := joinPath_ne_nil (fun part hpart => (hrest part hpart).ne_nil) hne
  have hclimb := getAbsolutePath_climb above below
    (fun dir hdir => hdirs dir (List.mem_of_mem_drop hdir)) hsettled hjoin hhead (hsplit ▸ hd)
  rw [← hsplit,hlen] at hclimb
  rw [joinPath_append _ hne,joinPath_append _ hne]
  exact hclimb

section RoundTrip
variable {dirs path : List Text} (hdirs : ∀ dir ∈ dirs, Name dir)
  (hpath : ∀ part ∈ path, Plain part)

include hdirs in
theorem name_climbed {rest : List Text} (hrest : ∀ part ∈ rest, Name part) (n : Nat) :
    ∀ part ∈ dirs.take n ++ rest, Name part := by
  intro part hpart
  rcases List.mem_append.mp hpart with hdir | hown
  · exact hdirs part (List.mem_of_mem_take hdir)
  · exact hrest part hown

include hpath in
theorem name_path : ∀ part ∈ path, Name part := fun part hpart => (hpath part hpart).toName

include hdirs hpath in
/-- What comes back when something of the path is not matched. -/
theorem getAbsolutePath_rest {part : Text} {own : List Text} (hd : dirs ≠ [])
    (hne : path ≠ []) (hown : (climb dirs path).2 = part :: own) :
    getAbsolutePath (getReletivePath (joinPath path) (dirPath dirs)) (dirPath dirs) =
      joinPath (dirs.take (dirs.length-(climb dirs path).1) ++ part :: own) := by
  have hrest : ∀ p ∈ part :: own, Plain p :=
    fun p hp => hpath p ((climb_suffix dirs path).subset (hown ▸ hp))
  rw [getReletivePath_eq hdirs (name_path hpath) hd hne,hown]
  exact getAbsolutePath_ups hdirs hd (climb_le dirs path) (name_path hrest) (List.cons_ne_nil _ _)
    (settled_joinPath own (hrest part List.mem_cons_self))

include hdirs hpath in
/-- When all of the path is matched, a path comes back that ends in `..`, or none. -/
theorem getAbsolutePath_exhausted (hd : dirs ≠ []) (hne : path ≠ [])
    (hown : (climb dirs path).2 = []) :
    getAbsolutePath (getReletivePath (joinPath path) (dirPath dirs)) (dirPath dirs) ≠
      joinPath path := by
  have hle := climb_le dirs path
  have hnames := name_path hpath
  rw [getReletivePath_eq hdirs hnames hd hne,hown,List.append_nil]
  rcases hups : (climb dirs path).1 with _ | ups
  · have habs : getAbsolutePath (joinPath (List.replicate 0 kParentDirectory)) (dirPath dirs) =
        [] := by simp [getAbsolutePath,joinPath]
    rw [habs]
    exact (joinPath_ne_nil (fun part hpart => (hnames part hpart).ne_nil) hne).symm
  · have hjoin : joinPath [kParentDirectory] = kParentDirectory := by simp [joinPath]
    have hup : ∀ part ∈ [kParentDirectory], Name part := by simpa using name_parent
    rw [List.replicate_succ',getAbsolutePath_ups hdirs hd (by omega) hup (by simp)
      (hjoin ▸ settled_name name_parent)]
    intro heq
    have hsame := joinPath_injective (name_climbed hdirs hup _) hnames (by simp) hne heq
    exact (hpath kParentDirectory (hsame ▸ by simp)).notParent rfl

include hdirs hpath in
theorem Addressable.getAbsolutePath (h : Addressable dirs path) :
    getAbsolutePath (getReletivePath (joinPath path) (dirPath dirs)) (dirPath dirs) =
      joinPath path := by
  obtain ⟨above,below,own,hown,hsplit,hjoin,hclimb⟩ := h.climb_eq
  obtain ⟨part,own,rfl⟩ := List.exists_cons_of_ne_nil hown
  rcases eq_or_ne dirs [] with rfl | hd
  · simp [getReletivePath,Epub.getAbsolutePath]
  · rw [getAbsolutePath_rest hdirs hpath hd (by simp [hjoin]) (by rw [hclimb]),hclimb]
    have htake : dirs.take (dirs.length-below.length) = above := by
      rw [hsplit]
      exact List.take_left' (by simp)
    rw [htake,← hjoin]

include hdirs hpath in
theorem addressable_of_getAbsolutePath (hne : path ≠ [])
    (h : getAbsolutePath (getReletivePath (joinPath path) (dirPath dirs)) (dirPath dirs) =
      joinPath path) : Addressable dirs path := by
  rcases eq_or_ne dirs [] with rfl | hd
  · obtain ⟨part,own,rfl⟩ := List.exists_cons_of_ne_nil hne
    exact ⟨[],[],part,own,rfl,rfl,by simp⟩
  · rcases hown : (climb dirs path).2 with _ | ⟨part,own⟩
    · exact absurd h (getAbsolutePath_exhausted hdirs hpath hd hne hown)
    · have hrest : ∀ p ∈ part :: own, Name p := fun p hp =>
        name_path hpath p ((climb_suffix dirs path).subset (hown ▸ hp))
      rw [getAbsolutePath_rest hdirs hpath hd hne hown] at h
      exact addressable_of_climb
        (joinPath_injective (name_climbed hdirs hrest _) (name_path hpath) (by simp) hne h).symm

end RoundTrip

/-- `GetAbsolutePath` undoes `GetReletivePath` exactly for the paths that can be addressed
from the directory. -/
theorem getAbsolutePath_getReletivePath_iff {dirs path : List Text}
    (hdirs : ∀ dir ∈ dirs, Name dir) (hpath : ∀ part ∈ path, Plain part) (hne : path ≠ []) :
    getAbsolutePath (getReletivePath (joinPath path) (dirPath dirs)) (dirPath dirs) =
      joinPath path ↔ Addressable dirs path :=
  ⟨addressable_of_getAbsolutePath hdirs hpath hne,fun h => h.getAbsolutePath hdirs hpath⟩

theorem getAbsolutePath_sibling :
    getAbsolutePath
      (getReletivePath (joinPath ["a".toList,"c".toList]) (dirPath ["a".toList,"b".toList]))
      (dirPath ["a".toList,"b".toList]) = joinPath ["a".toList,"c".toList] := by
  have hdirs : ∀ dir ∈ ["a".toList,"b".toList], Name dir := by
    simp only [List.mem_cons,List.not_mem_nil,or_false,forall_eq_or_imp,forall_eq]
    exact ⟨⟨by decide,by decide⟩,⟨by decide,by decide⟩⟩
  have hpath : ∀ part ∈ ["a".toList,"c".toList], Plain part := by
    simp only [List.mem_cons,List.not_mem_nil,or_false,forall_eq_or_imp,forall_eq]
    exact ⟨⟨⟨by decide,by decide⟩,by decide,by decide⟩,⟨⟨by decide,by decide⟩,by decide,by decide⟩⟩
  exact (getAbsolutePath_getReletivePath_iff hdirs hpath (by decide)).mpr
    ⟨["a".toList],["b".toList],"c".toList,[],rfl,rfl,by decide⟩

end MprMq.Epub
