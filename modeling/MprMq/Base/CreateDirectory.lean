import MprMq.Base.PathComponents
set_option autoImplicit false

/-! `CreateDirectoryAndGetError`, over any answers of the file system. -/

namespace MprMq.Base

inductive Errno where
  | eacces | eisdir | erofs | eperm | ebusy | etxtbsy | eexist | eio | enoent | emfile | enomem
  | enospc | enotdir
  | other (savedErrno : Int)
  deriving DecidableEq

inductive FileError where
  | failed | inUse | exists | notFound | accessDenied | tooManyOpened | noMemory | noSpace
  | notADirectory | io
  deriving DecidableEq

def osErrorToFileError : Errno → FileError
  | .eacces | .eisdir | .erofs | .eperm => .accessDenied
  | .ebusy | .etxtbsy => .inUse
  | .eexist => .exists
  | .eio => .io
  | .enoent => .notFound
  | .emfile => .tooManyOpened
  | .enomem => .noMemory
  | .enospc => .noSpace
  | .enotdir => .notADirectory
  | .other _ => .failed

inductive FileCall where
  | stat (path : FilePath)
  | mkdir (path : FilePath) (mode : Nat)
  deriving DecidableEq

def FileCall.path : FileCall → FilePath
  | .stat path => path
  | .mkdir path _ => path

/-- What each call answers, by the calls before it: the mode of a file, and how `mkdir` failed. -/
structure FileCalls where
  stat : List FileCall → FilePath → Option Nat
  mkdir : List FileCall → FilePath → Nat → Option Errno

def sIsDir (stMode : Nat) : Bool := stMode &&& 61440 = 16384

def directoryExists (os : FileCalls) (path : FilePath) (log : List FileCall) :
    Bool × List FileCall :=
  ((os.stat log path).any sIsDir,log ++ [.stat path])

def subpathsLoop : Nat → FilePath → FilePath → List FilePath → Option (List FilePath)
  | 0, _, _, _ => none
  | fuel+1, path, lastPath, subpaths =>
    if path.value ≠ lastPath.value then
      subpathsLoop fuel path.dirName path (subpaths ++ [path])
    else some subpaths

def makeDirectories (os : FileCalls) : List FilePath → List FileCall →
    Option FileError × List FileCall
  | [], log => (none,log)
  | path :: rest, log =>
    let (found,log) := directoryExists os path log
    if found then makeDirectories os rest log
    else
      let failed := os.mkdir log path 448
      let log := log ++ [.mkdir path 448]
      match failed with
      | none => makeDirectories os rest log
      | some savedErrno =>
        let (found,log) := directoryExists os path log
        if found then makeDirectories os rest log
        else (some (osErrorToFileError savedErrno),log)

def createDirectoryAndGetError (os : FileCalls) (fuel : Nat) (fullPath : FilePath) :
    Option (Option FileError × List FileCall) := do
  let subpaths ← subpathsLoop fuel fullPath.dirName fullPath [fullPath]
  return makeDirectories os subpaths.reverse []

def ParentsFirst (paths : List FilePath) : Prop := ∀ before x after,
  paths = before ++ x :: after → x.dirName = x ∨ x.dirName ∈ before

section order
variable {paths : List FilePath}

theorem ParentsFirst.nil : ParentsFirst [] := by
  intro before x after heq
  exact absurd heq.symm (List.append_ne_nil_of_right_ne_nil _ (List.cons_ne_nil _ _))

theorem ParentsFirst.snoc (h : ParentsFirst paths) {x : FilePath}
    (hx : x.dirName = x ∨ x.dirName ∈ paths) : ParentsFirst (paths ++ [x]) := by
  intro before y after heq
  rcases List.eq_nil_or_concat after with rfl | ⟨front,last,rfl⟩
  · obtain ⟨rfl,hxy⟩ := List.append_inj' heq rfl
    rwa [List.singleton_inj.mp hxy] at hx
  · rw [List.concat_eq_append,← List.cons_append,← List.append_assoc] at heq
    obtain ⟨heq,-⟩ := List.append_inj' heq rfl
    exact h before y front heq

theorem subpathsLoop_step (fuel : Nat) (lastPath : FilePath) (subpaths : List FilePath) :
    subpathsLoop (fuel+1) lastPath.dirName lastPath subpaths =
      if lastPath.dirName = lastPath then some subpaths
      else subpathsLoop fuel lastPath.dirName.dirName lastPath.dirName
        (subpaths ++ [lastPath.dirName]) := by
  rw [subpathsLoop]
  by_cases hsame : lastPath.dirName = lastPath
  · rw [if_pos hsame,if_neg (not_not.mpr (congrArg FilePath.value hsame))]
  · have hmoves : lastPath.dirName.value ≠ lastPath.value := by
      intro heq
      rw [FilePath.dirName_value,FilePath.dirText_fixed_iff] at heq
      exact hsame ((FilePath.dirName_eq_iff lastPath).mpr heq)
    rw [if_neg hsame,if_pos hmoves]

theorem subpathsLoop_ends (n fuel : Nat) (lastPath : FilePath) (subpaths : List FilePath)
    (hfixed : FilePath.Fixed (FilePath.dirText^[n] lastPath.value)) (hfuel : n < fuel) :
    ∃ above, subpathsLoop fuel lastPath.dirName lastPath subpaths = some (subpaths ++ above) ∧
      ParentsFirst (lastPath :: above).reverse := by
  induction n generalizing fuel lastPath subpaths with
  | zero =>
    obtain ⟨fuel,rfl⟩ := Nat.exists_eq_succ_of_ne_zero (Nat.ne_of_gt hfuel)
    have hsame := (FilePath.dirName_eq_iff lastPath).mpr hfixed
    refine ⟨[],?_,ParentsFirst.nil.snoc (.inl hsame)⟩
    rw [subpathsLoop_step,if_pos hsame,List.append_nil]
  | succ n ih =>
    obtain ⟨fuel,rfl⟩ := Nat.exists_eq_succ_of_ne_zero (Nat.ne_of_gt (by omega : 0 < fuel))
    rw [subpathsLoop_step]
    split
    case isTrue hsame =>
      exact ⟨[],by rw [List.append_nil],ParentsFirst.nil.snoc (.inl hsame)⟩
    case isFalse =>
      rw [Function.iterate_succ_apply,← FilePath.dirName_value] at hfixed
      obtain ⟨above,hloop,hfirst⟩ :=
        ih fuel lastPath.dirName (subpaths ++ [lastPath.dirName]) hfixed (by omega)
      refine ⟨lastPath.dirName :: above,?_,?_⟩
      · rw [hloop,List.append_assoc,List.singleton_append]
      · rw [List.reverse_cons]
        exact hfirst.snoc (.inr (by simp))

/-- The calls about one path follow those about its parent. -/
theorem ParentsFirst.calls {log : List FileCall} (h : ParentsFirst (log.map FileCall.path))
    {x : FilePath} (hx : x.dirName = x ∨ x.dirName ∈ log.map FileCall.path)
    (calls : List FileCall) (hcalls : ∀ call ∈ calls, call.path = x) :
    ParentsFirst ((log ++ calls).map FileCall.path) := by
  induction calls using List.reverseRecOn with
  | nil => rwa [List.append_nil]
  | append_singleton calls call ih =>
    have hbefore := ih fun call hmem => hcalls call (List.mem_append_left _ hmem)
    have hpath : call.path = x := hcalls call (List.mem_append_right _ List.mem_cons_self)
    rw [← List.append_assoc,List.map_append]
    refine hbefore.snoc ?_
    rw [hpath,List.map_append]
    exact hx.imp_right (List.mem_append_left _)

end order

section make
variable (os : FileCalls) {paths : List FilePath} {log : List FileCall}

/-- One turn of the loop asks about one path only. -/
theorem makeDirectories_cons (path : FilePath) (rest : List FilePath) (log : List FileCall) :
    ∃ calls : List FileCall, FileCall.stat path ∈ calls ∧ (∀ call ∈ calls, call.path = path) ∧
      (makeDirectories os (path :: rest) log = makeDirectories os rest (log ++ calls) ∨
        ∃ error, makeDirectories os (path :: rest) log = (some error,log ++ calls)) := by
  rw [makeDirectories,directoryExists]
  dsimp only
  split
  · exact ⟨[.stat path],by simp,by simp [FileCall.path],.inl rfl⟩
  split
  · refine ⟨[.stat path,.mkdir path 448],by simp,by simp [FileCall.path],.inl ?_⟩
    rw [List.append_assoc,List.singleton_append]
  · refine ⟨[.stat path,.mkdir path 448,.stat path],by simp,by simp [FileCall.path],?_⟩
    rw [directoryExists]
    dsimp only
    rw [List.append_assoc,List.append_assoc,List.singleton_append]
    split
    · exact .inl rfl
    · exact .inr ⟨_,rfl⟩

/-- The loop asks about every path, unless it fails, and about the parent of a path before. -/
theorem makeDirectories_order (h : ParentsFirst (log.map FileCall.path))
    (hpaths : ∀ before x after, paths = before ++ x :: after →
      x.dirName = x ∨ x.dirName ∈ log.map FileCall.path ++ before) :
    ParentsFirst ((makeDirectories os paths log).2.map FileCall.path) ∧
      ((makeDirectories os paths log).1 = none → ∀ x ∈ log.map FileCall.path ++ paths,
        x ∈ (makeDirectories os paths log).2.map FileCall.path) := by
  induction paths generalizing log with
  | nil => exact ⟨h,fun _ x hx => by rwa [List.append_nil] at hx⟩
  | cons path rest ih =>
    obtain ⟨calls,hstat,hcalls,hturn⟩ := makeDirectories_cons os path rest log
    have hhead : path.dirName = path ∨ path.dirName ∈ log.map FileCall.path := by
      simpa using hpaths [] path rest rfl
    have hlog := h.calls hhead calls hcalls
    rcases hturn with hturn | ⟨error,hturn⟩
    · have hmem : path ∈ (log ++ calls).map FileCall.path :=
        List.mem_map.mpr ⟨.stat path,List.mem_append_right _ hstat,rfl⟩
      have hmoves (x : FilePath) (front : List FilePath)
          (hx : x ∈ log.map FileCall.path ++ path :: front) :
          x ∈ (log ++ calls).map FileCall.path ++ front := by
        rcases List.mem_append.mp hx with hx | hx
        · rw [List.map_append]
          exact List.mem_append_left _ (List.mem_append_left _ hx)
        rcases List.mem_cons.mp hx with hx | hx
        · exact List.mem_append_left _ (hx ▸ hmem)
        · exact List.mem_append_right _ hx
      have hrest := ih hlog fun before x after heq =>
        (hpaths (path :: before) x after (by rw [heq]; rfl)).imp_right (hmoves _ before)
      rw [hturn]
      exact ⟨hrest.1,fun hnone x hx => hrest.2 hnone x (hmoves x rest hx)⟩
    · rw [hturn]
      exact ⟨hlog,fun hnone => nomatch hnone⟩

end make

/-- `CreateDirectoryAndGetError` ends, and goes down the path. -/
theorem createDirectory_ends (os : FileCalls) (fullPath : FilePath) {fuel : Nat}
    (h : fullPath.value.length+2 ≤ fuel) :
    ∃ error log, createDirectoryAndGetError os fuel fullPath = some (error,log) ∧
      ParentsFirst (log.map FileCall.path) ∧
      (error = none → fullPath ∈ log.map FileCall.path) := by
  obtain ⟨n,hn,hfixed⟩ := FilePath.dirText_reaches fullPath.value
  obtain ⟨above,hloop,hfirst⟩ :=
    subpathsLoop_ends n fuel fullPath [fullPath] hfixed (by omega)
  have hnil : ParentsFirst (([] : List FileCall).map FileCall.path) := ParentsFirst.nil
  have horder := makeDirectories_order os hnil hfirst
  refine ⟨_,_,?_,horder.1,fun hnone => horder.2 hnone fullPath (by simp)⟩
  rw [createDirectoryAndGetError,hloop]
  rfl

/-- `DirName` ends at one of three paths; hence the loops over it end, and a directory is made
after the one that it is in. -/
theorem dir_names_end (self : FilePath) :
    (∃ n, n ≤ self.value.length+1 ∧
      (FilePath.dirName^[n] self).dirName = FilePath.dirName^[n] self) ∧
    (self.dirName = self ↔
      self.value = ".".toList ∨ self.value = "/".toList ∨ self.value = "//".toList) ∧
    (∃ cs, ∀ fuel, self.value.length+2 ≤ fuel → self.getComponents fuel = some cs) ∧
    ∀ (os : FileCalls) (fuel : Nat), self.value.length+2 ≤ fuel →
      ∃ error log, createDirectoryAndGetError os fuel self = some (error,log) ∧
        ParentsFirst (log.map FileCall.path) ∧
        (error = none → self ∈ log.map FileCall.path) := by
  refine ⟨?_,FilePath.dirName_eq_iff self,?_,?_⟩
  · obtain ⟨n,hn,hfixed⟩ := FilePath.dirText_reaches self.value
    refine ⟨n,hn,(FilePath.dirName_eq_iff _).mpr ?_⟩
    rwa [FilePath.dirName_iterate]
  · exact ⟨components self.value,fun fuel h => self.getComponents_eq h⟩
  · exact fun os fuel h => createDirectory_ends os self h

end MprMq.Base
