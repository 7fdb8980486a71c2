import MprMq.Base.PathComponents
set_option autoImplicit false

/-! `Append` of the base name to the directory. -/

namespace MprMq.Base

def withoutCurrent (cs : List Text) : List Text := cs.filter fun c => c ≠ kCurrentDirectory

variable {base dir : Text}

theorem Name.relative (h : Name base) : isPathAbsolute base = false := by
  obtain ⟨c,rest,rfl⟩ := List.exists_cons_of_ne_nil h.ne_nil
  exact h.no_separator c List.mem_cons_self

theorem withoutCurrent_name (h : Name base) :
    withoutCurrent (components base) = withoutCurrent [base] := by
  by_cases hcur : base = kCurrentDirectory
  · rw [hcur]
    rfl
  · have hcomponents := components_name h 0
    rw [append_seps_zero] at hcomponents
    rw [hcomponents hcur]

theorem isPathAbsolute_append {s : Text} (h : s ≠ []) (t : Text) :
    isPathAbsolute (s ++ t) = isPathAbsolute s := by
  obtain ⟨c,rest,rfl⟩ := List.exists_cons_of_ne_nil h
  rfl

def appendText (dir base : Text) : Text :=
  if dir = kCurrentDirectory then base
  else if (stripTrailingSeparatorsInternal dir).getLast?.any isSeparator then
    stripTrailingSeparatorsInternal dir ++ base
  else stripTrailingSeparatorsInternal dir ++ '/' :: base

theorem append_text (self : FilePath) {t : Text} (hne : t ≠ []) (habs : isPathAbsolute t = false)
    (hnul : nul ∉ t) (hdir : stripTrailingSeparatorsInternal self.value ≠ []) :
    ∃ r, self.append t = some r ∧ r.value = appendText self.value t := by
  have hrelative : isPathAbsolute (cString t) = false := by
    rw [cString_of_notMem hnul]
    exact habs
  have hstrip : nul ∉ stripTrailingSeparatorsInternal self.value :=
    fun hmem => self.noNul (mem_strip hmem)
  refine ⟨_,self.append_relative hrelative,?_⟩
  rw [FilePath.appended,appendText,cString_of_notMem hnul]
  split
  · exact FilePath.ofText_of_notMem hnul
  by_cases hlast : (stripTrailingSeparatorsInternal self.value).getLast?.any isSeparator = true
  · rw [if_neg (fun hall => hall.2.2 hlast),if_pos hlast]
    exact FilePath.ofText_of_notMem (by simp [hstrip,hnul])
  · rw [if_pos ⟨hne,hdir,hlast⟩,if_neg hlast]
    have hslash : nul ≠ '/' := by decide
    exact FilePath.ofText_of_notMem (by simp [hstrip,hnul,hslash])

theorem append_name (self : FilePath) (h : Name base) (hnul : nul ∉ base)
    (hdir : stripTrailingSeparatorsInternal self.value ≠ []) :
    ∃ r, self.append base = some r ∧ r.value = appendText self.value base :=
  append_text self h.ne_nil h.relative hnul hdir

theorem appendText_current (base : Text) : appendText kCurrentDirectory base = base := if_pos rfl

theorem appendText_seps (k : Nat) (base : Text) :
    appendText (seps (k+1)) base = (if k = 1 then seps 2 else seps 1) ++ base := by
  have hcur : seps (k+1) ≠ kCurrentDirectory := fun heq =>
    absurd (List.cons_eq_cons.mp heq).1 (by decide)
  rw [appendText,if_neg hcur,strip_seps]
  rcases k with _ | _ | k
  · rfl
  · rfl
  · rw [if_neg (show ¬ k+1+1+1 ≤ 2 by omega),if_neg (show ¬ k+1+1 = 1 by omega)]
    rfl

theorem appendText_trailing (h : Ended dir) (k : Nat) (hcur : dir ++ seps k ≠ kCurrentDirectory)
    (base : Text) : appendText (dir ++ seps k) base = dir ++ seps 1 ++ base := by
  have hlast : ¬ dir.getLast?.any isSeparator = true := by
    obtain ⟨front,c,rfl,hc⟩ := h
    rw [List.getLast?_append,List.getLast?_singleton]
    exact fun hsep => hc (isSeparator_iff.mp hsep)
  rw [appendText,if_neg hcur,strip_trailing h,if_neg hlast,List.append_assoc]
  rfl

theorem appendText_ended (h : Ended dir) (hcur : dir ≠ kCurrentDirectory) (base : Text) :
    appendText dir base = dir ++ seps 1 ++ base := by
  have htrailing := appendText_trailing h 0
  rw [append_seps_zero] at htrailing
  exact htrailing hcur base

theorem components_rooted_name (h : Name base) (j : Nat) : components (seps (j+1) ++ base) =
    [if j = 1 ∨ j = 2 then seps 2 else seps 1,base] := by
  have hcomponents := components_rooted h j 0
  rwa [append_seps_zero] at hcomponents

theorem components_under_name (hdir : Ended dir) (h : Name base) :
    components (dir ++ seps 1 ++ base) = components dir ++ [base] := by
  have hcomponents := components_under hdir h 0 0
  rwa [append_seps_zero] at hcomponents

structure Alike (path other : Text) : Prop where
  absolute : isPathAbsolute path = isPathAbsolute other
  components : withoutCurrent (components path) = withoutCurrent (components other)

theorem alike_name (h : Name base) (k : Nat) : Alike base (base ++ seps k) := by
  refine ⟨(isPathAbsolute_append h.ne_nil _).symm,?_⟩
  rw [withoutCurrent_name h]
  by_cases hfixed : base ++ seps k = kCurrentDirectory
  · obtain ⟨c,rest,rfl⟩ := List.exists_cons_of_ne_nil h.ne_nil
    obtain ⟨rfl,hrest⟩ := List.cons_eq_cons.mp hfixed
    rw [hfixed,(List.append_eq_nil_iff.mp hrest).1]
    rfl
  · rw [components_name h k hfixed]

theorem alike_rooted (h : Name base) (j k : Nat) :
    Alike ((if j = 1 ∨ j = 2 then seps 2 else seps 1) ++ base)
      (seps (j+1) ++ base ++ seps k) := by
  constructor
  · split <;> rfl
  · rw [components_rooted h]
    split
    · rw [components_rooted_name h 1]
      rfl
    · rw [components_rooted_name h 0]
      rfl

theorem alike_under (hdir : Ended dir) (h : Name base) (j k : Nat) :
    Alike (appendText dir base) (dir ++ seps (j+1) ++ base ++ seps k) := by
  have hshape : dir ++ seps (j+1) ++ base ++ seps k = dir ++ (seps (j+1) ++ base ++ seps k) := by
    simp only [List.append_assoc]
  by_cases hcur : dir = kCurrentDirectory
  · rw [hcur,appendText_current]
    refine ⟨h.relative,?_⟩
    rw [components_under (hcur ▸ hdir) h,components_current,withoutCurrent_name h]
    rfl
  · rw [appendText_ended hdir hcur]
    constructor
    · rw [hshape,isPathAbsolute_append hdir.ne_nil,List.append_assoc,
        isPathAbsolute_append hdir.ne_nil]
    · rw [components_under_name hdir h,components_under hdir h]

/-- The directory and the name of a path make up a path like it. -/
theorem dirText_append {path : Text} (h : ∃ c ∈ path, c ≠ '/') :
    Name (FilePath.baseText path) ∧
    stripTrailingSeparatorsInternal (FilePath.dirText path) ≠ [] ∧
    Alike (appendText (FilePath.dirText path) (FilePath.baseText path)) path := by
  cases pathShape path with
  | seps k =>
    obtain ⟨c,hc,hne⟩ := h
    exact absurd (List.eq_of_mem_replicate hc) hne
  | name k hname =>
    rw [FilePath.dirText_name hname,FilePath.baseText_name hname,appendText_current]
    exact ⟨hname,by decide,alike_name hname k⟩
  | rooted j k hname =>
    rw [FilePath.dirText_rooted hname,FilePath.baseText_rooted hname]
    refine ⟨hname,?_,?_⟩
    · split <;> decide
    · have hroot : appendText (if j = 1 ∨ j = 2 then seps 2 else seps 1) =
          fun base => (if j = 1 ∨ j = 2 then seps 2 else seps 1) ++ base := by
        funext base
        split
        · exact appendText_seps 1 base
        · exact appendText_seps 0 base
      rw [hroot]
      exact alike_rooted hname j k
  | under j k hdir hname =>
    rw [FilePath.dirText_under hdir hname,FilePath.baseText_under hname]
    refine ⟨hname,?_,alike_under hdir hname j k⟩
    rw [strip_ended hdir]
    exact hdir.ne_nil

/-- `p.DirName().Append(p.BaseName())` goes through, and is the path again. -/
theorem dirName_append_baseName (self : FilePath) (h : ∃ c ∈ self.value, c ≠ '/') :
    ∃ r, self.dirName.append self.baseName.value = some r ∧
      isPathAbsolute r.value = isPathAbsolute self.value ∧
      ∀ fuel, r.value.length+2 ≤ fuel → self.value.length+2 ≤ fuel → ∃ cs ds,
        r.getComponents fuel = some cs ∧ self.getComponents fuel = some ds ∧
        withoutCurrent cs = withoutCurrent ds := by
  obtain ⟨hname,hdir,halike⟩ := dirText_append h
  rw [← FilePath.baseName_value] at hname halike
  rw [← FilePath.dirName_value] at hdir halike
  obtain ⟨r,hr,hvalue⟩ := append_name self.dirName hname self.baseName.noNul hdir
  rw [← hvalue] at halike
  exact ⟨r,hr,halike.absolute,fun fuel hleft hright => ⟨_,_,r.getComponents_eq hleft,
    self.getComponents_eq hright,halike.components⟩⟩

theorem dirName_append_baseName_dots :
    ∃ r, (FilePath.ofText "..//./a//".toList).dirName.append
        (FilePath.ofText "..//./a//".toList).baseName.value = some r ∧
      isPathAbsolute r.value = isPathAbsolute (FilePath.ofText "..//./a//".toList).value ∧
      ∀ fuel, r.value.length+2 ≤ fuel →
        (FilePath.ofText "..//./a//".toList).value.length+2 ≤ fuel → ∃ cs ds,
        r.getComponents fuel = some cs ∧
        (FilePath.ofText "..//./a//".toList).getComponents fuel = some ds ∧
        withoutCurrent cs = withoutCurrent ds :=
  dirName_append_baseName _ ⟨'a',by decide,by decide⟩

end MprMq.Base
