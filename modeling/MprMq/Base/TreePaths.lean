import Mathlib.Data.List.Basic
import MprMq.Base.PathAppend
set_option autoImplicit false

/-! The paths that `Append` makes of the names in a tree of directories. -/

namespace MprMq.Base

/-- The name of an entry of a directory, not one of the two that every directory has. -/
structure EntryName where
  text : Text
  name : Name text
  noNul : nul ∉ text
  notCurrent : text ≠ kCurrentDirectory
  notParent : text ≠ kParentDirectory

theorem EntryName.text_injective : Function.Injective EntryName.text := by
  rintro ⟨s,_,_,_,_⟩ ⟨t,_,_,_,_⟩ (rfl : s = t)
  rfl

namespace FilePath

def ahead (path : Text) : List Text := if path = kCurrentDirectory then [] else names path

section appended
variable {n : Text}

theorem value_of_append {self r : FilePath} (h : Name n) (hnul : nul ∉ n)
    (happend : self.append n = some r) : self.appended n = r := by
  have hrelative := self.append_relative (by rw [cString_of_notMem hnul]; exact h.relative)
  exact Option.some.inj (hrelative.symm.trans happend)

/-- The name stands at the end, behind a separator or nothing. -/
theorem appended_shape (self : FilePath) (h : Name n) (hnul : nul ∉ n) :
    ∃ pre, (self.appended n).value = pre ++ n ∧ names pre = ahead self.value ∧
      isPathAbsolute (pre ++ n) = isPathAbsolute self.value ∧
      (pre = [] ∨ ∃ front, pre = front ++ ['/']) := by
  obtain ⟨front,k,hvalue,hfront⟩ := exists_trailing self.value
  by_cases hcur : self.value = kCurrentDirectory
  · refine ⟨[],?_,by rw [ahead,if_pos hcur]; rfl,by rw [hcur]; exact h.relative,.inl rfl⟩
    rw [appended,if_pos hcur,cString_of_notMem hnul,ofText_of_notMem hnul,List.nil_append]
  rw [ahead,if_neg hcur]
  rcases hfront with rfl | hended
  · rw [List.nil_append] at hvalue
    cases k with
    | zero =>
      refine ⟨[],?_,by rw [hvalue]; rfl,by rw [hvalue]; exact h.relative,.inl rfl⟩
      have hstrip : stripTrailingSeparatorsInternal self.value = [] := by rw [hvalue]; rfl
      rw [appended,if_neg hcur,hstrip,if_neg (fun hall => hall.2.1 rfl),cString_of_notMem hnul,
        List.nil_append,ofText_of_notMem hnul]
    | succ k =>
      have hdir : stripTrailingSeparatorsInternal self.value ≠ [] := by
        rw [hvalue,strip_seps]
        split <;> exact List.cons_ne_nil _ _
      obtain ⟨r,happend,hr⟩ := append_name self h hnul hdir
      rw [value_of_append h hnul happend,hr,hvalue,appendText_seps,names_seps]
      refine ⟨_,rfl,?_,?_,.inr ?_⟩
      · split <;> rfl
      · split <;> rfl
      · split
        · exact ⟨seps 1,rfl⟩
        · exact ⟨[],rfl⟩
  · have hdir : stripTrailingSeparatorsInternal self.value ≠ [] := by
      rw [hvalue,strip_trailing hended]
      exact hended.ne_nil
    obtain ⟨r,happend,hr⟩ := append_name self h hnul hdir
    rw [value_of_append h hnul happend,hr]
    rw [hvalue] at hcur ⊢
    rw [appendText_trailing hended k hcur,names_trailing]
    refine ⟨_,rfl,names_trailing front 1,?_,.inr ⟨front,rfl⟩⟩
    rw [List.append_assoc,isPathAbsolute_append hended.ne_nil,isPathAbsolute_append hended.ne_nil]

theorem appended_names (self : FilePath) (h : Name n) (hnul : nul ∉ n) :
    names (self.appended n).value = ahead self.value ++ [n] := by
  obtain ⟨pre,hvalue,hnames,-,rfl | ⟨front,rfl⟩⟩ := self.appended_shape h hnul
  · rw [hvalue,← hnames,List.nil_append,names_name h]
    rfl
  · rw [hvalue,← hnames,List.append_assoc,List.singleton_append,names_append_sep,
      names_append_sep,names_name h]
    simp [names]

theorem appended_baseName (self : FilePath) (h : Name n) (hnul : nul ∉ n) :
    (self.appended n).baseName.value = n := by
  rw [baseName_value]
  obtain ⟨pre,hvalue,-,-,rfl | ⟨front,rfl⟩⟩ := self.appended_shape h hnul
  · have hbase := baseText_name h 0
    rw [append_seps_zero] at hbase
    rw [hvalue,List.nil_append,hbase]
  · have hbase := @baseText_behind n front h 0
    rw [append_seps_zero] at hbase
    rw [hvalue,hbase]

theorem appended_absolute (self : FilePath) (h : Name n) (hnul : nul ∉ n) :
    isPathAbsolute (self.appended n).value = isPathAbsolute self.value := by
  obtain ⟨pre,hvalue,-,habs,-⟩ := self.appended_shape h hnul
  rw [hvalue,habs]

theorem appended_ended (self : FilePath) (h : Name n) (hnul : nul ∉ n) :
    Ended (self.appended n).value := by
  obtain ⟨pre,hvalue,-⟩ := self.appended_shape h hnul
  rw [hvalue]
  exact ended_append h.ended

end appended

theorem strip_self {path : FilePath} (h : Ended path.value) :
    path.stripTrailingSeparators = path := by
  obtain ⟨value,hnul⟩ := path
  rw [stripTrailingSeparators,FilePath.mk.injEq]
  exact strip_ended h

def pathOf (root : FilePath) (place : List EntryName) : FilePath :=
  place.foldl (fun path name => path.appended name.text) root

theorem pathOf_snoc (root : FilePath) (dir : List EntryName) (name : EntryName) :
    pathOf root (dir ++ [name]) = (pathOf root dir).appended name.text := by
  rw [pathOf,List.foldl_append]
  rfl

theorem pathOf_ne_nil (root : FilePath) (dir : List EntryName) (name : EntryName) :
    (pathOf root (dir ++ [name])).value ≠ [] := by
  rw [pathOf_snoc]
  exact ((pathOf root dir).appended_ended name.name name.noNul).ne_nil

theorem pathOf_ahead (root : FilePath) (place : List EntryName) :
    ahead (pathOf root place).value = ahead root.value ++ place.map EntryName.text := by
  induction place using List.reverseRecOn with
  | nil => rw [List.map_nil,List.append_nil]; rfl
  | append_singleton dir name ih =>
    have hnames := (pathOf root dir).appended_names name.name name.noNul
    have hcur : (pathOf root (dir ++ [name])).value ≠ kCurrentDirectory := by
      rw [pathOf_snoc]
      intro hcur
      rw [hcur] at hnames
      have hlast := congrArg List.getLast? hnames
      rw [List.getLast?_append,List.getLast?_singleton] at hlast
      exact name.notCurrent (Option.some.inj hlast).symm
    rw [ahead,if_neg hcur,pathOf_snoc,hnames,ih,List.map_append,List.append_assoc]
    rfl

theorem pathOf_injective (root : FilePath) : Function.Injective (pathOf root) := by
  intro place other h
  have hahead := congrArg (fun path => ahead path.value) h
  rw [pathOf_ahead,pathOf_ahead] at hahead
  exact List.map_injective_iff.mpr EntryName.text_injective (List.append_cancel_left hahead)

theorem pathOf_strip (root : FilePath) (dir : List EntryName) (name : EntryName) :
    (pathOf root (dir ++ [name])).stripTrailingSeparators = pathOf root (dir ++ [name]) := by
  rw [pathOf_snoc]
  exact strip_self ((pathOf root dir).appended_ended name.name name.noNul)

end FilePath

end MprMq.Base
