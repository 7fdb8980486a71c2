import MprMq.Base.PathComponents
set_option autoImplicit false

/-! What `Extension` reports, and what `RemoveExtension` and `ReplaceExtension` take for it. -/

namespace MprMq.Base

structure DoubleExtension (m e : Text) : Prop where
  noDot : '.' ∉ m
  noSep : '/' ∉ m
  ne_nil : m ≠ []
  short : m.length ≤ 4
  common : kCommonDoubleExtensions.any (lowerCaseEqualsASCII e) = true

def HasDouble (t : Text) : Prop :=
  ∃ b m e, t = (b ++ '.' :: m) ++ '.' :: e ∧ DoubleExtension m e

section position
variable {a b e m t : Text}

theorem dotless (he : '.' ∉ e) : ∀ c ∈ e, isExtensionSeparator c = false := by
  intro c hc
  rw [isExtensionSeparator,decide_eq_false_iff_not]
  rintro rfl
  exact he hc

theorem findLast_dot (a : Text) (he : '.' ∉ e) :
    findLast isExtensionSeparator (a ++ '.' :: e) = some a.length :=
  findLast_middle a rfl (dotless he)

theorem common_notMem {c : Char} (hgz : c.toLower ∉ "gz".toList) (hz : c.toLower ∉ "z".toList)
    (hbz2 : c.toLower ∉ "bz2".toList)
    (h : kCommonDoubleExtensions.any (lowerCaseEqualsASCII e) = true) : c ∉ e := by
  intro hmem
  obtain ⟨lower,hlower,heq⟩ := List.any_eq_true.mp h
  have heq : toLowerASCII e = lower := of_decide_eq_true heq
  have hchar : c.toLower ∈ toLowerASCII e := List.mem_map.mpr ⟨c,hmem,rfl⟩
  rw [heq] at hchar
  simp only [kCommonDoubleExtensions,List.mem_cons,List.not_mem_nil,or_false] at hlower
  rcases hlower with rfl | rfl | rfl
  · exact hgz hchar
  · exact hz hchar
  · exact hbz2 hchar

theorem DoubleExtension.last_noSep (h : DoubleExtension m e) : '/' ∉ e :=
  common_notMem (by decide) (by decide) (by decide) h.common

theorem DoubleExtension.last_noDot (h : DoubleExtension m e) : '.' ∉ e :=
  common_notMem (by decide) (by decide) (by decide) h.common

theorem hasDouble_iff (he : '.' ∉ e) :
    HasDouble (a ++ '.' :: e) ↔ ∃ b m, a = b ++ '.' :: m ∧ DoubleExtension m e := by
  constructor
  · rintro ⟨b,m,e',heq,hdouble⟩
    obtain ⟨ha,-,rfl⟩ :=
      split_last_unique heq rfl rfl (dotless he) (dotless hdouble.last_noDot)
    exact ⟨b,m,ha,hdouble⟩
  · rintro ⟨b,m,rfl,hdouble⟩
    exact ⟨b,m,e,rfl,hdouble⟩

theorem position_eq (hcur : a ++ '.' :: e ≠ kCurrentDirectory)
    (hpar : a ++ '.' :: e ≠ kParentDirectory) (he : '.' ∉ e) :
    extensionSeparatorPosition (a ++ '.' :: e) =
      if a ≠ [] ∧ kCommonDoubleExtensions.any (lowerCaseEqualsASCII e) then
        match findLast isExtensionSeparator a with
        | some penultimateDot =>
          if (findLast isSeparator a).all (fun j => j < penultimateDot) ∧
            a.length-penultimateDot ≤ 5 ∧ 1 < a.length-penultimateDot then some penultimateDot
          else some a.length
        | none => some a.length
      else some a.length := by
  rw [extensionSeparatorPosition,if_neg (not_or.mpr ⟨hcur,hpar⟩),findLast_dot a he]
  rcases a with _ | ⟨c,a⟩
  · rw [if_neg (fun h => h.1 rfl)]
    rfl
  · have hdrop : (c :: a ++ '.' :: e).drop (a.length+1+1) = e := by
      rw [List.cons_append,List.drop_succ_cons,← List.singleton_append,← List.append_assoc]
      exact List.drop_left' (by rw [List.length_append,List.length_singleton])
    have htake : (c :: a ++ '.' :: e).take (a.length+1-1+1) = c :: a := by
      rw [Nat.add_sub_cancel]
      exact List.take_left' rfl
    have hne : c :: a ≠ [] := List.cons_ne_nil _ _
    rw [List.length_cons]
    dsimp only
    rw [hdrop,findLastUpTo,findLastUpTo,htake]
    exact if_congr (and_iff_right hne).symm rfl rfl

/-- Where the separator of the extension is, by the last dot. -/
theorem position_double (hcur : a ++ '.' :: e ≠ kCurrentDirectory)
    (hpar : a ++ '.' :: e ≠ kParentDirectory) (he : '.' ∉ e) (ha : a = b ++ '.' :: m)
    (h : DoubleExtension m e) : extensionSeparatorPosition (a ++ '.' :: e) = some b.length := by
  subst ha
  have hpos := List.length_pos_iff.mpr h.ne_nil
  have hshort := h.short
  have hsep : (findLast isSeparator (b ++ '.' :: m)).all (fun j => j < b.length) = true := by
    have hnone : findLast isSeparator ('.' :: m) = none := by
      rw [findLast_eq_none]
      intro c hc
      refine isSeparator_other ?_
      rintro rfl
      rcases List.mem_cons.mp hc with hc | hc
      · exact absurd hc (by decide)
      · exact h.noSep hc
    rw [findLast_append,hnone]
    dsimp only
    cases hlast : findLast isSeparator b with
    | none => rfl
    | some j =>
      obtain ⟨c,-,hsplit,-⟩ := findLast_split hlast
      have hlength := congrArg List.length hsplit
      simp only [List.length_append,List.length_take,List.length_cons] at hlength
      simp only [Option.all_some,decide_eq_true_eq]
      omega
  rw [position_eq hcur hpar he,
    if_pos ⟨List.append_ne_nil_of_right_ne_nil _ (List.cons_ne_nil _ _),h.common⟩,
    findLast_dot b h.noDot]
  refine if_pos ⟨hsep,?_⟩
  rw [List.length_append,List.length_cons]
  omega

theorem position_single (hcur : a ++ '.' :: e ≠ kCurrentDirectory)
    (hpar : a ++ '.' :: e ≠ kParentDirectory) (he : '.' ∉ e)
    (h : ∀ b m, a = b ++ '.' :: m → ¬ DoubleExtension m e) :
    extensionSeparatorPosition (a ++ '.' :: e) = some a.length := by
  rw [position_eq hcur hpar he]
  split
  case isFalse => rfl
  case isTrue hcommon =>
    split
    case h_2 => rfl
    case h_1 penultimateDot hlast =>
      refine if_neg ?_
      rintro ⟨hsep,hshort,hlong⟩
      obtain ⟨c,hc,hsplit,hdot⟩ := findLast_split hlast
      obtain rfl : c = '.' := of_decide_eq_true hc
      have hle : penultimateDot ≤ a.length := by omega
      refine h _ _ hsplit ⟨?_,?_,?_,?_,hcommon.2⟩
      · intro hmem
        exact absurd (hdot '.' hmem) (by decide)
      · intro hmem
        have hfront : (a.take penultimateDot).length = penultimateDot := by
          rw [List.length_take]
          omega
        cases hbehind : findLast isSeparator ('.' :: a.drop (penultimateDot+1)) with
        | none =>
          have hnone := findLast_eq_none.mp hbehind '/' (List.mem_cons_of_mem _ hmem)
          exact absurd hnone (by decide)
        | some j =>
          rw [hsplit,findLast_append,hbehind,hfront] at hsep
          simp only [Option.all_some,decide_eq_true_eq] at hsep
          omega
      · intro hnil
        have hlength := congrArg List.length hnil
        rw [List.length_drop,List.length_nil] at hlength
        omega
      · rw [List.length_drop]
        omega

end position

section based
variable {pre base base' a b e m path : Text}

def Front (pre : Text) : Prop := pre = [] ∨ ∃ q, pre = q ++ ['/']

theorem exists_based (path : Text) : (∃ k, path = seps k) ∨
    ∃ pre base k, path = pre ++ base ++ seps k ∧ Front pre ∧ Name base := by
  cases pathShape path with
  | seps k => exact .inl ⟨k,rfl⟩
  | name k h => exact .inr ⟨[],_,k,rfl,.inl rfl,h⟩
  | rooted j k h => exact .inr ⟨_,_,k,rfl,.inr ⟨seps j,seps_succ j⟩,h⟩
  | @under dir base j k hdir h =>
    refine .inr ⟨dir ++ seps (j+1),base,k,rfl,.inr ⟨dir ++ seps j,?_⟩,h⟩
    rw [seps_succ,List.append_assoc]

theorem baseText_based (hpre : Front pre) (h : Name base) (k : Nat) :
    FilePath.baseText (pre ++ base ++ seps k) = base := by
  rcases hpre with rfl | ⟨q,rfl⟩
  · exact FilePath.baseText_name h k
  · exact FilePath.baseText_behind h k

theorem strip_based (h : Name base) (k : Nat) :
    stripTrailingSeparatorsInternal (pre ++ base ++ seps k) = pre ++ base :=
  strip_trailing (FilePath.ended_append h.ended) k

theorem dirText_based (hpre : Front pre) (h : Name base) (h' : Name base') (k k' : Nat) :
    FilePath.dirText (pre ++ base ++ seps k) = FilePath.dirText (pre ++ base' ++ seps k') := by
  rcases hpre with rfl | ⟨q,rfl⟩
  · exact (FilePath.dirText_name h k).trans (FilePath.dirText_name h' k').symm
  · rw [FilePath.dirText,FilePath.dirText,strip_based h,strip_based h',
      FilePath.dirPart_behind h,FilePath.dirPart_behind h']

theorem last_based (h : Name base) (k : Nat) :
    (pre ++ base ++ seps k).getLast? = some '/' ↔ 0 < k := by
  rcases k with _ | k
  · rw [append_seps_zero]
    refine iff_of_false (fun hlast => ?_) (Nat.lt_irrefl 0)
    obtain ⟨front,c,hbase,hc⟩ := h.ended
    rw [hbase,← List.append_assoc,List.getLast?_concat] at hlast
    exact hc (Option.some.inj hlast)
  · refine iff_of_true ?_ (Nat.succ_pos k)
    rw [seps_succ,← List.append_assoc,List.getLast?_concat]

/-- No dot of a directory is taken for one of the name. -/
theorem no_double_based (hpre : Front pre) (h : ∀ b m, a = b ++ '.' :: m → ¬ DoubleExtension m e)
    (b m : Text) (heq : pre ++ a = b ++ '.' :: m) : ¬ DoubleExtension m e := by
  intro hdouble
  rcases List.append_eq_append_iff.mp heq with ⟨rest,rfl,hrest⟩ | ⟨rest,hrest,htail⟩
  · exact h rest m hrest hdouble
  · rcases rest with _ | ⟨c,rest⟩
    · exact h [] m htail.symm hdouble
    · obtain ⟨rfl,hm⟩ := List.cons_eq_cons.mp htail
      rcases hpre with rfl | ⟨q,rfl⟩
      · exact absurd hrest.symm (List.append_ne_nil_of_right_ne_nil _ (List.cons_ne_nil _ _))
      · refine hdouble.noSep (hm ▸ List.mem_append_left _ ?_)
        rcases List.eq_nil_or_concat rest with rfl | ⟨front,last,rfl⟩
        · have hlast := List.append_inj_right' hrest rfl
          exact absurd (List.singleton_inj.mp hlast) (by decide)
        · rw [List.concat_eq_append,← List.cons_append,← List.append_assoc] at hrest
          have hlast := List.append_inj_right' hrest rfl
          rw [← List.singleton_inj.mp hlast,List.concat_eq_append]
          exact List.mem_append_right _ List.mem_cons_self

theorem not_dots (hcur : FilePath.baseText path ≠ kCurrentDirectory)
    (hpar : FilePath.baseText path ≠ kParentDirectory) :
    path ≠ kCurrentDirectory ∧ path ≠ kParentDirectory := by
  constructor
  · rintro rfl
    exact hcur rfl
  · rintro rfl
    exact hpar rfl

end based

namespace FilePath
variable {self : FilePath} {pre base a b e m : Text} {k : Nat}

structure Dotted (path : FilePath) (pre a e : Text) (k : Nat) : Prop where
  value : path.value = pre ++ (a ++ '.' :: e) ++ seps k
  front : Front pre
  name : Name (a ++ '.' :: e)
  notCurrent : a ++ '.' :: e ≠ kCurrentDirectory
  notParent : a ++ '.' :: e ≠ kParentDirectory
  last : '.' ∉ e

theorem extension_eq (self : FilePath) : self.extension =
    match extensionSeparatorPosition (baseText self.value) with
    | none => []
    | some dot => (baseText self.value).drop dot := rfl

theorem extension_plain (h : '.' ∉ baseText self.value) : self.extension = [] := by
  have hnone := findLast_eq_none.mpr (dotless h)
  have hposition : extensionSeparatorPosition (baseText self.value) = none := by
    rw [extensionSeparatorPosition]
    split
    · rfl
    · rw [hnone]
  rw [extension_eq,hposition]

theorem exists_dotted (hcur : baseText self.value ≠ kCurrentDirectory)
    (hpar : baseText self.value ≠ kParentDirectory) (hdot : '.' ∈ baseText self.value) :
    ∃ pre a e k, Dotted self pre a e k := by
  rcases exists_based self.value with ⟨k,hvalue⟩ | ⟨pre,base,k,hvalue,hpre,hname⟩
  · rw [hvalue,baseText_seps] at hdot
    exfalso
    split at hdot
    · exact absurd (List.eq_of_mem_replicate hdot) (by decide)
    · exact absurd (List.eq_of_mem_replicate hdot) (by decide)
  · rw [hvalue,baseText_based hpre hname] at hcur hpar hdot
    cases hlast : findLast isExtensionSeparator base with
    | none => exact absurd (findLast_eq_none.mp hlast '.' hdot) (by decide)
    | some i =>
      obtain ⟨c,hc,hsplit,hrest⟩ := findLast_split hlast
      obtain rfl : c = '.' := of_decide_eq_true hc
      rw [hsplit] at hvalue hname hcur hpar
      refine ⟨pre,_,_,k,hvalue,hpre,hname,hcur,hpar,fun hmem => ?_⟩
      exact absurd (hrest '.' hmem) (by decide)

theorem exists_dotted_of_extension (h : self.extension ≠ []) :
    ∃ pre a e k, Dotted self pre a e k := by
  refine exists_dotted ?_ ?_ ?_
  · intro hcur
    rw [extension_eq,hcur] at h
    exact h rfl
  · intro hpar
    rw [extension_eq,hpar] at h
    exact h rfl
  · exact of_not_not fun hdot => h (extension_plain hdot)

namespace Dotted

theorem baseText (h : Dotted self pre a e k) : baseText self.value = a ++ '.' :: e := by
  rw [h.value]
  exact baseText_based h.front h.name k

theorem extension_single (h : Dotted self pre a e k)
    (hsingle : ∀ b m, a = b ++ '.' :: m → ¬ DoubleExtension m e) :
    self.extension = '.' :: e := by
  rw [extension_eq,h.baseText,position_single h.notCurrent h.notParent h.last hsingle]
  exact List.drop_left

theorem extension_double (h : Dotted self pre (b ++ '.' :: m) e k) (hdouble : DoubleExtension m e) :
    self.extension = '.' :: m ++ '.' :: e := by
  rw [extension_eq,h.baseText,position_double h.notCurrent h.notParent h.last rfl hdouble]
  dsimp only
  rw [List.append_assoc]
  exact List.drop_left

theorem value_eq (h : Dotted self pre a e k) : self.value = pre ++ a ++ '.' :: (e ++ seps k) := by
  rw [h.value]
  simp only [List.append_assoc,List.cons_append]

theorem not_dots (h : Dotted self pre a e k) :
    pre ++ a ++ '.' :: (e ++ seps k) ≠ kCurrentDirectory ∧
    pre ++ a ++ '.' :: (e ++ seps k) ≠ kParentDirectory := by
  rw [← h.value_eq]
  refine Base.not_dots ?_ ?_
  · rw [h.baseText]
    exact h.notCurrent
  · rw [h.baseText]
    exact h.notParent

theorem last_dot (h : Dotted self pre a e k) : '.' ∉ e ++ seps k := by
  intro hmem
  rcases List.mem_append.mp hmem with hmem | hmem
  · exact h.last hmem
  · exact absurd (List.eq_of_mem_replicate hmem) (by decide)

theorem removed (h : Dotted self pre a e k) (hne : self.extension ≠ []) {front : Text} {rest : Text}
    (hfront : pre ++ a ++ '.' :: (e ++ seps k) = front ++ rest)
    (hposition : extensionSeparatorPosition (pre ++ a ++ '.' :: (e ++ seps k)) =
      some front.length) : self.removeExtension.value = front := by
  have hnul : nul ∉ front := by
    intro hmem
    refine self.noNul ?_
    rw [h.value_eq,hfront]
    exact List.mem_append_left _ hmem
  rw [removeExtension,if_neg hne,h.value_eq,hposition]
  dsimp only
  rw [hfront,List.take_left]
  exact ofText_of_notMem hnul

/-- Before separators the extension is not seen to be a double one. -/
theorem removed_trailing (h : Dotted self pre a e (k+1)) (hne : self.extension ≠ []) :
    self.removeExtension.value = pre ++ a := by
  refine h.removed hne rfl (position_single h.not_dots.1 h.not_dots.2 h.last_dot ?_)
  intro b m _ hdouble
  refine hdouble.last_noSep (List.mem_append_right _ ?_)
  exact List.mem_cons_self

theorem removed_single (h : Dotted self pre a e 0) (hne : self.extension ≠ [])
    (hsingle : ∀ b m, a = b ++ '.' :: m → ¬ DoubleExtension m e) :
    self.removeExtension.value = pre ++ a := by
  refine h.removed hne rfl (position_single h.not_dots.1 h.not_dots.2 h.last_dot ?_)
  intro b m heq
  rw [append_seps_zero]
  exact no_double_based h.front hsingle b m heq

theorem removed_double (h : Dotted self pre (b ++ '.' :: m) e 0) (hne : self.extension ≠ [])
    (hdouble : DoubleExtension m e) : self.removeExtension.value = pre ++ b := by
  have hposition := position_double (b := pre ++ b) (m := m) h.not_dots.1 h.not_dots.2 h.last_dot
    (List.append_assoc _ _ _).symm (by rwa [append_seps_zero])
  have hfront : pre ++ (b ++ '.' :: m) ++ '.' :: (e ++ seps 0) =
      pre ++ b ++ ('.' :: m ++ '.' :: (e ++ seps 0)) := by
    simp only [List.append_assoc]
  exact h.removed hne hfront hposition

theorem single_or_double (h : Dotted self pre a e k) :
    (HasDouble self.baseName.value ∧ ∃ b m, a = b ++ '.' :: m ∧ DoubleExtension m e) ∨
    (¬ HasDouble self.baseName.value ∧ ∀ b m, a = b ++ '.' :: m → ¬ DoubleExtension m e) := by
  rw [baseName_value,h.baseText,hasDouble_iff h.last]
  by_cases hdouble : ∃ b m, a = b ++ '.' :: m ∧ DoubleExtension m e
  · exact .inl ⟨hdouble,hdouble⟩
  · exact .inr ⟨hdouble,fun b m ha hm => hdouble ⟨b,m,ha,hm⟩⟩

end Dotted

/-- What `RemoveExtension` removes is what `Extension` reports, unless separators stand behind an
extension of two parts. -/
theorem removeExtension_extension_iff (self : FilePath) (h : self.extension ≠ []) :
    self.removeExtension.value ++ self.extension = self.stripTrailingSeparators.value ↔
      ¬ (self.value.getLast? = some '/' ∧ HasDouble self.baseName.value) := by
  obtain ⟨pre,a,e,k,hdotted⟩ := exists_dotted_of_extension h
  have hstrip : self.stripTrailingSeparators.value = pre ++ (a ++ '.' :: e) := by
    change stripTrailingSeparatorsInternal self.value = _
    rw [hdotted.value,strip_based hdotted.name]
  have hlast : self.value.getLast? = some '/' ↔ 0 < k := by
    rw [hdotted.value,last_based hdotted.name]
  rw [hstrip,hlast]
  rcases hdotted.single_or_double with ⟨hhas,b,m,rfl,hdouble⟩ | ⟨hhas,hsingle⟩
  · rw [hdotted.extension_double hdouble]
    rcases k with _ | k
    · refine iff_of_true ?_ fun hboth => absurd hboth.1 (Nat.lt_irrefl 0)
      rw [hdotted.removed_double h hdouble]
      simp only [List.append_assoc]
    · refine iff_of_false (fun heq => ?_) (not_not.mpr ⟨Nat.succ_pos k,hhas⟩)
      rw [hdotted.removed_trailing h] at heq
      have hlength := congrArg List.length heq
      simp only [List.length_append,List.length_cons] at hlength
      omega
  · refine iff_of_true ?_ fun hboth => hhas hboth.2
    rw [hdotted.extension_single hsingle,← List.append_assoc]
    rcases k with _ | k
    · rw [hdotted.removed_single h hsingle]
    · rw [hdotted.removed_trailing h]

theorem removeExtension_extension_dots :
    (ofText "a.b//.x.tar.gz".toList).removeExtension.value ++
        (ofText "a.b//.x.tar.gz".toList).extension =
      (ofText "a.b//.x.tar.gz".toList).stripTrailingSeparators.value ↔
      ¬ ((ofText "a.b//.x.tar.gz".toList).value.getLast? = some '/' ∧
        HasDouble (ofText "a.b//.x.tar.gz".toList).baseName.value) :=
  removeExtension_extension_iff _ (by decide)

/-- Of two parts `RemoveExtension` takes one when a separator follows. -/
theorem double_extension_trailing :
    (ofText "a.tar.gz/".toList).extension = ".tar.gz".toList ∧
    (ofText "a.tar.gz/".toList).removeExtension.value = "a.tar".toList ∧
    (ofText "a.tar.gz".toList).removeExtension.value = "a".toList ∧
    (ofText "a.tar.gz/".toList).removeExtension.value ++ (ofText "a.tar.gz/".toList).extension ≠
      (ofText "a.tar.gz/".toList).stripTrailingSeparators.value := by
  refine ⟨by decide,by decide,by decide,by decide⟩

section replace
variable {name : Text}

structure Named (path : FilePath) : Prop where
  ne_nil : path.baseName.value ≠ []
  notCurrent : path.baseName.value ≠ kCurrentDirectory
  notParent : path.baseName.value ≠ kParentDirectory
  notSeparators : areAllSeparators path.baseName.value = false

/-- The new path names, in the same directory, the name with its extension replaced. -/
def ReplacesName (self : FilePath) (extension : Text) : Prop :=
  ∃ stem, self.baseName.value = stem ++ self.extension ∧
    (self.replaceExtension extension).dirName = self.dirName ∧
    (self.replaceExtension extension).baseName.value = stem ++ extension

theorem eq_of_value {p q : FilePath} (h : p.value = q.value) : p = q := by
  obtain ⟨value,hnul⟩ := p
  cases h
  rfl

theorem Named.based (h : Named self) : ∃ pre base k, self.value = pre ++ base ++ seps k ∧
    Front pre ∧ Name base ∧ self.baseName.value = base := by
  rcases exists_based self.value with ⟨k,hvalue⟩ | ⟨pre,base,k,hvalue,hpre,hname⟩
  · have hall := h.notSeparators
    rw [baseName_value,hvalue,baseText_seps] at hall
    exfalso
    split at hall
    · rw [areAllSeparators,seps,List.all_replicate] at hall
      split at hall <;> cases hall
    · cases hall
  · exact ⟨pre,base,k,hvalue,hpre,hname,by rw [baseName_value,hvalue,baseText_based hpre hname]⟩

theorem replaceExtension_eq (h : Named self) (hne : name ≠ []) :
    self.replaceExtension ('.' :: name) = ofText (self.removeExtension.value ++ '.' :: name) := by
  have hvalue : self.value ≠ [] := by
    intro hnil
    refine h.ne_nil ?_
    rw [baseName_value,hnil]
    rfl
  have hdot : '.' :: name ≠ ['.'] := fun heq => hne (List.cons_eq_cons.mp heq).2
  rw [replaceExtension]
  dsimp only
  rw [if_neg hvalue,if_neg h.ne_nil,if_neg (fun hdots => hdots.2.elim h.notCurrent h.notParent),
    if_neg hdot]
  exact if_pos rfl

/-- An extension with a NUL in it is cut off. -/
theorem not_replaces_nul (h : nul ∈ name) : ¬ ReplacesName self ('.' :: name) := by
  rintro ⟨stem,-,-,hbase⟩
  refine (self.replaceExtension ('.' :: name)).baseName.noNul ?_
  rw [hbase]
  exact List.mem_append_right _ (List.mem_cons_of_mem _ h)

theorem ofText_based (hpre : Front pre) (hbase : Name base) (hnul : nul ∉ pre ++ base) :
    (ofText (pre ++ base)).dirName.value = dirText (pre ++ base) ∧
      (ofText (pre ++ base)).baseName.value = base := by
  have hbased := baseText_based hpre hbase 0
  rw [append_seps_zero] at hbased
  rw [dirName_value,baseName_value,ofText_of_notMem hnul]
  exact ⟨rfl,hbased⟩

theorem name_extended {front : Text} (hfront : '/' ∉ front) (hsep : '/' ∉ name) :
    Name (front ++ '.' :: name) := by
  refine ⟨List.append_ne_nil_of_right_ne_nil _ (List.cons_ne_nil _ _),fun hmem => ?_⟩
  rcases List.mem_append.mp hmem with hmem | hmem
  · exact hfront hmem
  · rcases List.mem_cons.mp hmem with hmem | hmem
    · exact absurd hmem (by decide)
    · exact hsep hmem

theorem nul_notMem_extended {front : Text} (hremoved : self.removeExtension.value = pre ++ front)
    (hnul : nul ∉ name) : nul ∉ pre ++ (front ++ '.' :: name) := by
  rw [← List.append_assoc,← hremoved]
  intro hmem
  rcases List.mem_append.mp hmem with hmem | hmem
  · exact self.removeExtension.noNul hmem
  · rcases List.mem_cons.mp hmem with hmem | hmem
    · exact absurd hmem (by decide)
    · exact hnul hmem

theorem replaced (stem : Text) (h : Named self) (hne : name ≠ []) (hsep : '/' ∉ name)
    (hnul : nul ∉ name)
    (hvalue : self.value = pre ++ base ++ seps k) (hpre : Front pre) (hname : Name base)
    (hbase : base = stem ++ self.extension) (hremoved : self.removeExtension.value = pre ++ stem) :
    ReplacesName self ('.' :: name) := by
  have hnew : Name (stem ++ '.' :: name) :=
    name_extended (fun hmem => hname.noSep (hbase ▸ List.mem_append_left _ hmem)) hsep
  have hall := nul_notMem_extended hremoved hnul
  obtain ⟨hdir,hlast⟩ := ofText_based hpre hnew hall
  have hsame := dirText_based hpre hnew hname 0 k
  rw [append_seps_zero] at hsame
  have hresult := replaceExtension_eq h hne
  rw [hremoved,List.append_assoc] at hresult
  refine ⟨stem,?_,?_,?_⟩
  · rw [baseName_value,hvalue,baseText_based hpre hname,hbase]
  · refine eq_of_value ?_
    rw [hresult,hdir,dirName_value,hvalue,hsame]
  · rw [hresult,hlast]

/-- The base name of what comes out, where the extension is put behind `front`. -/
theorem replaced_baseName (h : Named self) (hne : name ≠ []) (hnul : nul ∉ name) {front : Text}
    (hpre : Front pre) (hnew : Name (front ++ '.' :: name))
    (hremoved : self.removeExtension.value = pre ++ front) :
    (self.replaceExtension ('.' :: name)).baseName.value = front ++ '.' :: name := by
  have hall := nul_notMem_extended hremoved hnul
  rw [replaceExtension_eq h hne,hremoved,List.append_assoc]
  exact (ofText_based hpre hnew hall).2

theorem replaces_plain_iff (h : Named self) (hne : name ≠ []) (hsep : '/' ∉ name)
    (hnul : nul ∉ name)
    (hdot : '.' ∉ self.baseName.value) :
    ReplacesName self ('.' :: name) ↔ self.value.getLast? ≠ some '/' := by
  obtain ⟨pre,base,k,hvalue,hpre,hname,hbase⟩ := h.based
  have hlast : self.value.getLast? = some '/' ↔ 0 < k := by rw [hvalue,last_based hname]
  have hext : self.extension = [] := extension_plain hdot
  have hremoved : self.removeExtension = self := by rw [removeExtension,if_pos hext]
  rw [ne_eq,hlast]
  rcases k with _ | k
  · refine iff_of_true ?_ (Nat.lt_irrefl 0)
    refine replaced base h hne hsep hnul hvalue hpre hname ?_ ?_
    · rw [hext,List.append_nil]
    · rw [hremoved,hvalue,append_seps_zero]
  · refine iff_of_false ?_ (not_not.mpr (Nat.succ_pos k))
    rintro ⟨stem,hstem,-,hresult⟩
    have hfront : Front (pre ++ base ++ seps (k+1)) :=
      .inr ⟨pre ++ base ++ seps k,by rw [seps_succ,List.append_assoc (pre ++ base)]⟩
    have hnew : Name ([] ++ '.' :: name) := name_extended List.not_mem_nil hsep
    rw [replaced_baseName h hne hnul hfront hnew (by rw [hremoved,hvalue,List.append_nil])]
      at hresult
    have hnil : stem = [] := List.append_cancel_right hresult |>.symm
    rw [hext,hnil] at hstem
    exact h.ne_nil hstem

theorem replaces_dotted_iff (h : Named self) (hne : name ≠ []) (hsep : '/' ∉ name)
    (hnul : nul ∉ name) (hdotted : Dotted self pre a e k) : ReplacesName self ('.' :: name) ↔
      ¬ (self.value.getLast? = some '/' ∧ HasDouble self.baseName.value) := by
  have hlast : self.value.getLast? = some '/' ↔ 0 < k := by
    rw [hdotted.value,last_based hdotted.name]
  have hbase : self.baseName.value = a ++ '.' :: e := hdotted.baseText
  have ha : '/' ∉ a := fun hmem => hdotted.name.noSep (List.mem_append_left _ hmem)
  rw [hlast]
  rcases hdotted.single_or_double with ⟨hhas,b,m,rfl,hdouble⟩ | ⟨hhas,hsingle⟩
  · have hext := hdotted.extension_double hdouble
    have hsome : self.extension ≠ [] := by
      rw [hext]
      exact List.cons_ne_nil _ _
    rcases k with _ | k
    · refine iff_of_true ?_ fun hboth => absurd hboth.1 (Nat.lt_irrefl 0)
      refine replaced b h hne hsep hnul hdotted.value hdotted.front hdotted.name ?_
        (hdotted.removed_double hsome hdouble)
      rw [hext,List.append_assoc]
    · refine iff_of_false ?_ (not_not.mpr ⟨Nat.succ_pos k,hhas⟩)
      rintro ⟨stem,hstem,-,hresult⟩
      rw [replaced_baseName h hne hnul hdotted.front (name_extended ha hsep)
        (hdotted.removed_trailing hsome)] at hresult
      have hsame : b ++ '.' :: m = stem := List.append_cancel_right hresult
      rw [hbase,hext,← hsame] at hstem
      have hlength := congrArg List.length hstem
      simp only [List.length_append,List.length_cons] at hlength
      omega
  · have hext := hdotted.extension_single hsingle
    have hsome : self.extension ≠ [] := by
      rw [hext]
      exact List.cons_ne_nil _ _
    refine iff_of_true ?_ fun hboth => hhas hboth.2
    refine replaced a h hne hsep hnul hdotted.value hdotted.front hdotted.name ?_ ?_
    · rw [hext]
    · rcases k with _ | k
      · exact hdotted.removed_single hsome hsingle
      · exact hdotted.removed_trailing hsome

/-- `ReplaceExtension` names a file beside the old one, unless separators stand behind a name with
no extension or one of two parts, or the extension is cut off at a NUL. -/
theorem replaceExtension_iff (self : FilePath) (name : Text) (h : Named self) (hne : name ≠ [])
    (hsep : '/' ∉ name) : ReplacesName self ('.' :: name) ↔ nul ∉ name ∧
      ¬ (self.value.getLast? = some '/' ∧
        ('.' ∉ self.baseName.value ∨ HasDouble self.baseName.value)) := by
  by_cases hnul : nul ∈ name
  · exact iff_of_false (not_replaces_nul hnul) fun hall => hall.1 hnul
  rw [and_iff_right hnul]
  by_cases hdot : '.' ∈ self.baseName.value
  · obtain ⟨pre,a,e,k,hdotted⟩ := exists_dotted h.notCurrent h.notParent hdot
    rw [replaces_dotted_iff h hne hsep hnul hdotted,or_iff_right (not_not.mpr hdot)]
  · rw [replaces_plain_iff h hne hsep hnul hdot]
    exact not_congr (and_iff_left (.inl hdot)).symm

theorem replaceExtension_catalogue :
    ReplacesName (ofText "a.b//c.tar.gz".toList) ".json".toList ↔ nul ∉ "json".toList ∧
      ¬ ((ofText "a.b//c.tar.gz".toList).value.getLast? = some '/' ∧
        ('.' ∉ (ofText "a.b//c.tar.gz".toList).baseName.value ∨
          HasDouble (ofText "a.b//c.tar.gz".toList).baseName.value)) :=
  replaceExtension_iff _ _ ⟨by decide,by decide,by decide,by decide⟩ (by decide) (by decide)

/-- Behind a separator the extension is a name of its own. -/
theorem extension_behind_separator :
    (ofText "a/".toList).replaceExtension ".json".toList = ofText "a/.json".toList ∧
    (ofText "a.tar.gz/".toList).replaceExtension ".json".toList = ofText "a.tar.json".toList ∧
    ¬ ReplacesName (ofText "a/".toList) ".json".toList := by
  refine ⟨by decide,by decide,?_⟩
  rintro ⟨stem,hstem,-,hresult⟩
  have hext : (ofText "a/".toList).extension = [] := by decide
  have hbase : (ofText "a/".toList).baseName.value = ['a'] := by decide
  rw [hext,hbase,List.append_nil] at hstem
  rw [← hstem] at hresult
  exact absurd hresult (by decide)

end replace

end FilePath

end MprMq.Base
