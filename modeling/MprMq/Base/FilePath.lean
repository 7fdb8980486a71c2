import MprMq.Base.StringUtil
set_option autoImplicit false

/-! `FilePath`. There are no drive letters: `FindDriveLetter` is `npos`, so `letter+1`
is 0, `letter+2` is 1 and `letter+3` is 2. -/

namespace MprMq.Base

def isSeparator (c : Char) : Bool := c = '/'

def isExtensionSeparator (c : Char) : Bool := c = '.'

def kCurrentDirectory : Text := ".".toList

def kParentDirectory : Text := "..".toList

def kCommonDoubleExtensions : List Text := ["gz".toList,"z".toList,"bz2".toList]

def isPathAbsolute : Text → Bool
  | [] => false
  | c :: _ => isSeparator c

def stripLoop (path : Text) (lastStripped : Option Nat) : Nat → Text
  | 0 => path
  | pos+1 =>
    if 1 < pos+1 ∧ path[pos]?.any isSeparator then
      if pos+1 ≠ 2 ∨ lastStripped = some 3 ∨ ¬ path[0]?.any isSeparator then
        stripLoop (path.take pos) (some (pos+1)) pos
      else stripLoop path lastStripped pos
    else path

def stripTrailingSeparatorsInternal (path : Text) : Text := stripLoop path none path.length

theorem stripLoop_start (path : Text) (lastStripped : Option Nat) (pos : Nat) :
    stripLoop path lastStripped pos <+: path := by
  induction pos generalizing path lastStripped with
  | zero => exact List.prefix_rfl
  | succ pos ih =>
    unfold stripLoop
    split
    · split
      · exact (ih _ _).trans (List.take_prefix pos path)
      · exact ih _ _
    · exact List.prefix_rfl

theorem mem_strip {path : Text} {c : Char} (h : c ∈ stripTrailingSeparatorsInternal path) :
    c ∈ path := (stripLoop_start path none path.length).subset h

def extensionSeparatorPosition (path : Text) : Option Nat :=
  if path = kCurrentDirectory ∨ path = kParentDirectory then none
  else
    match findLast isExtensionSeparator path with
    | none => none
    | some 0 => some 0
    | some (i+1) =>
      let lastDot := i+1
      let extension := path.drop (lastDot+1)
      if kCommonDoubleExtensions.any (lowerCaseEqualsASCII extension) then
        let lastSeparator := findLastUpTo isSeparator path (lastDot-1)
        match findLastUpTo isExtensionSeparator path (lastDot-1) with
        | some penultimateDot =>
          if lastSeparator.all (fun j => j < penultimateDot) ∧ lastDot-penultimateDot ≤ 5 ∧
            1 < lastDot-penultimateDot then some penultimateDot
          else some lastDot
        | none => some lastDot
      else some lastDot

theorem extensionSeparatorPosition_cases {path : Text} {lastDot : Nat}
    (hcur : path ≠ kCurrentDirectory) (hpar : path ≠ kParentDirectory)
    (h : findLast isExtensionSeparator path = some lastDot) :
    ∃ dot, extensionSeparatorPosition path = some dot ∧ (dot = lastDot ∨ (dot ≤ lastDot ∧
      kCommonDoubleExtensions.any (lowerCaseEqualsASCII (path.drop (lastDot+1))))) := by
  unfold extensionSeparatorPosition
  rw [if_neg (by simp [hcur,hpar]),h]
  cases lastDot with
  | zero => exact ⟨0,rfl,.inl rfl⟩
  | succ i =>
    dsimp only
    split
    case isFalse => exact ⟨i+1,rfl,.inl rfl⟩
    case isTrue hdouble =>
      split
      case h_1 penultimateDot _ =>
        split
        · exact ⟨penultimateDot,rfl,.inr ⟨by omega,hdouble⟩⟩
        · exact ⟨i+1,rfl,.inl rfl⟩
      case h_2 => exact ⟨i+1,rfl,.inl rfl⟩

theorem strip_of_no_separator {path : Text} (h : ∀ c ∈ path, isSeparator c = false) :
    stripTrailingSeparatorsInternal path = path := by
  unfold stripTrailingSeparatorsInternal
  cases hlen : path.length with
  | zero => rfl
  | succ n =>
    unfold stripLoop
    rw [if_neg]
    rintro ⟨-,hsep⟩
    cases hc : path[n]? with
    | none => simp [hc] at hsep
    | some c =>
      rw [hc,Option.any_some,h c (List.mem_of_getElem? hc)] at hsep
      cases hsep

/-- The string of a `FilePath` ends before the first NUL, as its constructor makes it. -/
structure FilePath where
  value : Text
  noNul : nul ∉ value
  deriving DecidableEq

namespace FilePath

def ofText (path : Text) : FilePath := ⟨cString path,nul_notMem_cString path⟩

theorem ofText_of_notMem {path : Text} (h : nul ∉ path) : (ofText path).value = path :=
  cString_of_notMem h

theorem ofText_value (self : FilePath) : ofText self.value = self := by
  obtain ⟨value,hnul⟩ := self
  rw [FilePath.mk.injEq]
  exact ofText_of_notMem hnul

def stripTrailingSeparators (self : FilePath) : FilePath :=
  ⟨stripTrailingSeparatorsInternal self.value,fun h => self.noNul (mem_strip h)⟩

def dirPart (path : Text) : Text :=
  match findLast isSeparator path with
  | none => path.take 0
  | some 0 => path.take 1
  | some 1 => if path[0]?.any isSeparator then path.take 2 else path.take 1
  | some lastSeparator => path.take lastSeparator

theorem mem_dirPart {path : Text} {c : Char} (h : c ∈ dirPart path) : c ∈ path := by
  unfold dirPart at h
  split at h
  · exact List.mem_of_mem_take h
  · exact List.mem_of_mem_take h
  · split at h <;> exact List.mem_of_mem_take h
  · exact List.mem_of_mem_take h

def dirName (self : FilePath) : FilePath :=
  let stripped := stripTrailingSeparatorsInternal self.value
  let dir := stripTrailingSeparatorsInternal (dirPart stripped)
  if dir = [] then ⟨kCurrentDirectory,by decide⟩
  else ⟨dir,fun h => self.noNul (mem_strip (mem_dirPart (mem_strip h)))⟩

def basePart (path : Text) : Text :=
  match findLast isSeparator path with
  | none => path
  | some lastSeparator =>
    if lastSeparator < path.length-1 then path.drop (lastSeparator+1) else path

theorem mem_basePart {path : Text} {c : Char} (h : c ∈ basePart path) : c ∈ path := by
  unfold basePart at h
  split at h
  · exact h
  · split at h
    · exact List.mem_of_mem_drop h
    · exact h

def baseName (self : FilePath) : FilePath :=
  ⟨basePart (stripTrailingSeparatorsInternal self.value),
    fun h => self.noNul (mem_strip (mem_basePart h))⟩

def extension (self : FilePath) : Text :=
  match extensionSeparatorPosition self.baseName.value with
  | none => []
  | some dot => self.baseName.value.drop dot

def removeExtension (self : FilePath) : FilePath :=
  if self.extension = [] then self
  else
    match extensionSeparatorPosition self.value with
    | none => self
    | some dot => ofText (self.value.take dot)

def replaceExtension (self : FilePath) (extension : Text) : FilePath :=
  let base := self.baseName.value
  if self.value = [] then ofText []
  else if base = [] then ofText []
  else if base.getLast? = some '.' ∧ (base = kCurrentDirectory ∨ base = kParentDirectory) then
    ofText []
  else
    let noExt := self.removeExtension
    match extension with
    | [] => noExt
    | c :: rest =>
      if c :: rest = ['.'] then noExt
      else if isExtensionSeparator c then ofText (noExt.value ++ c :: rest)
      else ofText (noExt.value ++ '.' :: c :: rest)

def appended (self : FilePath) (component : Text) : FilePath :=
  let component := cString component
  let stripped := stripTrailingSeparatorsInternal self.value
  if self.value = kCurrentDirectory then ofText component
  else if component ≠ [] ∧ stripped ≠ [] ∧ ¬ stripped.getLast?.any isSeparator then
    ofText (stripped ++ '/' :: component)
  else ofText (stripped ++ component)

/-- `Append`; `none` is the failed `DCHECK`. -/
def append (self : FilePath) (component : Text) : Option FilePath :=
  if isPathAbsolute (cString component) then none else some (self.appended component)

theorem append_relative (self : FilePath) {component : Text}
    (h : isPathAbsolute (cString component) = false) :
    self.append component = some (self.appended component) := by
  simp [append,h]

theorem baseName_of_no_separator {self : FilePath}
    (h : ∀ c ∈ self.value, isSeparator c = false) : self.baseName = self := by
  obtain ⟨path,hnul⟩ := self
  have hlast := findLast_eq_none.mpr h
  simp [baseName,strip_of_no_separator h,basePart,hlast]

/-- Letters only are lowered, and none becomes the extension separator. -/
theorem toLower_eq_dot {c : Char} (h : c.toLower = '.') : c = '.' := by
  unfold Char.toLower at h
  split at h
  case isTrue hup =>
    have hval : c.val + 32 = 46 := congrArg Char.val h
    have hnat := congrArg UInt32.toNat hval
    rw [UInt32.toNat_add] at hnat
    have hge : 65 ≤ c.val.toNat := UInt32.le_iff_toNat_le.mp hup.1
    have hle : c.val.toNat ≤ 90 := UInt32.le_iff_toNat_le.mp hup.2
    have h32 : (32 : UInt32).toNat = 32 := rfl
    have h46 : (46 : UInt32).toNat = 46 := rfl
    omega
  case isFalse => exact h

theorem toLowerASCII_dotless {t : Text} (h : ∀ c ∈ t, isExtensionSeparator c = false) :
    ∀ c ∈ toLowerASCII t, isExtensionSeparator c = false := by
  intro c hc
  obtain ⟨d,hd,rfl⟩ := List.mem_map.mp hc
  have hdot := h d hd
  simp only [isExtensionSeparator,decide_eq_false_iff_not] at hdot ⊢
  exact fun hl => hdot (toLower_eq_dot hl)

/-- From anywhere up to the last dot, what is lowered splits there. -/
theorem toLowerASCII_last_dot {t : Text} {lastDot dot : Nat}
    (h : findLast isExtensionSeparator t = some lastDot) (hle : dot ≤ lastDot) :
    toLowerASCII (t.drop dot) =
      toLowerASCII ((t.take lastDot).drop dot) ++ '.' :: toLowerASCII (t.drop (lastDot+1)) := by
  obtain ⟨c,hc,hsplit,-⟩ := findLast_split h
  obtain rfl : c = '.' := by simpa [isExtensionSeparator] using hc
  have hlen : dot ≤ (t.take lastDot).length := by
    have := congrArg List.length hsplit
    simp only [List.length_append,List.length_cons,List.length_take,List.length_drop] at this ⊢
    omega
  conv_lhs => rw [hsplit,List.drop_append_of_le_length hlen]
  simp [toLowerASCII]

/-- A name with a last dot has the lowered extension `.ext` exactly when its lowered
text ends so, unless `ext` is one of the second parts of a double extension. -/
theorem extension_lower_iff (self : FilePath) (ext : Text)
    (hsep : ∀ c ∈ self.value, isSeparator c = false)
    (hcur : self.value ≠ kCurrentDirectory) (hpar : self.value ≠ kParentDirectory)
    (hext : ∀ c ∈ ext, isExtensionSeparator c = false) (hcommon : ext ∉ kCommonDoubleExtensions) :
    toLowerASCII self.extension = '.' :: ext ↔ '.' :: ext <:+ toLowerASCII self.value := by
  have hdot : isExtensionSeparator '.' = true := by decide
  unfold extension
  rw [baseName_of_no_separator hsep]
  cases hlast : findLast isExtensionSeparator self.value with
  | none =>
    have hnone : extensionSeparatorPosition self.value = none := by
      unfold extensionSeparatorPosition
      rw [if_neg (by simp [hcur,hpar]),hlast]
    rw [hnone]
    constructor
    · intro h
      cases h
    · intro h
      have := toLowerASCII_dotless (findLast_eq_none.mp hlast) '.' (h.subset (by simp))
      simp [isExtensionSeparator] at this
  | some lastDot =>
    obtain ⟨c,-,-,hpost⟩ := findLast_split hlast
    obtain ⟨dot,hpos,hcases⟩ := extensionSeparatorPosition_cases hcur hpar hlast
    have hpost' := toLowerASCII_dotless hpost
    rw [hpos]
    dsimp only
    have hlower := toLowerASCII_last_dot hlast (Nat.zero_le lastDot)
    rw [List.drop_zero,List.drop_zero] at hlower
    have hright : '.' :: ext <:+ toLowerASCII self.value ↔
        toLowerASCII (self.value.drop (lastDot+1)) = ext := by
      rw [hlower]
      constructor
      · rintro ⟨stem,hstem⟩
        exact (split_last_unique hstem hdot hdot hext hpost').2.2.symm
      · intro h
        rw [h]
        exact List.suffix_append _ _
    have hle : dot ≤ lastDot := by
      obtain h | ⟨h,-⟩ := hcases
      · exact h.le
      · exact h
    rw [hright,toLowerASCII_last_dot hlast hle]
    constructor
    · intro h
      exact (split_last_unique (u := []) h hdot hdot hpost' hext).2.2
    · intro h
      obtain rfl | ⟨-,hany⟩ := hcases
      · rw [h]
        simp [toLowerASCII]
      · obtain ⟨e,he,hlow⟩ := List.any_eq_true.mp hany
        have heq : e = ext := by
          rw [← h]
          exact (of_decide_eq_true hlow).symm
        exact absurd (heq ▸ he) hcommon

/-- What stands before the component depends on the directory only. -/
theorem appended_value (self : FilePath) :
    ∃ front : Text, ∀ component, nul ∉ component → component ≠ [] →
      (self.appended component).value = front ++ component := by
  by_cases hcur : self.value = kCurrentDirectory
  · refine ⟨[],fun component hnul _ => ?_⟩
    simp [appended,hcur,cString_of_notMem hnul,ofText]
  · have hstrip : nul ∉ stripTrailingSeparatorsInternal self.value :=
      fun h => self.noNul (mem_strip h)
    have hslash : nul ≠ '/' := by decide
    by_cases hsep : stripTrailingSeparatorsInternal self.value ≠ [] ∧
        ¬ (stripTrailingSeparatorsInternal self.value).getLast?.any isSeparator
    · refine ⟨stripTrailingSeparatorsInternal self.value ++ ['/'],fun component hnul hne => ?_⟩
      simp only [appended,cString_of_notMem hnul,if_neg hcur]
      rw [if_pos ⟨hne,hsep⟩,ofText_of_notMem (by simp [hstrip,hslash,hnul])]
      simp
    · refine ⟨stripTrailingSeparatorsInternal self.value,fun component hnul hne => ?_⟩
      simp only [appended,cString_of_notMem hnul,if_neg hcur]
      rw [if_neg (fun h => hsep h.2),ofText_of_notMem (by simp [hstrip,hnul])]

theorem appended_injective (self : FilePath) {c d : Text} (hc : nul ∉ c) (hd : nul ∉ d)
    (hc' : c ≠ []) (hd' : d ≠ []) (h : (self.appended c).value = (self.appended d).value) :
    c = d := by
  obtain ⟨front,hfront⟩ := self.appended_value
  rw [hfront c hc hc',hfront d hd hd'] at h
  exact List.append_cancel_left h

end FilePath
end MprMq.Base
