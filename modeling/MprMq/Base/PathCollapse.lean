import MprMq.Base.PathComponents
set_option autoImplicit false

/-! Paths whose runs of separators are collapsed, and what `IsParent` and `AppendRelativePath` make
of them. -/

namespace MprMq.Base
namespace FilePath

/-- The loop over both lists; what is left of the child's, or `none` when they differ. -/
def matchComponents : List Text → List Text → Option (List Text)
  | [], child => some child
  | _ :: _, [] => none
  | parentComp :: parent, childComp :: child =>
    if parentComp ≠ childComp then none else matchComponents parent child

def appendAll : FilePath → List Text → Option FilePath
  | path, [] => some path
  | path, childComp :: child => (path.append childComp).bind fun path => appendAll path child

/-- `AppendRelativePath` behind the two calls: what it returns, and the path behind the pointer,
unless that is null. -/
def appendBehind (parentComponents childComponents : List Text) (path : Option FilePath) :
    Option (Bool × Option FilePath) :=
  if childComponents.length ≤ parentComponents.length then some (false,path)
  else if parentComponents.length = 0 then some (false,path)
  else
    match matchComponents parentComponents childComponents,path with
    | none,path => some (false,path)
    | some _,none => some (true,none)
    | some rest,some path => (appendAll path rest).map fun path => (true,some path)

/-- `none` when the fuel does not do, or a check of `Append` failed. -/
def appendRelativePath (fuel : Nat) (self child : FilePath) (path : Option FilePath) :
    Option (Bool × Option FilePath) := do
  let parentComponents ← self.getComponents fuel
  let childComponents ← child.getComponents fuel
  appendBehind parentComponents childComponents path

def isParent (fuel : Nat) (self child : FilePath) : Option Bool :=
  (self.appendRelativePath fuel child none).map Prod.fst

theorem matchComponents_some {parent child rest : List Text}
    (h : matchComponents parent child = some rest) : child = parent ++ rest := by
  induction parent generalizing child with
  | nil => exact Option.some.inj h
  | cons p parent ih =>
    cases child with
    | nil => cases h
    | cons c child =>
      rw [matchComponents] at h
      split at h
      case isTrue => cases h
      case isFalse hsame => rw [not_not.mp hsame,ih h,List.cons_append]

theorem appendAll_relative (path : FilePath) {rest : List Text}
    (h : ∀ c ∈ rest, isPathAbsolute (cString c) = false) : ∃ r, appendAll path rest = some r := by
  induction rest generalizing path with
  | nil => exact ⟨path,rfl⟩
  | cons c rest ih =>
    rw [appendAll,append_relative path (h c List.mem_cons_self)]
    exact ih _ fun d hd => h d (List.mem_cons_of_mem _ hd)

end FilePath

theorem mem_names {n : Text} {t : Text} (h : n ∈ names t) : Name n := by
  induction t generalizing n with
  | nil => cases h
  | cons c rest ih =>
    rw [names] at h
    split at h
    case isTrue => exact ih h
    case isFalse hc =>
      split at h
      case isTrue =>
        split at h
        case h_1 =>
          rw [List.mem_singleton.mp h]
          exact ⟨List.cons_ne_nil _ _,by simpa using Ne.symm hc⟩
        case h_2 m ms hm =>
          rcases List.mem_cons.mp h with rfl | h
          · have hname := ih (hm ▸ List.mem_cons_self)
            refine ⟨List.cons_ne_nil _ _,fun hmem => ?_⟩
            rcases List.mem_cons.mp hmem with heq | hmem
            · exact hc heq.symm
            · exact hname.noSep hmem
          · exact ih (hm ▸ List.mem_cons_of_mem _ h)
      case isFalse =>
        rcases List.mem_cons.mp h with rfl | h
        · exact ⟨List.cons_ne_nil _ _,by simpa using Ne.symm hc⟩
        · exact ih h

theorem Name.cString_relative {n : Text} (h : Name n) : isPathAbsolute (cString n) = false := by
  obtain ⟨c,rest,rfl⟩ := List.exists_cons_of_ne_nil h.ne_nil
  have hsep := h.no_separator c List.mem_cons_self
  rw [cString,List.takeWhile_cons]
  split
  · exact hsep
  · rfl

theorem root_single {path : Text} (h : lead path ≠ 0) : ∃ front, root path = [front] := by
  rw [root]
  split
  case h_1 hzero => exact absurd hzero h
  case h_2 => exact ⟨_,rfl⟩
  case h_3 =>
    split
    · exact ⟨_,rfl⟩
    · exact ⟨_,rfl⟩
  case h_4 => exact ⟨_,rfl⟩

theorem mem_names_of_component {path first : Text} {rest : List Text}
    (h : components path = first :: rest) {n : Text} (hn : n ∈ rest) : n ∈ names path := by
  rw [components] at h
  split at h
  case isTrue =>
    rw [relativeNames] at h
    split at h
    case h_1 => cases h
    case h_2 m ms hnames =>
      rw [hnames]
      split at h
      case isTrue => exact List.mem_cons_of_mem _ (h ▸ List.mem_cons_of_mem _ hn)
      case isFalse => exact h ▸ List.mem_cons_of_mem _ hn
  case isFalse hlead =>
    obtain ⟨front,hroot⟩ := root_single hlead
    rw [hroot] at h
    have htail : names path = rest := (List.cons_eq_cons.mp h).2
    rwa [htail]

namespace FilePath
variable {self child : FilePath} {fuel : Nat}

theorem appendRelativePath_eq (path : Option FilePath) (hself : self.value.length+2 ≤ fuel)
    (hchild : child.value.length+2 ≤ fuel) : self.appendRelativePath fuel child path =
      appendBehind (components self.value) (components child.value) path := by
  rw [appendRelativePath,self.getComponents_eq hself,child.getComponents_eq hchild]
  rfl

theorem appendBehind_ends (parent child : Text) (path : Option FilePath) :
    ∃ answer, appendBehind (components parent) (components child) path = some answer := by
  unfold appendBehind
  split
  · exact ⟨_,rfl⟩
  split
  · exact ⟨_,rfl⟩
  case isFalse hempty =>
    rcases hmatch : matchComponents (components parent) (components child) with _ | rest
    · exact ⟨_,rfl⟩
    cases path with
    | none => exact ⟨_,rfl⟩
    | some path =>
      obtain ⟨first,parents,hparent⟩ := List.exists_cons_of_ne_nil
        (fun hnil => hempty (List.length_eq_zero_iff.mpr hnil))
      have hchild := matchComponents_some hmatch
      rw [hparent,List.cons_append] at hchild
      obtain ⟨r,hr⟩ := appendAll_relative path fun c hc =>
        (mem_names (mem_names_of_component hchild (List.mem_append_right _ hc))).cString_relative
      refine ⟨(true,some r),?_⟩
      dsimp only
      rw [hr]
      rfl

end FilePath

/-- Every run of separators collapsed to one. -/
def squeeze : Text → Text
  | [] => []
  | c :: rest => if c = '/' ∧ rest.head? = some '/' then squeeze rest else c :: squeeze rest

/-- A path that begins with exactly two separators keeps them. -/
def collapse (path : Text) : Text := if lead path = 2 then '/' :: squeeze path else squeeze path

theorem head_squeeze (t : Text) : (squeeze t).head? = t.head? := by
  induction t with
  | nil => rfl
  | cons c rest ih =>
    rw [squeeze]
    split
    case isTrue h => rw [ih,h.2,h.1,List.head?_cons]
    case isFalse => rfl

theorem names_squeeze (t : Text) : names (squeeze t) = names t := by
  induction t with
  | nil => rfl
  | cons c rest ih =>
    rw [squeeze]
    split
    case isTrue h => rw [ih,h.1,names_sep]
    case isFalse => rw [names,names,startsName,startsName,head_squeeze,ih]

theorem lead_cons (c : Char) (rest : Text) :
    lead (c :: rest) = if c = '/' then lead rest+1 else 0 := by
  rw [lead,List.takeWhile_cons]
  by_cases hc : c = '/'
  · rw [if_pos hc,if_pos (isSeparator_iff.mpr hc)]
    rfl
  · rw [if_neg hc,if_neg (fun hsep => hc (isSeparator_iff.mp hsep))]
    rfl

theorem lead_eq_zero (t : Text) : lead t = 0 ↔ t.head? ≠ some '/' := by
  cases t with
  | nil => simp [lead]
  | cons c rest =>
    rw [lead_cons]
    split <;> simp_all

theorem lead_squeeze (t : Text) : lead (squeeze t) = min 1 (lead t) := by
  induction t with
  | nil => rfl
  | cons c rest ih =>
    rw [squeeze,lead_cons]
    split
    case isTrue h =>
      have hrest : lead rest ≠ 0 := fun hzero => (lead_eq_zero rest).mp hzero h.2
      rw [ih,if_pos h.1]
      omega
    case isFalse h =>
      rw [lead_cons]
      split
      case isTrue hc =>
        have hrest : lead rest = 0 := (lead_eq_zero rest).mpr fun hhead => h ⟨hc,hhead⟩
        rw [ih]
        omega
      case isFalse => rfl

theorem mem_squeeze {t : Text} {c : Char} (h : c ∈ squeeze t) : c ∈ t := by
  induction t with
  | nil => exact h
  | cons d rest ih =>
    rw [squeeze] at h
    split at h
    · exact List.mem_cons_of_mem _ (ih h)
    · exact (List.mem_cons.mp h).elim (fun heq => heq ▸ List.mem_cons_self)
        fun hrest => List.mem_cons_of_mem _ (ih hrest)

theorem collapse_relative {path : Text} (h : lead path = 0) : collapse path = squeeze path := by
  refine if_neg ?_
  rw [h]
  decide

theorem names_collapse (path : Text) : names (collapse path) = names path := by
  rw [collapse]
  split
  · rw [names_sep,names_squeeze]
  · exact names_squeeze path

theorem lead_collapse (path : Text) :
    lead (collapse path) = if lead path = 2 then 2 else min 1 (lead path) := by
  rw [collapse]
  split
  case isTrue h =>
    rw [lead_cons,if_pos rfl,lead_squeeze,h]
    rfl
  case isFalse => exact lead_squeeze path

theorem squeeze_current (path : Text) :
    squeeze path = kCurrentDirectory ↔ path = kCurrentDirectory := by
  constructor
  · intro h
    rcases path with _ | ⟨c,rest⟩
    · cases h
    have hhead := head_squeeze (c :: rest)
    rw [h] at hhead
    obtain rfl : '.' = c := Option.some.inj hhead
    rw [squeeze,if_neg (fun hsep => absurd hsep.1 (by decide))] at h
    have hrest := head_squeeze rest
    rw [(List.cons_eq_cons.mp h).2] at hrest
    rw [List.head?_eq_none_iff.mp hrest.symm]
    rfl
  · rintro rfl
    rfl

/-- Three separators in front of a name are read as two. -/
theorem root_collapse_iff {path : Text} (h : lead path ≠ 0) :
    root (collapse path) = root path ↔ ¬ (lead path = 3 ∧ names path ≠ []) := by
  have hone : [seps 1] ≠ [seps 2] := by decide
  rw [root,root,lead_collapse,names_collapse]
  rcases hlead : lead path with _ | _ | _ | _ | k
  · exact absurd hlead h
  · simp
  · simp
  · by_cases hnames : names path = []
    · simp [hnames]
    · simp [hnames,hone]
  · simp

theorem components_collapse_iff (path : Text) : components (collapse path) = components path ↔
    ¬ (lead path = 3 ∧ names path ≠ []) := by
  by_cases hlead : lead path = 0
  · have hleft : lead (collapse path) = 0 := by
      rw [lead_collapse,hlead]
      rfl
    rw [components,components,if_pos hleft,if_pos hlead,relativeNames,relativeNames,
      names_collapse,collapse_relative hlead,hlead]
    simp [squeeze_current]
  · have hleft : lead (collapse path) ≠ 0 := by
      rw [lead_collapse]
      split <;> omega
    rw [components,components,if_neg hleft,if_neg hlead,names_collapse,
      List.append_left_inj,root_collapse_iff hlead]

theorem exists_lead (path : Text) : ∃ rest, path = seps (lead path) ++ rest ∧
    (rest = [] ∨ ∃ c t, rest = c :: t ∧ c ≠ '/') := by
  induction path with
  | nil => exact ⟨[],rfl,.inl rfl⟩
  | cons c t ih =>
    rw [lead_cons]
    split
    case isTrue hc =>
      obtain ⟨rest,heq,hrest⟩ := ih
      refine ⟨rest,?_,hrest⟩
      rw [hc,seps,List.replicate_succ,List.cons_append,← seps,← heq]
    case isFalse hc => exact ⟨c :: t,rfl,.inr ⟨c,t,rfl,hc⟩⟩

theorem three_iff (path : Text) : lead path = 3 ∧ names path ≠ [] ↔
    ∃ c rest, path = "///".toList ++ c :: rest ∧ c ≠ '/' := by
  constructor
  · rintro ⟨hlead,hnames⟩
    obtain ⟨rest,heq,hrest⟩ := exists_lead path
    rw [hlead] at heq
    rcases hrest with rfl | ⟨c,t,rfl,hc⟩
    · rw [heq,List.append_nil,names_seps] at hnames
      exact absurd rfl hnames
    · exact ⟨c,t,heq,hc⟩
  · rintro ⟨c,rest,rfl,hc⟩
    constructor
    · have hlead : lead (c :: rest) = 0 := by rw [lead_cons,if_neg hc]
      have hthree := lead_seps_append 3 (c :: rest)
      rwa [hlead] at hthree
    · exact names_ne_nil (t := c :: rest) (by simpa [startsName] using hc)

namespace FilePath

def collapsed (self : FilePath) : FilePath :=
  ⟨collapse self.value,fun h => self.noNul (by
    rw [collapse] at h
    split at h
    · exact mem_squeeze ((List.mem_cons.mp h).resolve_left (by decide))
    · exact mem_squeeze h)⟩

def Agree {α : Type} (x y : Option α) : Prop := ∃ answer, x = some answer ∧ y = some answer

structure SameAnswers (one other : FilePath) : Prop where
  getComponents : ∀ fuel, one.value.length+2 ≤ fuel → other.value.length+2 ≤ fuel →
    Agree (one.getComponents fuel) (other.getComponents fuel)
  appendRelativePath : ∀ (third : FilePath) (path : Option FilePath) (fuel : Nat),
    one.value.length+2 ≤ fuel → other.value.length+2 ≤ fuel → third.value.length+2 ≤ fuel →
    Agree (one.appendRelativePath fuel third path) (other.appendRelativePath fuel third path) ∧
    Agree (third.appendRelativePath fuel one path) (third.appendRelativePath fuel other path)
  isParent : ∀ (third : FilePath) (fuel : Nat),
    one.value.length+2 ≤ fuel → other.value.length+2 ≤ fuel → third.value.length+2 ≤ fuel →
    Agree (one.isParent fuel third) (other.isParent fuel third) ∧
    Agree (third.isParent fuel one) (third.isParent fuel other)

theorem Agree.map {α β : Type} {x y : Option α} (h : Agree x y) (f : α → β) :
    Agree (x.map f) (y.map f) := by
  obtain ⟨answer,rfl,rfl⟩ := h
  exact ⟨f answer,rfl,rfl⟩

/-- The answers are made from the components. -/
theorem sameAnswers_iff (self other : FilePath) :
    SameAnswers self other ↔ components self.value = components other.value := by
  constructor
  · intro h
    obtain ⟨cs,hself,hother⟩ := h.getComponents (self.value.length+other.value.length+2)
      (by omega) (by omega)
    rw [self.getComponents_eq (by omega)] at hself
    rw [other.getComponents_eq (by omega)] at hother
    rw [Option.some.inj hself,Option.some.inj hother]
  · intro h
    have happend (third : FilePath) (path : Option FilePath) (fuel : Nat)
        (hself : self.value.length+2 ≤ fuel) (hother : other.value.length+2 ≤ fuel)
        (hthird : third.value.length+2 ≤ fuel) :
        Agree (self.appendRelativePath fuel third path)
          (other.appendRelativePath fuel third path) ∧
        Agree (third.appendRelativePath fuel self path)
          (third.appendRelativePath fuel other path) := by
      rw [appendRelativePath_eq path hself hthird,appendRelativePath_eq path hother hthird,
        appendRelativePath_eq path hthird hself,appendRelativePath_eq path hthird hother,← h]
      obtain ⟨answer,hanswer⟩ := appendBehind_ends self.value third.value path
      obtain ⟨back,hback⟩ := appendBehind_ends third.value self.value path
      exact ⟨⟨answer,hanswer,hanswer⟩,⟨back,hback,hback⟩⟩
    refine ⟨?_,happend,?_⟩
    · intro fuel hself hother
      rw [self.getComponents_eq hself,other.getComponents_eq hother,← h]
      exact ⟨_,rfl,rfl⟩
    · intro third fuel hself hother hthird
      obtain ⟨hparent,hchild⟩ := happend third none fuel hself hother hthird
      exact ⟨hparent.map Prod.fst,hchild.map Prod.fst⟩

/-- Runs of separators do not matter, except three before a name. -/
theorem collapsed_same_iff (self : FilePath) : SameAnswers self self.collapsed ↔
    ¬ ∃ c rest, self.value = "///".toList ++ c :: rest ∧ c ≠ '/' := by
  rw [sameAnswers_iff,eq_comm,← three_iff]
  exact components_collapse_iff self.value

/-- The root before a name is two separators for three of them, and one for four. -/
theorem three_separators :
    (ofText "///a".toList).collapsed = ofText "/a".toList ∧
    (ofText "///a".toList).getComponents 6 = some ["//".toList,"a".toList] ∧
    (ofText "/a".toList).getComponents 6 = some ["/".toList,"a".toList] ∧
    (ofText "////a".toList).getComponents 7 = some ["/".toList,"a".toList] ∧
    (ofText "/".toList).isParent 6 (ofText "///a".toList) = some false ∧
    (ofText "/".toList).isParent 6 (ofText "/a".toList) = some true ∧
    ¬ SameAnswers (ofText "///a".toList) (ofText "///a".toList).collapsed := by
  refine ⟨by decide,by decide,by decide,by decide,by decide,by decide,?_⟩
  intro h
  obtain ⟨cs,hself,hother⟩ := h.getComponents 6 (by decide) (by decide)
  rw [← hother] at hself
  exact absurd hself (by decide)

end FilePath

end MprMq.Base
