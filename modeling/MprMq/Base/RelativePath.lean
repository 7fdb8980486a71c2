import MprMq.Base.PathAppend
import MprMq.Base.PathCollapse
set_option autoImplicit false

/-! What `AppendRelativePath` appends, and that it leads from the parent to the child. -/

namespace MprMq.Base
variable {s t c : Text}

theorem withoutCurrent_append (cs ds : List Text) :
    withoutCurrent (cs ++ ds) = withoutCurrent cs ++ withoutCurrent ds := List.filter_append _ _

theorem root_of_relative {path : Text} (h : lead path = 0) : root path = [] := by
  rw [root,h]
  rfl

theorem withoutCurrent_root (path : Text) : withoutCurrent (root path) = root path := by
  by_cases hlead : lead path = 0
  · rw [root_of_relative hlead]
    rfl
  · rw [root]
    split
    · rfl
    · rfl
    · split <;> rfl
    · rfl

theorem withoutCurrent_components (path : Text) :
    withoutCurrent (components path) = root path ++ withoutCurrent (names path) := by
  rw [components]
  split
  case isTrue hlead =>
    rw [root_of_relative hlead,relativeNames,List.nil_append]
    split
    case h_1 hnames => rw [hnames]
    case h_2 n ns hnames =>
      rw [hnames]
      split
      case isTrue hcur =>
        rw [hcur.1]
        rfl
      case isFalse => rfl
  case isFalse => rw [withoutCurrent_append,withoutCurrent_root]

theorem names_chars {n : Text} (hn : n ∈ names t) {d : Char} (hd : d ∈ n) : d ∈ t := by
  induction t generalizing n with
  | nil => cases hn
  | cons a rest ih =>
    rw [names] at hn
    split at hn
    case isTrue => exact List.mem_cons_of_mem _ (ih hn hd)
    case isFalse =>
      split at hn
      case isTrue =>
        split at hn
        case h_1 =>
          rw [List.mem_singleton.mp hn] at hd
          exact List.mem_singleton.mp hd ▸ List.mem_cons_self
        case h_2 m ms hm =>
          rcases List.mem_cons.mp hn with rfl | hn
          · rcases List.mem_cons.mp hd with rfl | hd
            · exact List.mem_cons_self
            · exact List.mem_cons_of_mem _ (ih (hm ▸ List.mem_cons_self) hd)
          · exact List.mem_cons_of_mem _ (ih (hm ▸ List.mem_cons_of_mem _ hn) hd)
      case isFalse =>
        rcases List.mem_cons.mp hn with rfl | hn
        · exact List.mem_singleton.mp hd ▸ List.mem_cons_self
        · exact List.mem_cons_of_mem _ (ih hn hd)

structure Relative (t : Text) : Prop where
  ended : Ended t
  lead : lead t = 0

theorem Relative.not_absolute (h : Relative t) : isPathAbsolute t = false := by
  obtain ⟨a,rest,rfl⟩ := List.exists_cons_of_ne_nil h.ended.ne_nil
  have hlead := h.lead
  rw [lead_cons] at hlead
  split at hlead
  case isTrue => cases hlead
  case isFalse ha => exact isSeparator_other ha

theorem Name.relativePath (h : Name c) : Relative c := by
  have hlead := lead_name h []
  rw [List.append_nil] at hlead
  exact ⟨h.ended,hlead⟩

theorem names_append_name (s t : Text) : names (s ++ seps 1 ++ t) = names s ++ names t := by
  rw [List.append_assoc]
  exact names_append_sep s t

theorem names_seps_append (k : Nat) (t : Text) : names (seps k ++ t) = names t := by
  induction k with
  | zero => rfl
  | succ k ih => rw [seps,List.replicate_succ,List.cons_append,names_sep,← seps,ih]

theorem root_seps (k : Nat) : root (seps (k+1)) = if k = 1 then [seps 2] else [seps 1] := by
  rw [root,lead_seps,names_seps]
  rcases k with _ | _ | _ | k
  · rfl
  · rfl
  · rfl
  · rfl

theorem root_seps_append (k : Nat) (h : lead t = 0) : root (seps (k+1) ++ t) =
    if k = 1 ∨ k = 2 ∧ names t ≠ [] then [seps 2] else [seps 1] := by
  rw [root,lead_seps_append,h,names_seps_append]
  rcases k with _ | _ | _ | k
  · rfl
  · rfl
  · by_cases hnames : names t = []
    · simp [hnames]
    · simp [hnames]
  · refine (if_neg ?_).symm
    rintro (h | ⟨h,-⟩) <;> omega

/-- A name behind a relative path, where a current directory makes room for it. -/
theorem Relative.append (h : Relative t) (hc : Name c) : Relative (appendText t c) ∧
    withoutCurrent (names (appendText t c)) =
      withoutCurrent (names t) ++ withoutCurrent (names c) := by
  by_cases hcur : t = kCurrentDirectory
  · rw [hcur,appendText_current]
    exact ⟨hc.relativePath,rfl⟩
  · rw [appendText_ended h.ended hcur,names_append_name,withoutCurrent_append]
    refine ⟨⟨FilePath.ended_append hc.ended,?_⟩,rfl⟩
    rw [List.append_assoc,lead_ended h.ended,h.lead]

namespace FilePath

theorem append_empty (h : Name c) (hnul : nul ∉ c) :
    ∃ r, (ofText []).append c = some r ∧ r.value = c := by
  have hrelative : isPathAbsolute (cString c) = false := h.cString_relative
  refine ⟨_,append_relative _ hrelative,?_⟩
  have hempty : (ofText []).value = [] := rfl
  rw [appended,cString_of_notMem hnul,hempty,if_neg (by decide),if_neg (fun hall => hall.2.1 rfl)]
  exact ofText_of_notMem hnul

theorem appendAll_names (self : FilePath) (h : Relative self.value) {rest : List Text}
    (hrest : ∀ c ∈ rest, Name c ∧ nul ∉ c) : ∃ r, appendAll self rest = some r ∧
      Relative r.value ∧ withoutCurrent (names r.value) =
        withoutCurrent (names self.value) ++ withoutCurrent rest := by
  induction rest generalizing self with
  | nil => exact ⟨self,rfl,h,(List.append_nil _).symm⟩
  | cons c rest ih =>
    obtain ⟨hc,hnul⟩ := hrest c List.mem_cons_self
    have hdir : stripTrailingSeparatorsInternal self.value ≠ [] := by
      rw [strip_ended h.ended]
      exact h.ended.ne_nil
    obtain ⟨r,hr,hvalue⟩ := append_name self hc hnul hdir
    obtain ⟨hrelative,hnames⟩ := h.append hc
    rw [← hvalue] at hrelative hnames
    obtain ⟨last,hlast,hlastRelative,hlastNames⟩ :=
      ih r hrelative fun d hd => hrest d (List.mem_cons_of_mem _ hd)
    refine ⟨last,?_,hlastRelative,?_⟩
    · rw [appendAll,hr]
      exact hlast
    · rw [hlastNames,hnames,names_name hc,List.append_assoc,← withoutCurrent_append,
        List.singleton_append]

theorem appendAll_empty {rest : List Text} (hne : rest ≠ [])
    (hrest : ∀ c ∈ rest, Name c ∧ nul ∉ c) : ∃ r, appendAll (ofText []) rest = some r ∧
      Relative r.value ∧ withoutCurrent (names r.value) = withoutCurrent rest := by
  obtain ⟨c,rest,rfl⟩ := List.exists_cons_of_ne_nil hne
  obtain ⟨hc,hnul⟩ := hrest c List.mem_cons_self
  obtain ⟨r,hr,hvalue⟩ := append_empty hc hnul
  obtain ⟨last,hlast,hrelative,hnames⟩ := appendAll_names r (hvalue ▸ hc.relativePath)
    fun d hd => hrest d (List.mem_cons_of_mem _ hd)
  refine ⟨last,?_,hrelative,?_⟩
  · rw [appendAll,hr]
    exact hlast
  · rw [hnames,hvalue,names_name hc,← withoutCurrent_append,List.singleton_append]

/-- What is behind the parent's components is added to them. -/
theorem append_joined (self : FilePath) (ht : Relative t) (hnul : nul ∉ t)
    (hself : components self.value ≠ []) : ∃ joined, self.append t = some joined ∧
      withoutCurrent (components joined.value) =
        withoutCurrent (components self.value) ++ withoutCurrent (names t) := by
  have hcur : self.value ≠ kCurrentDirectory := by
    intro heq
    rw [heq] at hself
    exact hself components_current
  obtain ⟨front,k,hvalue,hfront⟩ := exists_trailing self.value
  rcases hfront with rfl | hfront
  · rcases k with _ | k
    · rw [hvalue] at hself
      exact absurd rfl hself
    have hdir : stripTrailingSeparatorsInternal self.value ≠ [] := by
      rw [hvalue,List.nil_append,strip_seps]
      split <;> exact List.cons_ne_nil _ _
    obtain ⟨joined,hjoined,heq⟩ := append_text self ht.ended.ne_nil ht.not_absolute hnul hdir
    refine ⟨joined,hjoined,?_⟩
    rw [heq,hvalue,List.nil_append,appendText_seps,withoutCurrent_components,
      withoutCurrent_components,names_seps,root_seps]
    split
    · rw [root_seps_append 1 ht.lead,names_seps_append]
      rfl
    · rw [root_seps_append 0 ht.lead,names_seps_append]
      rfl
  · have hdir : stripTrailingSeparatorsInternal self.value ≠ [] := by
      rw [hvalue,strip_trailing hfront]
      exact hfront.ne_nil
    obtain ⟨joined,hjoined,heq⟩ := append_text self ht.ended.ne_nil ht.not_absolute hnul hdir
    refine ⟨joined,hjoined,?_⟩
    rw [hvalue] at hcur
    have hne : names (front ++ (seps 1 ++ t)) ≠ [] := by
      rw [← List.append_assoc,names_append_name]
      exact List.append_ne_nil_of_left_ne_nil (names_ended hfront) _
    have hne' : names (front ++ seps k) ≠ [] := by
      rw [names_trailing]
      exact names_ended hfront
    rw [heq,hvalue,appendText_trailing hfront k hcur,withoutCurrent_components,
      withoutCurrent_components,names_append_name,names_trailing,withoutCurrent_append,
      List.append_assoc front,root_ended hfront _ hne,root_ended hfront _ hne',List.append_assoc]

theorem matchComponents_append (parent rest : List Text) :
    matchComponents parent (parent ++ rest) = some rest := by
  induction parent with
  | nil => rfl
  | cons p parent ih => rw [List.cons_append,matchComponents,if_neg (not_not.mpr rfl),ih]

def Below (parent child : List Text) : Prop :=
  parent ≠ [] ∧ ∃ rest, rest ≠ [] ∧ child = parent ++ rest

theorem appendBehind_below {parent rest : List Text} (hparent : parent ≠ []) (hrest : rest ≠ [])
    (path : FilePath) : appendBehind parent (parent ++ rest) (some path) =
      (appendAll path rest).map fun path => (true,some path) := by
  have hpos := List.length_pos_iff.mpr hrest
  unfold appendBehind
  rw [if_neg (by rw [List.length_append]; omega),
    if_neg (fun hzero => hparent (List.length_eq_zero_iff.mp hzero)),matchComponents_append]

theorem appendBehind_not_below {parent child : List Text} (h : ¬ Below parent child)
    (path : FilePath) : appendBehind parent child (some path) = some (false,some path) := by
  unfold appendBehind
  split
  · rfl
  split
  · rfl
  case isFalse hlength hempty =>
    rcases hmatch : matchComponents parent child with _ | rest
    · rfl
    · have hchild := matchComponents_some hmatch
      refine absurd ⟨fun hnil => hempty (hnil ▸ rfl),rest,fun hnil => hlength ?_,hchild⟩ h
      rw [hchild,hnil,List.append_nil]

theorem below_names {parent rest : List Text} {child : FilePath} (hparent : parent ≠ [])
    (h : components child.value = parent ++ rest) : ∀ c ∈ rest, Name c ∧ nul ∉ c := by
  intro c hc
  obtain ⟨first,parents,rfl⟩ := List.exists_cons_of_ne_nil hparent
  have hmem := mem_names_of_component h (List.mem_append_right _ hc)
  exact ⟨mem_names hmem,fun hnul => child.noNul (names_chars hmem hnul)⟩

/-- `AppendRelativePath` finds the paths below a path, and the way to them. -/
theorem append_relative_path (parent child : FilePath) : ∃ cs ds ret rel,
    (∀ fuel, parent.value.length+2 ≤ fuel → child.value.length+2 ≤ fuel →
      parent.getComponents fuel = some cs ∧ child.getComponents fuel = some ds ∧
      parent.appendRelativePath fuel child (some (ofText [])) = some (ret,some rel)) ∧
    (ret = true ↔ Below cs ds) ∧
    (ret = true → ∃ joined, parent.append rel.value = some joined ∧
      ∃ es, (∀ fuel, joined.value.length+2 ≤ fuel → joined.getComponents fuel = some es) ∧
        withoutCurrent es = withoutCurrent ds) := by
  have hends (answer : Bool × Option FilePath)
      (h : appendBehind (components parent.value) (components child.value) (some (ofText [])) =
        some answer) (fuel : Nat) (hparent : parent.value.length+2 ≤ fuel)
      (hchild : child.value.length+2 ≤ fuel) :
      parent.getComponents fuel = some (components parent.value) ∧
      child.getComponents fuel = some (components child.value) ∧
      parent.appendRelativePath fuel child (some (ofText [])) = some answer :=
    ⟨parent.getComponents_eq hparent,child.getComponents_eq hchild,
      (appendRelativePath_eq _ hparent hchild).trans h⟩
  by_cases hbelow : Below (components parent.value) (components child.value)
  · obtain ⟨hne,rest,hrest,hchild⟩ := id hbelow
    have hnames := below_names hne hchild
    obtain ⟨rel,happend,hrelative,hrel⟩ := appendAll_empty hrest hnames
    have hbehind := appendBehind_below hne hrest (ofText [])
    rw [happend,← hchild] at hbehind
    refine ⟨_,_,true,rel,hends _ hbehind,iff_of_true rfl hbelow,fun _ => ?_⟩
    obtain ⟨joined,hjoined,heq⟩ := append_joined parent hrelative rel.noNul hne
    refine ⟨joined,hjoined,_,fun fuel hfuel => joined.getComponents_eq hfuel,?_⟩
    rw [heq,hrel,hchild,withoutCurrent_append]
  · have hbehind := appendBehind_not_below hbelow (ofText [])
    exact ⟨_,_,false,_,hends _ hbehind,iff_of_false Bool.false_ne_true hbelow,
      fun h => absurd h Bool.false_ne_true⟩

end FilePath

end MprMq.Base
