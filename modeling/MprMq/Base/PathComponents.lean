import MprMq.Base.DirName
set_option autoImplicit false

/-! `GetComponents`, the root and the names that it finds, and the loop of
`CreateDirectoryAndGetError`. -/

namespace MprMq.Base

def areAllSeparators (input : Text) : Bool := input.all isSeparator

namespace FilePath

def componentsLoop : Nat → FilePath → List Text → Option (List Text × FilePath)
  | 0, _, _ => none
  | fuel+1, current, retVal =>
    if current ≠ current.dirName then
      let base := current.baseName
      componentsLoop fuel current.dirName
        (if areAllSeparators base.value then retVal else retVal ++ [base.value])
    else some (retVal,current)

def getComponents (fuel : Nat) (self : FilePath) : Option (List Text) :=
  if self.value = [] then some []
  else do
    let (retVal,current) ← componentsLoop fuel self []
    let base := current.baseName
    let retVal := if base.value ≠ [] ∧ base.value ≠ kCurrentDirectory then
        retVal ++ [base.value]
      else retVal
    return retVal.reverse

end FilePath

def startsName (t : Text) : Bool := t.head?.any fun c => c ≠ '/'

def names : Text → List Text
  | [] => []
  | c :: rest =>
    if c = '/' then names rest
    else if startsName rest then
      match names rest with
      | [] => [[c]]
      | n :: ns => (c :: n) :: ns
    else [c] :: names rest

def lead (path : Text) : Nat := (path.takeWhile isSeparator).length

/-- The component that the separators in front are, and of three of them it matters what follows. -/
def root (path : Text) : List Text :=
  match lead path with
  | 0 => []
  | 2 => [seps 2]
  | 3 => if names path = [] then [seps 1] else [seps 2]
  | _ => [seps 1]

/-- A current directory in front is left out, unless it is all there is and has separators behind
it. -/
def relativeNames (path : Text) : List Text :=
  match names path with
  | [] => []
  | n :: ns => if n = kCurrentDirectory ∧ (ns ≠ [] ∨ path = kCurrentDirectory) then ns else n :: ns

def components (path : Text) : List Text :=
  if lead path = 0 then relativeNames path else root path ++ names path

section names
variable {base dir : Text}

theorem names_sep (t : Text) : names ('/' :: t) = names t := if_pos rfl

theorem names_ne_nil {t : Text} (h : startsName t = true) : names t ≠ [] := by
  cases t with
  | nil => cases h
  | cons c rest =>
    have hc : c ≠ '/' := by simpa [startsName] using h
    rw [names,if_neg hc]
    split
    · split
      · exact List.cons_ne_nil _ _
      · exact List.cons_ne_nil _ _
    · exact List.cons_ne_nil _ _

theorem names_append_sep (s t : Text) : names (s ++ '/' :: t) = names s ++ names t := by
  induction s with
  | nil => exact names_sep t
  | cons c s ih =>
    rw [List.cons_append,names,names]
    by_cases hc : c = '/'
    · rw [if_pos hc,if_pos hc,ih]
    · rw [if_neg hc,if_neg hc,ih]
      cases s with
      | nil => simp [startsName,names]
      | cons d s =>
        have hstart : startsName (d :: s ++ '/' :: t) = startsName (d :: s) := rfl
        rw [hstart]
        split
        case isTrue hname =>
          obtain ⟨n,ns,hns⟩ := List.exists_cons_of_ne_nil (names_ne_nil hname)
          rw [hns]
          rfl
        case isFalse => rfl

theorem names_name (h : Name base) : names base = [base] := by
  obtain ⟨hne,hsep⟩ := h
  induction base with
  | nil => exact absurd rfl hne
  | cons c base ih =>
    have hc : c ≠ '/' := fun heq => hsep (heq ▸ List.mem_cons_self)
    have hrest : '/' ∉ base := fun hmem => hsep (List.mem_cons_of_mem _ hmem)
    rw [names,if_neg hc]
    cases base with
    | nil => rfl
    | cons d base =>
      have hd : d ≠ '/' := fun heq => hrest (heq ▸ List.mem_cons_self)
      rw [if_pos (by simpa [startsName] using hd),ih (List.cons_ne_nil _ _) hrest]

theorem names_trailing (s : Text) (k : Nat) : names (s ++ seps k) = names s := by
  induction k with
  | zero => rw [append_seps_zero]
  | succ k ih => rw [seps_succ,← List.append_assoc,names_append_sep,ih,names,List.append_nil]

theorem names_seps (k : Nat) : names (seps k) = [] := names_trailing [] k

theorem names_behind (s : Text) (h : Name base) (j k : Nat) :
    names (s ++ seps (j+1) ++ base ++ seps k) = names s ++ [base] := by
  rw [names_trailing,seps_succ,← List.append_assoc,List.append_assoc (s ++ seps j),
    List.singleton_append,names_append_sep,names_trailing,names_name h]

theorem names_ended (h : Ended dir) : names dir ≠ [] := by
  obtain ⟨front,c,rfl,hc⟩ := h
  induction front with
  | nil => exact names_ne_nil (by simpa [startsName] using hc)
  | cons d front ih =>
    rw [List.cons_append,names]
    split
    · exact ih
    split
    · split
      · exact List.cons_ne_nil _ _
      · exact List.cons_ne_nil _ _
    · exact List.cons_ne_nil _ _

theorem lead_ended (h : Ended dir) (t : Text) : lead (dir ++ t) = lead dir := by
  obtain ⟨front,c,rfl,hc⟩ := h
  have hsep := isSeparator_other hc
  rw [List.append_assoc,List.singleton_append]
  induction front with
  | nil => simp [lead,hsep]
  | cons d front ih =>
    rw [lead,lead] at ih ⊢
    rw [List.cons_append,List.cons_append,List.takeWhile_cons,List.takeWhile_cons]
    split
    · rw [List.length_cons,List.length_cons,ih]
    · rfl

theorem lead_name (h : Name base) (t : Text) : lead (base ++ t) = 0 := by
  obtain ⟨c,rest,rfl⟩ := List.exists_cons_of_ne_nil h.ne_nil
  have hsep : isSeparator c = false := h.no_separator c List.mem_cons_self
  simp [lead,hsep]

theorem lead_seps_append (j : Nat) (t : Text) : lead (seps j ++ t) = j + lead t := by
  have hall : ∀ c ∈ seps j, isSeparator c = true := by
    intro c hc
    exact isSeparator_iff.mpr (List.eq_of_mem_replicate hc)
  rw [lead,List.takeWhile_append_of_pos hall,List.length_append,length_seps,lead]

theorem lead_rooted (j : Nat) (h : Name base) (t : Text) : lead (seps j ++ base ++ t) = j := by
  rw [List.append_assoc,lead_seps_append,lead_name h,Nat.add_zero]

theorem lead_seps (j : Nat) : lead (seps j) = j := by
  have happend := lead_seps_append j []
  rwa [List.append_nil] at happend

theorem not_ended_seps (s : Text) (k : Nat) : ¬ Ended (s ++ seps (k+1)) := by
  rintro ⟨front,c,heq,hc⟩
  rw [seps_succ,← List.append_assoc] at heq
  exact hc (List.singleton_inj.mp (List.append_inj_right' heq rfl)).symm

theorem single_name (h : Ended dir) (hlead : lead dir = 0) {n : Text} (hn : names dir = [n]) :
    dir = n := by
  cases pathShape dir with
  | seps k =>
    rw [names_seps] at hn
    cases hn
  | name k hname =>
    rcases k with _ | k
    · rw [names_trailing,names_name hname] at hn
      rw [append_seps_zero]
      exact List.singleton_inj.mp hn
    · exact absurd h (not_ended_seps _ k)
  | rooted j k hname =>
    rw [lead_rooted _ hname] at hlead
    cases hlead
  | under j k hdir hname =>
    rw [names_behind _ hname] at hn
    have hne := names_ended hdir
    have hlength := congrArg List.length hn
    rw [List.length_append,List.length_singleton,List.length_singleton] at hlength
    exact absurd (List.length_eq_zero_iff.mp (by omega)) hne

end names

section step
variable {base dir : Text}

theorem components_seps (k : Nat) : components (seps k) =
    if k = 0 then [] else if k = 2 then [seps 2] else [seps 1] := by
  rw [components,lead_seps,relativeNames,root,lead_seps,names_seps]
  rcases k with _ | _ | _ | _ | k
  · rfl
  · rfl
  · rfl
  · rfl
  · rfl

theorem components_name (h : Name base) (k : Nat) (hfixed : base ++ seps k ≠ kCurrentDirectory) :
    components (base ++ seps k) = [base] := by
  rw [components,lead_name h,if_pos rfl,relativeNames,names_trailing,names_name h]
  refine if_neg ?_
  rintro ⟨-,hne | heq⟩
  · exact hne rfl
  · exact hfixed heq

theorem components_rooted (h : Name base) (j k : Nat) :
    components (seps (j+1) ++ base ++ seps k) =
      [if j = 1 ∨ j = 2 then seps 2 else seps 1,base] := by
  have hnames : names (seps (j+1) ++ base ++ seps k) = [base] := names_behind [] h j k
  rw [components,lead_rooted _ h,if_neg (Nat.succ_ne_zero j),root,lead_rooted _ h,hnames]
  rcases j with _ | _ | _ | j
  · rfl
  · rfl
  · rfl
  · rw [if_neg (show ¬ (j+1+1+1 = 1 ∨ j+1+1+1 = 2) by omega)]
    rfl

theorem root_ended (h : Ended dir) (t : Text) (hnames : names (dir ++ t) ≠ []) :
    root (dir ++ t) = root dir := by
  rw [root,root,lead_ended h,if_neg hnames,if_neg (names_ended h)]

theorem components_under (hdir : Ended dir) (h : Name base) (j k : Nat) :
    components (dir ++ seps (j+1) ++ base ++ seps k) = components dir ++ [base] := by
  have happend : dir ++ seps (j+1) ++ base ++ seps k = dir ++ (seps (j+1) ++ base ++ seps k) := by
    rw [List.append_assoc,List.append_assoc,List.append_assoc]
  have hnames : names (dir ++ (seps (j+1) ++ base ++ seps k)) = names dir ++ [base] := by
    rw [← happend,names_behind dir h]
  rw [happend,components,components,lead_ended hdir]
  split
  case isFalse =>
    have hne : names (dir ++ (seps (j+1) ++ base ++ seps k)) ≠ [] := by
      rw [hnames]
      exact List.concat_ne_nil _ _
    rw [root_ended hdir _ hne,hnames,List.append_assoc]
  case isTrue hlead =>
    rw [relativeNames,relativeNames,hnames]
    obtain ⟨n,ns,hns⟩ := List.exists_cons_of_ne_nil (names_ended hdir)
    rw [hns,List.cons_append]
    dsimp only
    by_cases hcur : n = kCurrentDirectory
    · have hall : ns ≠ [] ∨ dir = kCurrentDirectory := by
        rcases ns with _ | ⟨m,ns⟩
        · exact .inr ((single_name hdir hlead hns).trans hcur)
        · exact .inl (List.cons_ne_nil _ _)
      rw [if_pos ⟨hcur,.inl (by simp)⟩,if_pos ⟨hcur,hall⟩]
    · rw [if_neg (fun h => hcur h.1),if_neg (fun h => hcur h.1),List.cons_append]

theorem not_all_separators (h : Name base) : areAllSeparators base = false := by
  obtain ⟨c,rest,rfl⟩ := List.exists_cons_of_ne_nil h.ne_nil
  rw [areAllSeparators,List.all_cons,h.no_separator c List.mem_cons_self,Bool.false_and]

theorem components_current : components kCurrentDirectory = [] := rfl

theorem components_step {path : Text} (h : ¬ FilePath.Fixed path) :
    components path = components (FilePath.dirText path) ++
      if areAllSeparators (FilePath.baseText path) then [] else [FilePath.baseText path] := by
  cases pathShape path with
  | seps k =>
    rw [FilePath.dirText_seps,FilePath.baseText_seps]
    rcases k with _ | _ | _ | k
    · rfl
    · exact absurd (.inr (.inl rfl)) h
    · exact absurd (.inr (.inr rfl)) h
    · rw [components_seps,if_neg (show ¬ k+1+1+1 ≤ 2 by omega)]
      rfl
  | name k hname =>
    rw [FilePath.dirText_name hname,FilePath.baseText_name hname,not_all_separators hname,
      components_name hname k (fun heq => h (.inl heq)),components_current]
    rfl
  | rooted j k hname =>
    rw [FilePath.dirText_rooted hname,FilePath.baseText_rooted hname,not_all_separators hname,
      components_rooted hname]
    split <;> rfl
  | under j k hdir hname =>
    rw [FilePath.dirText_under hdir hname,FilePath.baseText_under hname,not_all_separators hname,
      components_under hdir hname]
    rfl

theorem components_fixed {path : Text} (h : FilePath.Fixed path) : components path =
    if FilePath.baseText path ≠ [] ∧ FilePath.baseText path ≠ kCurrentDirectory then
      [FilePath.baseText path] else [] := by
  rcases h with rfl | rfl | rfl
  · rfl
  · rfl
  · rfl

end step

namespace FilePath

theorem componentsLoop_reaches (n fuel : Nat) (self : FilePath) (retVal : List Text)
    (hfixed : Fixed (dirText^[n] self.value)) (hfuel : n < fuel) :
    ∃ pushed current, componentsLoop fuel self retVal = some (retVal ++ pushed,current) ∧
      Fixed current.value ∧
      components self.value = components current.value ++ pushed.reverse := by
  induction n generalizing fuel self retVal with
  | zero =>
    obtain ⟨fuel,rfl⟩ := Nat.exists_eq_succ_of_ne_zero (Nat.ne_of_gt hfuel)
    have hsame : ¬ self ≠ self.dirName := not_not.mpr ((dirName_eq_iff self).mpr hfixed).symm
    refine ⟨[],self,?_,hfixed,(List.append_nil _).symm⟩
    rw [componentsLoop,if_neg hsame,List.append_nil]
  | succ n ih =>
    obtain ⟨fuel,rfl⟩ := Nat.exists_eq_succ_of_ne_zero (Nat.ne_of_gt (by omega : 0 < fuel))
    by_cases hself : Fixed self.value
    · have hsame : ¬ self ≠ self.dirName := not_not.mpr ((dirName_eq_iff self).mpr hself).symm
      refine ⟨[],self,?_,hself,(List.append_nil _).symm⟩
      rw [componentsLoop,if_neg hsame,List.append_nil]
    · have hmoves : self ≠ self.dirName := fun heq => hself ((dirName_eq_iff self).mp heq.symm)
      rw [Function.iterate_succ_apply,← dirName_value] at hfixed
      obtain ⟨pushed,current,hloop,hcurrent,hcomponents⟩ := ih fuel self.dirName
        (if areAllSeparators self.baseName.value then retVal else retVal ++ [self.baseName.value])
        hfixed (by omega)
      have hstep := components_step hself
      rw [← dirName_value,← baseName_value,hcomponents] at hstep
      refine ⟨(if areAllSeparators self.baseName.value then [] else [self.baseName.value]) ++
        pushed,current,?_,hcurrent,?_⟩
      · rw [componentsLoop,if_pos hmoves,hloop]
        split <;> simp
      · rw [hstep]
        split <;> simp

/-- `GetComponents` ends, with the root and the names. -/
theorem getComponents_eq (self : FilePath) {fuel : Nat} (h : self.value.length+2 ≤ fuel) :
    self.getComponents fuel = some (components self.value) := by
  rw [getComponents]
  split
  case isTrue hnil =>
    rw [hnil]
    rfl
  obtain ⟨n,hn,hfixed⟩ := dirText_reaches self.value
  obtain ⟨pushed,current,hloop,hcurrent,hcomponents⟩ :=
    componentsLoop_reaches n fuel self [] hfixed (by omega)
  rw [hloop,hcomponents,components_fixed hcurrent,← baseName_value]
  dsimp only [Option.bind_eq_bind,Option.bind_some]
  split <;> simp

end FilePath

end MprMq.Base
