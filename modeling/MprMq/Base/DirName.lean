import MprMq.Base.FilePath
import Mathlib.Data.List.Induction
import Mathlib.Logic.Function.Iterate
set_option autoImplicit false

/-! What `DirName` and `BaseName` are for each form of path, and where `DirName` ends. -/

namespace MprMq.Base

def seps (k : Nat) : Text := List.replicate k '/'

/-- A string that ends in something else than a separator. -/
def Ended (s : Text) : Prop := ∃ front c, s = front ++ [c] ∧ c ≠ '/'

/-- What stands between separators. -/
structure Name (base : Text) : Prop where
  ne_nil : base ≠ []
  noSep : '/' ∉ base

/-- Separators only, or a name with separators behind it, and in front of it nothing, separators
or a directory. -/
inductive PathShape : Text → Prop where
  | seps (k : Nat) : PathShape (seps k)
  | name {base : Text} (k : Nat) : Name base → PathShape (base ++ Base.seps k)
  | rooted {base : Text} (j k : Nat) : Name base →
      PathShape (Base.seps (j+1) ++ base ++ Base.seps k)
  | under {dir base : Text} (j k : Nat) : Ended dir → Name base →
      PathShape (dir ++ Base.seps (j+1) ++ base ++ Base.seps k)

theorem seps_succ (k : Nat) : seps (k+1) = seps k ++ ['/'] := List.replicate_succ'

theorem length_seps (k : Nat) : (seps k).length = k := List.length_replicate

theorem append_seps_zero (s : Text) : s ++ seps 0 = s := List.append_nil s

theorem isSeparator_iff {c : Char} : isSeparator c = true ↔ c = '/' := by simp [isSeparator]

theorem isSeparator_other {c : Char} (h : c ≠ '/') : isSeparator c = false := by
  rw [Bool.eq_false_iff]
  exact fun hsep => h (isSeparator_iff.mp hsep)

theorem Name.no_separator {base : Text} (h : Name base) : ∀ c ∈ base, isSeparator c = false := by
  intro c hc
  exact isSeparator_other fun heq => h.noSep (heq ▸ hc)

theorem Name.ended {base : Text} (h : Name base) : Ended base := by
  refine ⟨base.dropLast,base.getLast h.ne_nil,(List.dropLast_concat_getLast h.ne_nil).symm,?_⟩
  intro heq
  exact h.noSep (heq ▸ List.getLast_mem h.ne_nil)

theorem Ended.ne_nil {s : Text} (h : Ended s) : s ≠ [] := by
  obtain ⟨front,c,rfl,-⟩ := h
  exact List.append_ne_nil_of_right_ne_nil _ (List.cons_ne_nil _ _)

theorem exists_trailing (s : Text) :
    ∃ front k, s = front ++ seps k ∧ (front = [] ∨ Ended front) := by
  induction s using List.reverseRecOn with
  | nil => exact ⟨[],0,rfl,.inl rfl⟩
  | append_singleton s c ih =>
    by_cases hc : c = '/'
    · obtain ⟨front,k,rfl,hfront⟩ := ih
      exact ⟨front,k+1,by rw [hc,seps_succ,List.append_assoc],hfront⟩
    · exact ⟨s ++ [c],0,(List.append_nil _).symm,.inr ⟨s,c,rfl,hc⟩⟩

theorem exists_name (s : Text) : ∃ pre base, s = pre ++ base ∧ '/' ∉ base ∧
    (pre = [] ∨ ∃ q, pre = q ++ ['/']) := by
  induction s using List.reverseRecOn with
  | nil => exact ⟨[],[],rfl,List.not_mem_nil,.inl rfl⟩
  | append_singleton s c ih =>
    by_cases hc : c = '/'
    · exact ⟨s ++ [c],[],(List.append_nil _).symm,List.not_mem_nil,.inr ⟨s,by rw [hc]⟩⟩
    · obtain ⟨pre,base,rfl,hbase,hpre⟩ := ih
      refine ⟨pre,base ++ [c],List.append_assoc _ _ _,?_,hpre⟩
      intro hmem
      rcases List.mem_append.mp hmem with hmem | hmem
      · exact hbase hmem
      · exact hc (List.mem_singleton.mp hmem).symm

theorem pathShape (p : Text) : PathShape p := by
  obtain ⟨front,k,rfl,hfront⟩ := exists_trailing p
  rcases hfront with rfl | ⟨s,c,rfl,hc⟩
  · exact .seps k
  obtain ⟨pre,base,heq,hbase,hpre⟩ := exists_name (s ++ [c])
  have hname : Name base := by
    refine ⟨?_,hbase⟩
    rintro rfl
    rw [List.append_nil] at heq
    rcases hpre with rfl | ⟨q,rfl⟩
    · simp at heq
    · exact hc (List.append_inj_right' heq rfl |> List.singleton_inj.mp)
  rw [heq]
  rcases hpre with rfl | ⟨q,rfl⟩
  · exact .name k hname
  obtain ⟨dir,j,rfl,hdir⟩ := exists_trailing q
  rw [List.append_assoc dir,← seps_succ]
  rcases hdir with rfl | hdir
  · exact .rooted j k hname
  · exact .under j k hdir hname

section strip

theorem stripLoop_cut (path : Text) (lastStripped : Option Nat) (h : 2 ≤ path.length) :
    stripLoop (path ++ ['/']) lastStripped (path.length+1) =
      stripLoop path (some (path.length+1)) path.length := by
  have hlast : (path ++ ['/'])[path.length]? = some '/' := by simp
  rw [stripLoop,hlast,if_pos ⟨by omega,rfl⟩,if_pos (.inl (by omega)),List.take_left]

theorem stripLoop_ended {s : Text} (h : Ended s) (lastStripped : Option Nat) :
    stripLoop s lastStripped s.length = s := by
  obtain ⟨front,c,rfl,hc⟩ := h
  have hlast : (front ++ [c])[front.length]? = some c := by simp
  rw [List.length_append,List.length_singleton,stripLoop,hlast]
  refine if_neg fun hsep => hc ?_
  exact isSeparator_iff.mp hsep.2

theorem stripLoop_trailing {s : Text} (h : Ended s) (k : Nat) (lastStripped : Option Nat) :
    stripLoop (s ++ seps k) lastStripped (s ++ seps k).length = s := by
  induction k generalizing lastStripped with
  | zero =>
    rw [append_seps_zero]
    exact stripLoop_ended h lastStripped
  | succ k ih =>
    rw [seps_succ,← List.append_assoc,List.length_append,List.length_singleton]
    by_cases hlong : 2 ≤ (s ++ seps k).length
    · rw [stripLoop_cut _ _ hlong,ih]
    · obtain ⟨front,c,rfl,hc⟩ := h
      simp only [List.length_append,List.length_singleton,length_seps] at hlong
      obtain rfl : front = [] := List.length_eq_zero_iff.mp (by omega)
      obtain rfl : k = 0 := by omega
      have hsep := isSeparator_other hc
      have hslash : isSeparator '/' = true := rfl
      simp [seps,stripLoop,hsep,hslash]

theorem stripLoop_seps (k : Nat) (lastStripped : Option Nat) :
    stripLoop (seps (k+3)) lastStripped (k+3) = seps 1 := by
  have hcut (k : Nat) (lastStripped : Option Nat) :
      stripLoop (seps (k+3)) lastStripped (k+3) = stripLoop (seps (k+2)) (some (k+3)) (k+2) := by
    have hloop := stripLoop_cut (seps (k+2)) lastStripped (by rw [length_seps]; omega)
    rwa [← seps_succ,length_seps] at hloop
  induction k generalizing lastStripped with
  | zero =>
    rw [hcut]
    rfl
  | succ k ih => rw [hcut,ih]

theorem strip_trailing {s : Text} (h : Ended s) (k : Nat) :
    stripTrailingSeparatorsInternal (s ++ seps k) = s := stripLoop_trailing h k none

theorem strip_ended {s : Text} (h : Ended s) : stripTrailingSeparatorsInternal s = s :=
  stripLoop_ended h none

/-- Of nothing but separators one is left, except that two are. -/
theorem strip_seps (k : Nat) :
    stripTrailingSeparatorsInternal (seps k) = if k ≤ 2 then seps k else seps 1 := by
  rw [stripTrailingSeparatorsInternal,length_seps]
  rcases k with _ | _ | _ | k
  · rfl
  · rfl
  · rfl
  · rw [if_neg (by omega)]
    exact stripLoop_seps k none

end strip

namespace FilePath

def dirText (path : Text) : Text :=
  let dir := stripTrailingSeparatorsInternal (dirPart (stripTrailingSeparatorsInternal path))
  if dir = [] then kCurrentDirectory else dir

theorem dirName_value (self : FilePath) : self.dirName.value = dirText self.value := by
  rw [dirName,dirText]
  split <;> rfl

def baseText (path : Text) : Text := basePart (stripTrailingSeparatorsInternal path)

theorem baseName_value (self : FilePath) : self.baseName.value = baseText self.value := rfl

theorem dirText_seps (k : Nat) : dirText (seps k) =
    if k = 0 then kCurrentDirectory else if k = 2 then seps 2 else seps 1 := by
  rw [dirText,strip_seps]
  rcases k with _ | _ | _ | k
  · rfl
  · rfl
  · rfl
  · rw [if_neg (show ¬ k+1+1+1 ≤ 2 by omega)]
    rfl

theorem baseText_seps (k : Nat) : baseText (seps k) = if k ≤ 2 then seps k else seps 1 := by
  rw [baseText,strip_seps]
  rcases k with _ | _ | _ | k
  · rfl
  · rfl
  · rfl
  · rw [if_neg (show ¬ k+1+1+1 ≤ 2 by omega)]
    rfl

variable {base dir : Text}

theorem dirText_name (h : Name base) (k : Nat) : dirText (base ++ seps k) = kCurrentDirectory := by
  rw [dirText,strip_trailing h.ended,dirPart,findLast_eq_none.mpr h.no_separator]
  rfl

theorem baseText_name (h : Name base) (k : Nat) : baseText (base ++ seps k) = base := by
  rw [baseText,strip_trailing h.ended,basePart,findLast_eq_none.mpr h.no_separator]

theorem ended_append {pre s : Text} (h : Ended s) : Ended (pre ++ s) := by
  obtain ⟨front,c,rfl,hc⟩ := h
  exact ⟨pre ++ front,c,(List.append_assoc _ _ _).symm,hc⟩

theorem findLast_name {pre : Text} (h : Name base) :
    findLast isSeparator (pre ++ ['/'] ++ base) = some pre.length := by
  rw [List.append_assoc]
  exact findLast_middle pre rfl h.no_separator

theorem baseText_behind {pre : Text} (h : Name base) (k : Nat) :
    baseText (pre ++ ['/'] ++ base ++ seps k) = base := by
  have hpos := List.length_pos_iff.mpr h.ne_nil
  rw [baseText,strip_trailing (ended_append h.ended),basePart,findLast_name h]
  dsimp only
  rw [if_pos (by simp only [List.length_append,List.length_singleton]; omega)]
  exact List.drop_left' (by simp)

theorem dirPart_behind {pre : Text} (h : Name base) : dirPart (pre ++ ['/'] ++ base) =
    if pre = [] then seps 1 else if pre = seps 1 then seps 2 else pre := by
  rw [dirPart,findLast_name h]
  rcases pre with _ | ⟨c,_ | ⟨d,rest⟩⟩
  · rfl
  · by_cases hc : c = '/'
    · rw [hc]
      rfl
    · have hsep := isSeparator_other hc
      simp [hsep,hc,seps]
  · have hone : c :: d :: rest ≠ seps 1 := by simp [seps]
    rw [if_neg (List.cons_ne_nil _ _),if_neg hone,List.append_assoc]
    exact List.take_left

theorem dirText_rooted (h : Name base) (j k : Nat) : dirText (seps (j+1) ++ base ++ seps k) =
    if j = 1 ∨ j = 2 then seps 2 else seps 1 := by
  rw [dirText,strip_trailing (ended_append h.ended),seps_succ,dirPart_behind h]
  rcases j with _ | _ | _ | j
  · rfl
  · rfl
  · rfl
  · have hne : seps (j+3) ≠ [] ∧ seps (j+3) ≠ seps 1 := by simp [seps,List.replicate_succ]
    rw [if_neg hne.1,if_neg hne.2,strip_seps,if_neg (show ¬ j+1+1+1 ≤ 2 by omega),
      if_neg (show ¬ (j+1+1+1 = 1 ∨ j+1+1+1 = 2) by omega)]
    rfl

theorem dirText_under (hdir : Ended dir) (h : Name base) (j k : Nat) :
    dirText (dir ++ seps (j+1) ++ base ++ seps k) = dir := by
  have hpre : dir ++ seps (j+1) = (dir ++ seps j) ++ ['/'] := by
    rw [seps_succ,List.append_assoc]
  have hne := hdir.ne_nil
  have hnil : dir ++ seps j ≠ [] := fun heq => hne (List.append_eq_nil_iff.mp heq).1
  have hone : dir ++ seps j ≠ seps 1 := by
    obtain ⟨front,c,rfl,hc⟩ := hdir
    intro heq
    have hmem : c ∈ seps 1 := by
      rw [← heq]
      simp
    exact hc (List.eq_of_mem_replicate hmem)
  rw [dirText,strip_trailing (ended_append h.ended),hpre,dirPart_behind h,if_neg hnil,
    if_neg hone,strip_trailing hdir]
  exact if_neg hne

theorem baseText_rooted (h : Name base) (j k : Nat) :
    baseText (seps (j+1) ++ base ++ seps k) = base := by
  rw [seps_succ]
  exact baseText_behind h k

theorem baseText_under (h : Name base) (j k : Nat) :
    baseText (dir ++ seps (j+1) ++ base ++ seps k) = base := by
  rw [seps_succ,← List.append_assoc]
  exact baseText_behind h k

/-- What `DirName` leaves as it is. -/
def Fixed (path : Text) : Prop := path = kCurrentDirectory ∨ path = seps 1 ∨ path = seps 2

theorem dirText_fixed_iff (path : Text) : dirText path = path ↔ Fixed path := by
  constructor
  · intro heq
    cases pathShape path with
    | seps k =>
      rw [dirText_seps] at heq
      split at heq
      case isTrue hzero => exact .inl heq.symm
      case isFalse =>
        split at heq
        case isTrue => exact .inr (.inr heq.symm)
        case isFalse => exact .inr (.inl heq.symm)
    | name k hname =>
      rw [dirText_name hname] at heq
      exact .inl heq.symm
    | rooted j k hname =>
      rw [dirText_rooted hname] at heq
      split at heq
      · exact .inr (.inr heq.symm)
      · exact .inr (.inl heq.symm)
    | under j k hdir hname =>
      rw [dirText_under hdir hname] at heq
      have hlength := congrArg List.length heq
      simp only [List.length_append,length_seps] at hlength
      omega
  · rintro (rfl | rfl | rfl)
    · rfl
    · rfl
    · rfl

/-- A step leads to where it stays, or shortens the path. -/
theorem dirText_step (path : Text) :
    Fixed (dirText path) ∨ (dirText path).length < path.length := by
  cases pathShape path with
  | seps k =>
    rw [dirText_seps]
    split
    · exact .inl (.inl rfl)
    split
    · exact .inl (.inr (.inr rfl))
    · exact .inl (.inr (.inl rfl))
  | name k hname =>
    rw [dirText_name hname]
    exact .inl (.inl rfl)
  | rooted j k hname =>
    rw [dirText_rooted hname]
    split
    · exact .inl (.inr (.inr rfl))
    · exact .inl (.inr (.inl rfl))
  | under j k hdir hname =>
    rw [dirText_under hdir hname]
    right
    simp only [List.length_append,length_seps]
    omega

theorem dirText_reaches (path : Text) :
    ∃ n, n ≤ path.length+1 ∧ Fixed (dirText^[n] path) := by
  induction hn : path.length using Nat.strong_induction_on generalizing path with
  | _ n ih =>
    rcases dirText_step path with hfixed | hshort
    · exact ⟨1,by omega,hfixed⟩
    · obtain ⟨m,hm,hfixed⟩ := ih _ (hn ▸ hshort) (dirText path) rfl
      exact ⟨m+1,by omega,hfixed⟩

theorem dirName_iterate (self : FilePath) (n : Nat) :
    (dirName^[n] self).value = dirText^[n] self.value := by
  induction n generalizing self with
  | zero => rfl
  | succ n ih => rw [Function.iterate_succ_apply,Function.iterate_succ_apply,ih,dirName_value]

theorem dirName_eq_iff (self : FilePath) : self.dirName = self ↔ Fixed self.value := by
  rw [← dirText_fixed_iff,← dirName_value]
  constructor
  · intro heq
    rw [heq]
  · intro heq
    obtain ⟨value,hnul⟩ := self
    generalize FilePath.dirName ⟨value,hnul⟩ = dir at heq
    obtain ⟨dir,hdir⟩ := dir
    cases heq
    rfl

end FilePath

end MprMq.Base
