import MprMq.Base.StringUtil
import Mathlib.Data.List.DropRight
import Mathlib.Data.List.Forall2
set_option autoImplicit false

/-! `TextContentsEqual`, over files that can be read. -/

namespace MprMq.Base

/-- The line and what stands behind its line feed; `none` when the end of the file is met. -/
def getline (file : Text) : Text × Option Text :=
  (file.takeWhile fun c => c ≠ '\n',
    match file.dropWhile fun c => c ≠ '\n' with
    | [] => none
    | _ :: rest => some rest)

def isLineEnd (c : Char) : Bool := c = '\r' ∨ c = '\n'

def findLastNotLineEnd (line : Text) : Option Nat := findLast (fun c => !isLineEnd c) line

/-- What is left of a line, by the last position that is kept. -/
def eraseBehind (line : Text) : Option Nat → Text
  | none => []
  | some last => if last+1 < line.length then line.take (last+1) else line

def textContentsLoop : Nat → Text → Text → Option Bool
  | 0, _, _ => none
  | fuel+1, file1, file2 =>
    let (line1,rest1) := getline file1
    let (line2,rest2) := getline file2
    if rest1.isNone ≠ rest2.isNone then some false
    else
      let end1 := findLastNotLineEnd line1
      let line1 := eraseBehind line1 end1
      let end2 := findLastNotLineEnd line1
      let line2 := eraseBehind line2 end2
      if line1 ≠ line2 then some false
      else
        match rest1,rest2 with
        | some rest1,some rest2 => textContentsLoop fuel rest1 rest2
        | _,_ => some true

/-- `TextContentsEqual`; a file is `none` when it cannot be opened. -/
def textContentsEqual (fuel : Nat) : Option Text → Option Text → Option Bool
  | some file1, some file2 => textContentsLoop fuel file1 file2
  | _, _ => some false

def trimLine (line : Text) : Text := line.rdropWhile isLineEnd

/-- As many lines in both, and the same but for their ends. -/
def SameLines (file1 file2 : Text) : Prop :=
  List.Forall₂ (fun line1 line2 => trimLine line1 = trimLine line2)
    (file1.splitOn '\n') (file2.splitOn '\n')

/-- As many lines in both, each begun by that of the first. -/
def Begins (file1 file2 : Text) : Prop :=
  List.Forall₂ (fun line1 line2 => trimLine line1 <+: trimLine line2)
    (file1.splitOn '\n') (file2.splitOn '\n')

/-- Each line is begun by that of the first, and one goes on behind it. -/
def GoesOn (file1 file2 : Text) : Prop :=
  Begins file1 file2 ∧
  ∃ lines ∈ (file1.splitOn '\n').zip (file2.splitOn '\n'),
    (trimLine lines.1).length < (trimLine lines.2).length

theorem splitOn_getline (file : Text) : file.splitOn '\n' =
    (getline file).1 :: ((getline file).2.map fun rest => rest.splitOn '\n').getD [] := by
  induction file with
  | nil => rfl
  | cons c rest ih =>
    rw [List.splitOn_cons_eq_if_modifyHead]
    by_cases hc : c = '\n'
    · simp [getline,hc]
    · rw [ih]
      simp [getline,hc]

/-- Only what stands behind a character that is no line end is trimmed. -/
theorem trimLine_append (s t : Text) {c : Char} (hc : isLineEnd c = false) :
    trimLine (s ++ c :: t) = s ++ c :: trimLine t := by
  rw [trimLine,List.rdropWhile,List.reverse_append,List.reverse_cons,List.append_assoc,
    List.dropWhile_append]
  split
  · rename_i h
    rw [trimLine,List.rdropWhile,List.isEmpty_iff.mp h]
    simp [hc]
  · simp [trimLine,List.rdropWhile]

/-- Every line is empty but for its end, or has a last character in front of it. -/
theorem line_cases (line : Text) :
    (findLastNotLineEnd line = none ∧ trimLine line = []) ∨
    ∃ s c t, line = s ++ c :: t ∧ isLineEnd c = false ∧
      findLastNotLineEnd line = some s.length ∧ trimLine line = s ++ [c] := by
  cases h : findLastNotLineEnd line with
  | none =>
    have hall : ∀ c ∈ line, isLineEnd c = true := by
      intro c hc
      simpa using findLast_eq_none.mp h c hc
    exact .inl ⟨rfl,List.rdropWhile_eq_nil_iff.mpr hall⟩
  | some last =>
    obtain ⟨c,hc,hline,ht⟩ := findLast_split h
    have hc : isLineEnd c = false := by simpa using hc
    have ht : ∀ d ∈ line.drop (last+1), isLineEnd d = true := by
      intro d hd
      simpa using ht d hd
    have hlast : last = (line.take last).length := by
      rw [List.length_take]
      have := congrArg List.length hline
      simp only [List.length_append,List.length_take,List.length_cons,List.length_drop] at this
      omega
    have htrim : trimLine (line.drop (last+1)) = [] := List.rdropWhile_eq_nil_iff.mpr ht
    refine .inr ⟨line.take last,c,line.drop (last+1),hline,hc,by rw [← hlast],?_⟩
    rw [← htrim,← trimLine_append _ _ hc,← hline]

theorem eraseBehind_some (line : Text) (last : Nat) :
    eraseBehind line (some last) = line.take (last+1) := by
  rw [eraseBehind]
  split
  · rfl
  · rename_i h
    exact (List.take_of_length_le (Nat.le_of_not_lt h)).symm

/-- The end of a line is erased as the first block does it. -/
theorem eraseBehind_eq (line : Text) :
    eraseBehind line (findLastNotLineEnd line) = trimLine line := by
  rcases line_cases line with ⟨hlast,htrim⟩ | ⟨s,c,t,rfl,-,hlast,htrim⟩
  · rw [hlast,htrim,eraseBehind]
  · rw [hlast,htrim,eraseBehind_some,← List.singleton_append,← List.append_assoc]
    exact List.take_left' List.length_append

/-- The second block cuts the second line where the first one ends. -/
theorem eraseBehind_trimmed (line1 line2 : Text) :
    eraseBehind line2 (findLastNotLineEnd (trimLine line1)) =
      line2.take (trimLine line1).length := by
  rcases line_cases line1 with ⟨-,htrim⟩ | ⟨s,c,t,-,hc,-,htrim⟩
  · rw [htrim]
    rfl
  · have hlast : findLastNotLineEnd (s ++ [c]) = some s.length :=
      findLast_middle s (by simp [hc]) (fun d hd => absurd hd List.not_mem_nil)
    rw [htrim,hlast,eraseBehind_some,List.length_append,List.length_singleton]

/-- A trimmed line that begins a line ends in front of the line ends of that line. -/
theorem trimLine_prefix_iff (line1 line2 : Text) :
    trimLine line1 <+: line2 ↔ trimLine line1 <+: trimLine line2 := by
  constructor
  · rintro ⟨rest,rfl⟩
    rcases line_cases line1 with ⟨-,htrim⟩ | ⟨s,c,t,-,hc,-,htrim⟩
    · rw [htrim]
      exact List.nil_prefix
    · rw [htrim,List.append_assoc,List.singleton_append,trimLine_append s rest hc]
      exact ⟨trimLine rest,by simp⟩
  · intro h
    exact h.trans (List.rdropWhile_prefix isLineEnd line2)

theorem eraseBehind_line (line1 line2 : Text) :
    trimLine line1 = eraseBehind line2 (findLastNotLineEnd (trimLine line1)) ↔
      trimLine line1 <+: trimLine line2 := by
  rw [eraseBehind_trimmed,← List.prefix_iff_eq_take,trimLine_prefix_iff]

theorem getline_rest {file rest : Text} (h : (getline file).2 = some rest) :
    rest.length < file.length := by
  have hlen := (List.dropWhile_suffix fun c => c ≠ '\n' : _ <:+ file).length_le
  simp only [getline] at h
  split at h
  · cases h
  · rename_i heq
    cases h
    rw [heq,List.length_cons] at hlen
    exact hlen

theorem begins_getline (file1 file2 : Text) :
    Begins file1 file2 ↔
      trimLine (getline file1).1 <+: trimLine (getline file2).1 ∧
      Option.Rel Begins (getline file1).2 (getline file2).2 := by
  rw [Begins,splitOn_getline file1,splitOn_getline file2,List.forall₂_cons]
  refine and_congr_right fun _ => ?_
  cases (getline file1).2 with
  | none =>
    cases (getline file2).2 with
    | none => simp
    | some rest2 => simp [List.forall₂_nil_left_iff]
  | some rest1 =>
    cases (getline file2).2 with
    | none => simp [List.forall₂_nil_right_iff]
    | some rest2 => simp [Begins]

/-- With a turn for each line the loop ends, and it finds what begins what. -/
theorem textContentsLoop_begins (fuel : Nat) (file1 file2 : Text) (h : file1.length < fuel) :
    ∃ r, textContentsLoop fuel file1 file2 = some r ∧ (r = true ↔ Begins file1 file2) := by
  induction fuel generalizing file1 file2 with
  | zero => omega
  | succ fuel ih =>
    rw [begins_getline]
    simp only [textContentsLoop,eraseBehind_eq,ne_eq,eraseBehind_line,ite_not]
    split
    · rename_i heof
      split
      · rename_i hline
        cases h1 : (getline file1).2 with
        | none =>
          rw [h1,Option.isNone_none,eq_comm,Option.isNone_iff_eq_none] at heof
          exact ⟨true,rfl,by simp [hline,heof]⟩
        | some rest1 =>
          rw [h1,Option.isNone_some,eq_comm,Option.isNone_eq_false_iff] at heof
          obtain ⟨rest2,h2⟩ := Option.isSome_iff_exists.mp heof
          have hrest := getline_rest h1
          obtain ⟨r,hr,hbegins⟩ := ih rest1 rest2 (by omega)
          rw [h2]
          exact ⟨r,hr,by simp [hline,hbegins]⟩
      · rename_i hline
        exact ⟨false,rfl,by simp [hline]⟩
    · rename_i heof
      refine ⟨false,rfl,?_⟩
      cases h1 : (getline file1).2 <;> cases h2 : (getline file2).2 <;> simp_all

theorem textContentsLoop_ends (file1 file2 : Text) :
    ∃ r, (∀ fuel, file1.length < fuel → textContentsLoop fuel file1 file2 = some r) ∧
      (r = true ↔ Begins file1 file2) := by
  obtain ⟨r,-,hr⟩ := textContentsLoop_begins (file1.length+1) file1 file2 (Nat.lt_succ_self _)
  refine ⟨r,fun fuel hfuel => ?_,hr⟩
  obtain ⟨r',h,hr'⟩ := textContentsLoop_begins fuel file1 file2 hfuel
  rw [h,Bool.eq_iff_iff.mpr (hr'.trans hr.symm)]

/-- The lines that the loop holds for the same are the same, or the second file goes on. -/
theorem begins_iff (file1 file2 : Text) :
    Begins file1 file2 ↔ SameLines file1 file2 ∨ GoesOn file1 file2 := by
  constructor
  · intro h
    refine or_iff_not_imp_right.mpr fun hno => ?_
    have ⟨hlen,hahead⟩ := List.forall₂_iff_zip.mp h
    refine List.forall₂_iff_zip.mpr ⟨hlen,fun {line1 line2} hmem => ?_⟩
    have hle : (trimLine line2).length ≤ (trimLine line1).length :=
      Nat.le_of_not_lt fun hlt => hno ⟨h,(line1,line2),hmem,hlt⟩
    exact (hahead hmem).eq_of_length_le hle
  · rintro (h | h)
    · exact h.imp fun line1 line2 heq => heq ▸ List.prefix_rfl
    · exact h.1

theorem not_sameLines {file1 file2 : Text} (h : GoesOn file1 file2) :
    ¬SameLines file1 file2 := by
  intro hsame
  obtain ⟨lines,hmem,hlt⟩ := h.2
  have heq := (List.forall₂_iff_zip.mp hsame).2 hmem
  rw [heq] at hlt
  exact Nat.lt_irrefl _ hlt

theorem sameLines_comm (file1 file2 : Text) : SameLines file1 file2 ↔ SameLines file2 file1 := by
  constructor <;> exact fun h => List.Forall₂.flip (h.imp fun line1 line2 heq => heq.symm)

/-- Two files are compared as they should be, either way round, when no line of one of them
goes on behind all that the other one has there. -/
theorem textContentsEqual_iff (file1 file2 : Text) :
    ∃ r12 r21,
      (∃ turns, ∀ fuel ≥ turns,
        textContentsEqual fuel (some file1) (some file2) = some r12 ∧
        textContentsEqual fuel (some file2) (some file1) = some r21) ∧
      ((r12 = true ↔ SameLines file1 file2) ∧ r12 = r21 ↔
        ¬GoesOn file1 file2 ∧ ¬GoesOn file2 file1) := by
  obtain ⟨r12,h12,hbegins12⟩ := textContentsLoop_ends file1 file2
  obtain ⟨r21,h21,hbegins21⟩ := textContentsLoop_ends file2 file1
  refine ⟨r12,r21,⟨max file1.length file2.length + 1,fun fuel hge => ?_⟩,?_⟩
  · exact ⟨h12 fuel (by omega),h21 fuel (by omega)⟩
  · have hno12 := @not_sameLines file1 file2
    have hno21 := @not_sameLines file2 file1
    rw [begins_iff] at hbegins12 hbegins21
    rw [sameLines_comm file2] at hbegins21 hno21
    have heq : r12 = r21 ↔ (r12 = true ↔ r21 = true) := Bool.eq_iff_iff
    rw [heq,hbegins12,hbegins21]
    constructor
    · rintro ⟨hright,hsame⟩
      have hends12 : ¬GoesOn file1 file2 := fun hgoes => hno12 hgoes (hright.mp (.inr hgoes))
      refine ⟨hends12,fun hgoes => ?_⟩
      exact (hsame.mpr (.inr hgoes)).elim (hno21 hgoes) hends12
    · rintro ⟨hends12,hends21⟩
      rw [or_iff_left hends12,or_iff_left hends21]
      exact ⟨Iff.rfl,Iff.rfl⟩

/-- The end of the second line is looked for in the first one. -/
theorem second_line_goes_on :
    (∀ fuel, textContentsEqual (fuel+1) (some "a".toList) (some "ab".toList) = some true) ∧
    ¬SameLines "a".toList "ab".toList ∧
    ∀ fuel, textContentsEqual (fuel+1) (some "ab".toList) (some "a".toList) = some false := by
  refine ⟨fun fuel => rfl,?_,fun fuel => rfl⟩
  intro h
  have hends : "a".toList = "ab".toList := (List.forall₂_cons.mp h).1
  exact absurd hends (by decide)

end MprMq.Base
