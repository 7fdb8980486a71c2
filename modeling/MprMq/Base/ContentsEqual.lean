import Mathlib.Tactic.Common
set_option autoImplicit false

/-! `ContentsEqual`, over files that can be opened and need not be read to their end. -/

namespace MprMq.Base

/-- What a stream delivers, and whether reading fails behind it. -/
structure StreamContents where
  delivered : List UInt8
  fails : Bool
  deriving DecidableEq, Repr

structure Ifstream where
  rest : List UInt8
  fails : Bool
  eofbit : Bool
  failbit : Bool
  badbit : Bool
  deriving DecidableEq, Repr

namespace Ifstream

def opened (contents : StreamContents) : Ifstream :=
  ⟨contents.delivered,contents.fails,false,false,false⟩

/-- `read`: the bytes that `gcount` counts, and the stream afterwards. A buffer that
throws makes `read` set `badbit`, and then nothing is counted, whatever was stored. -/
def read (file : Ifstream) (n : Nat) : List UInt8 × Ifstream :=
  if file.eofbit ∨ file.failbit ∨ file.badbit then ([],{file with failbit := true})
  else if n ≤ file.rest.length then (file.rest.take n,{file with rest := file.rest.drop n})
  else if file.fails then ([],{file with rest := [],badbit := true})
  else (file.rest,{file with rest := [],eofbit := true,failbit := true})

end Ifstream

def kContentsBufferSize : Nat := 2056

def contentsEqualLoop : Nat → Ifstream → Ifstream → Option Bool
  | 0, _, _ => none
  | fuel+1, file1, file2 =>
    let (buffer1,file1) := file1.read kContentsBufferSize
    let (buffer2,file2) := file2.read kContentsBufferSize
    if file1.eofbit ≠ file2.eofbit ∨ buffer1.length ≠ buffer2.length ∨ buffer1 ≠ buffer2 then
      some false
    else if !file1.eofbit || !file2.eofbit then contentsEqualLoop fuel file1 file2
    else some true

/-- `ContentsEqual`; a file is `none` when it cannot be opened. -/
def contentsEqual (fuel : Nat) : Option StreamContents → Option StreamContents → Option Bool
  | some file1, some file2 => contentsEqualLoop fuel (.opened file1) (.opened file2)
  | _, _ => some false

def SameContents (file1 file2 : StreamContents) : Prop :=
  file1.fails = false ∧ file2.fails = false ∧ file1.delivered = file2.delivered

def wholeBlocks (delivered : List UInt8) : List UInt8 :=
  delivered.take (delivered.length / kContentsBufferSize * kContentsBufferSize)

def FailAlike (file1 file2 : StreamContents) : Prop :=
  file1.fails = true ∧ file2.fails = true ∧
    wholeBlocks file1.delivered = wholeBlocks file2.delivered

theorem wholeBlocks_short {delivered : List UInt8} (h : delivered.length < kContentsBufferSize) :
    wholeBlocks delivered = [] := by
  rw [wholeBlocks,Nat.div_eq_of_lt h,Nat.zero_mul,List.take_zero]

theorem wholeBlocks_block {delivered : List UInt8} (h : kContentsBufferSize ≤ delivered.length) :
    wholeBlocks delivered = delivered.take kContentsBufferSize ++
      wholeBlocks (delivered.drop kContentsBufferSize) := by
  have hcount : delivered.length / kContentsBufferSize * kContentsBufferSize =
      kContentsBufferSize +
        (delivered.length - kContentsBufferSize) / kContentsBufferSize * kContentsBufferSize := by
    rw [Nat.div_eq_sub_div (by decide) h,Nat.add_mul,Nat.one_mul,Nat.add_comm]
  rw [wholeBlocks,hcount,List.take_add,wholeBlocks,List.length_drop]

theorem wholeBlocks_eq_iff {delivered1 delivered2 : List UInt8}
    (h1 : kContentsBufferSize ≤ delivered1.length)
    (h2 : kContentsBufferSize ≤ delivered2.length) :
    wholeBlocks delivered1 = wholeBlocks delivered2 ↔
      delivered1.take kContentsBufferSize = delivered2.take kContentsBufferSize ∧
        wholeBlocks (delivered1.drop kContentsBufferSize) =
          wholeBlocks (delivered2.drop kContentsBufferSize) := by
  have hlen : (delivered1.take kContentsBufferSize).length =
      (delivered2.take kContentsBufferSize).length := by
    rw [List.length_take,List.length_take,Nat.min_eq_left h1,Nat.min_eq_left h2]
  rw [wholeBlocks_block h1,wholeBlocks_block h2]
  exact ⟨fun h => List.append_inj h hlen,fun ⟨h,hrest⟩ => by rw [h,hrest]⟩

theorem wholeBlocks_ne {shorter longer : List UInt8}
    (h1 : shorter.length < kContentsBufferSize) (h2 : kContentsBufferSize ≤ longer.length) :
    wholeBlocks shorter ≠ wholeBlocks longer := by
  have hpos : 0 < kContentsBufferSize := by decide
  rw [wholeBlocks_short h1,wholeBlocks_block h2]
  intro h
  have hlen := congrArg List.length h
  simp only [List.length_nil,List.length_append,List.length_take] at hlen
  omega

namespace Ifstream

@[simp] theorem opened_eofbit (contents : StreamContents) : (opened contents).eofbit = false :=
  rfl

theorem read_block (delivered : List UInt8) (fails : Bool) {n : Nat}
    (h : n ≤ delivered.length) :
    (opened ⟨delivered,fails⟩).read n =
      (delivered.take n,opened ⟨delivered.drop n,fails⟩) := by
  simp [opened,read,h]

theorem read_rest (delivered : List UInt8) {n : Nat} (h : delivered.length < n) :
    (opened ⟨delivered,false⟩).read n = (delivered,⟨[],false,true,true,false⟩) := by
  simp [opened,read,h]

theorem read_error (delivered : List UInt8) {n : Nat} (h : delivered.length < n) :
    (opened ⟨delivered,true⟩).read n = ([],⟨[],true,false,false,true⟩) := by
  simp [opened,read,h]

theorem read_bad {file : Ifstream} (h : file.badbit = true) (n : Nat) :
    file.read n = ([],{file with failbit := true}) := by
  simp [read,h]

end Ifstream

/-- Streams that went bad deliver nothing more and never meet their end. -/
theorem contentsEqualLoop_bad (fuel : Nat) {file1 file2 : Ifstream} (h1 : file1.badbit = true)
    (h2 : file2.badbit = true) (heof1 : file1.eofbit = false) (heof2 : file2.eofbit = false) :
    contentsEqualLoop fuel file1 file2 = none := by
  induction fuel generalizing file1 file2 with
  | zero => rfl
  | succ fuel ih =>
    have hnext := @ih {file1 with failbit := true} {file2 with failbit := true} h1 h2 heof1 heof2
    rw [contentsEqualLoop,Ifstream.read_bad h1,Ifstream.read_bad h2]
    dsimp only
    rw [if_neg (by simp [heof1,heof2]),if_pos (by simp [heof1])]
    exact hnext

theorem contentsEqualLoop_fails (fuel : Nat) {file1 file2 : StreamContents}
    (h : FailAlike file1 file2) :
    contentsEqualLoop fuel (.opened file1) (.opened file2) = none := by
  induction fuel generalizing file1 file2 with
  | zero => rfl
  | succ fuel ih =>
    obtain ⟨delivered1,fails1⟩ := file1
    obtain ⟨delivered2,fails2⟩ := file2
    obtain ⟨rfl,rfl,hblocks⟩ : fails1 = true ∧ fails2 = true ∧
        wholeBlocks delivered1 = wholeBlocks delivered2 := h
    rw [contentsEqualLoop]
    rcases Nat.lt_or_ge delivered1.length kContentsBufferSize with h1 | h1 <;>
      rcases Nat.lt_or_ge delivered2.length kContentsBufferSize with h2 | h2
    · rw [Ifstream.read_error _ h1,Ifstream.read_error _ h2]
      simp [contentsEqualLoop_bad]
    · exact absurd hblocks (wholeBlocks_ne h1 h2)
    · exact absurd hblocks.symm (wholeBlocks_ne h2 h1)
    · obtain ⟨hblock,hrest⟩ := (wholeBlocks_eq_iff h1 h2).mp hblocks
      rw [Ifstream.read_block _ _ h1,Ifstream.read_block _ _ h2]
      have hnext : contentsEqualLoop fuel
          (.opened ⟨delivered1.drop kContentsBufferSize,true⟩)
          (.opened ⟨delivered2.drop kContentsBufferSize,true⟩) = none := ih ⟨rfl,rfl,hrest⟩
      simp [hblock,hnext]

theorem same_rest {delivered1 delivered2 : List UInt8} {n : Nat}
    (h : delivered1.take n = delivered2.take n) :
    delivered1.drop n = delivered2.drop n ↔ delivered1 = delivered2 := by
  constructor
  · intro hdrop
    rw [← List.take_append_drop n delivered1,h,hdrop,List.take_append_drop]
  · exact congrArg _

/-- Where one file stops inside a block, be it by its end or a failure, and the other
does not, the counts differ. -/
theorem inside_block {shorter : StreamContents} {longer : List UInt8} {n : Nat}
    (h : shorter.delivered.length < n) (hlong : n ≤ longer.length) :
    ((Ifstream.opened shorter).read n).1.length ≠ (longer.take n).length := by
  obtain ⟨delivered,fails⟩ := shorter
  rw [List.length_take,Nat.min_eq_left hlong]
  cases fails with
  | false =>
    rw [Ifstream.read_rest _ h]
    exact Nat.ne_of_lt h
  | true =>
    rw [Ifstream.read_error _ h]
    exact Nat.ne_of_lt (Nat.lt_of_le_of_lt (Nat.zero_le _) h)

theorem SameContents.symm {file1 file2 : StreamContents} (h : SameContents file1 file2) :
    SameContents file2 file1 :=
  ⟨h.2.1,h.1,h.2.2.symm⟩

theorem not_same_block {shorter longer : StreamContents} {n : Nat}
    (h : shorter.delivered.length < n) (hlong : n ≤ longer.delivered.length) :
    ¬SameContents shorter longer := by
  rintro ⟨-,-,heq⟩
  rw [heq] at h
  omega

/-- With a turn for each byte the loop ends, but for files that fail alike. -/
theorem contentsEqualLoop_ends (fuel : Nat) (file1 file2 : StreamContents)
    (hfuel : file1.delivered.length < fuel) (h : ¬FailAlike file1 file2) :
    ∃ r, contentsEqualLoop fuel (.opened file1) (.opened file2) = some r ∧
      (r = true ↔ SameContents file1 file2) := by
  induction fuel generalizing file1 file2 with
  | zero => omega
  | succ fuel ih =>
    have hpos : 0 < kContentsBufferSize := by decide
    rw [contentsEqualLoop]
    rcases Nat.lt_or_ge file1.delivered.length kContentsBufferSize with h1 | h1 <;>
      rcases Nat.lt_or_ge file2.delivered.length kContentsBufferSize with h2 | h2
    · obtain ⟨delivered1,fails1⟩ := file1
      obtain ⟨delivered2,fails2⟩ := file2
      dsimp only at h1 h2
      simp only [FailAlike,wholeBlocks_short h1,wholeBlocks_short h2,and_true] at h
      cases fails1 <;> cases fails2
      · rw [Ifstream.read_rest _ h1,Ifstream.read_rest _ h2]
        by_cases heq : delivered1 = delivered2
        · exact ⟨true,by simp [heq],by simp [SameContents,heq]⟩
        · exact ⟨false,if_pos (.inr (.inr heq)),by simp [SameContents,heq]⟩
      · rw [Ifstream.read_rest _ h1,Ifstream.read_error _ h2]
        exact ⟨false,by simp,by simp [SameContents]⟩
      · rw [Ifstream.read_error _ h1,Ifstream.read_rest _ h2]
        exact ⟨false,by simp,by simp [SameContents]⟩
      · exact absurd ⟨rfl,rfl⟩ h
    · have hcount := inside_block h1 h2
      rw [Ifstream.read_block _ file2.fails h2]
      exact ⟨false,if_pos (.inr (.inl hcount)),by simp [not_same_block h1 h2]⟩
    · have hcount := inside_block h2 h1
      have hne : ¬SameContents file1 file2 := fun hsame => not_same_block h2 h1 hsame.symm
      rw [Ifstream.read_block _ file1.fails h1]
      exact ⟨false,if_pos (.inr (.inl hcount.symm)),by simp [hne]⟩
    · rw [Ifstream.read_block _ file1.fails h1,Ifstream.read_block _ file2.fails h2]
      by_cases hblock : file1.delivered.take kContentsBufferSize =
          file2.delivered.take kContentsBufferSize
      · have hdrop := same_rest hblock
        obtain ⟨r,hr,hsame⟩ := ih ⟨file1.delivered.drop kContentsBufferSize,file1.fails⟩
          ⟨file2.delivered.drop kContentsBufferSize,file2.fails⟩
          (by rw [List.length_drop]; omega)
          (fun ⟨hf1,hf2,hrest⟩ => h ⟨hf1,hf2,(wholeBlocks_eq_iff h1 h2).mpr ⟨hblock,hrest⟩⟩)
        refine ⟨r,by simp [hblock,hr],?_⟩
        rw [hsame]
        simp only [SameContents,hdrop]
      · refine ⟨false,if_pos (.inr (.inr hblock)),?_⟩
        simp only [Bool.false_eq_true,false_iff]
        rintro ⟨-,-,heq⟩
        exact hblock (heq ▸ rfl)

/-- The comparison ends and is right, unless both files fail behind the same whole
blocks. -/
theorem contentsEqual_iff (file1 file2 : StreamContents) :
    (∃ r, (∃ turns, ∀ fuel ≥ turns, contentsEqual fuel (some file1) (some file2) = some r) ∧
      (r = true ↔ SameContents file1 file2)) ↔ ¬FailAlike file1 file2 := by
  constructor
  · rintro ⟨r,⟨turns,hends⟩,-⟩ halike
    have hnone : contentsEqual turns (some file1) (some file2) = none :=
      contentsEqualLoop_fails turns halike
    rw [hends turns (Nat.le_refl _)] at hnone
    cases hnone
  · intro h
    have hlen := Nat.lt_succ_self file1.delivered.length
    obtain ⟨r,-,hr⟩ := contentsEqualLoop_ends (file1.delivered.length+1) file1 file2 hlen h
    refine ⟨r,⟨file1.delivered.length+1,fun fuel hge => ?_⟩,hr⟩
    obtain ⟨r',hends,hr'⟩ := contentsEqualLoop_ends fuel file1 file2 hge h
    rw [contentsEqual,hends,Bool.eq_iff_iff.mpr (hr'.trans hr.symm)]

/-- Two directories can be opened, and the first read of each fails; so it does of
files that deliver different bytes, but no whole block. -/
theorem both_fail :
    (∀ fuel, contentsEqual fuel (some ⟨[],true⟩) (some ⟨[],true⟩) = none) ∧
      ∀ fuel, contentsEqual fuel (some ⟨[1],true⟩) (some ⟨[2],true⟩) = none := by
  refine ⟨fun fuel => contentsEqualLoop_fails fuel ⟨rfl,rfl,rfl⟩,fun fuel => ?_⟩
  have hshort : ∀ b : UInt8, wholeBlocks [b] = [] :=
    fun b => wholeBlocks_short (by decide : 1 < kContentsBufferSize)
  exact contentsEqualLoop_fails fuel ⟨rfl,rfl,(hshort 1).trans (hshort 2).symm⟩

end MprMq.Base
