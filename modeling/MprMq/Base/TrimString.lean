import Mathlib.Data.List.DropRight
import MprMq.Base.SearchesAgree
set_option autoImplicit false

/-! `TrimStringT` and `TrimStringPieceT`. The strings are a memory of `std::string` objects, so
that the output may be the input. -/

namespace MprMq.Base
open Lib

inductive TrimPositions where
  | trimNone | trimLeading | trimTrailing | trimAll
  deriving DecidableEq, Repr

namespace TrimPositions

def value : TrimPositions → Nat
  | trimNone => 0
  | trimLeading => 1
  | trimTrailing => 2
  | trimAll => 1 ||| 2

def ofValue : Nat → TrimPositions
  | 0 => trimNone
  | 1 => trimLeading
  | 2 => trimTrailing
  | _ => trimAll

def has (positions side : TrimPositions) : Bool := positions.value &&& side.value ≠ 0

end TrimPositions

open StringPiece TrimPositions

/-- `std::string::substr`; `none` where it throws. -/
def stdSubstr (self : StringPiece) (pos n : Nat) : Option StringPiece :=
  if self.size < pos then none else some (self.substr pos n)

def firstGoodChar (input trimChars : StringPiece) (positions : TrimPositions) : Nat :=
  if positions.has trimLeading then input.findFirstNotOf trimChars 0 else 0

def lastGoodChar (input trimChars : StringPiece) (positions : TrimPositions) : Nat :=
  if positions.has trimTrailing then input.findLastNotOf trimChars npos
  else SizeT.sub input.size 1

def trimStringT (strings : Nat → StringPiece) (input : Nat) (trimChars : StringPiece)
    (positions : TrimPositions) (output : Nat) : Option (TrimPositions × (Nat → StringPiece)) :=
  let text := strings input
  let lastChar := SizeT.sub text.size 1
  let first := firstGoodChar text trimChars positions
  let last := lastGoodChar text trimChars positions
  if text.size = 0 ∨ first = npos ∨ last = npos then
    some (if text.size = 0 then trimNone else positions,Function.update strings output empty)
  else do
    let value ← stdSubstr text first (SizeT.add (SizeT.sub last first) 1)
    let changed := ofValue ((if first = 0 then trimNone else trimLeading).value |||
      (if last = lastChar then trimNone else trimTrailing).value)
    return (changed,Function.update strings output value)

def trimString (strings : Nat → StringPiece) (input : Nat) (trimChars : StringPiece)
    (output : Nat) : Option (Bool × (Nat → StringPiece)) := do
  let (changed,strings) ← trimStringT strings input trimChars trimAll output
  return (changed ≠ trimNone,strings)

def trimStringPieceT (input trimChars : StringPiece) (positions : TrimPositions) :
    StringPiece :=
  let start := if positions.has trimLeading then input.findFirstNotOf trimChars 0 else 0
  let stop := if positions.has trimTrailing then
    SizeT.add (input.findLastNotOf trimChars npos) 1 else input.size
  input.substr start (SizeT.sub stop start)

/-- The text without the longest run of trim characters on each side that is asked for. -/
def trimmed (positions : TrimPositions) (trimChars text : List UInt8) : List UInt8 :=
  let text := if positions.has trimLeading then text.dropWhile (fun c => c ∈ trimChars) else text
  if positions.has trimTrailing then text.rdropWhile (fun c => c ∈ trimChars) else text

section trimmed
variable (positions : TrimPositions) (trimChars text : List UInt8)

/-- Only trim characters go, and only on the sides that are asked for. -/
theorem trimmed_split : ∃ before after, text = before ++ trimmed positions trimChars text ++ after ∧
    (∀ c ∈ before, c ∈ trimChars) ∧ (∀ c ∈ after, c ∈ trimChars) ∧
    (positions.has trimLeading = false → before = []) ∧
    (positions.has trimTrailing = false → after = []) := by
  let p (c : UInt8) : Bool := c ∈ trimChars
  let rest := if positions.has trimLeading then text.dropWhile p else text
  refine ⟨if positions.has trimLeading then text.takeWhile p else [],
    if positions.has trimTrailing then rest.rtakeWhile p else [],?_,?_,?_,?_,?_⟩
  · have htrimmed : trimmed positions trimChars text =
        if positions.has trimTrailing then rest.rdropWhile p else rest := rfl
    have hrest : trimmed positions trimChars text ++
        (if positions.has trimTrailing then rest.rtakeWhile p else []) = rest := by
      rw [htrimmed]
      split
      case isTrue => exact List.rdropWhile_append_rtakeWhile
      case isFalse => exact List.append_nil _
    rw [List.append_assoc,hrest]
    dsimp only [rest]
    split
    case isTrue => exact List.takeWhile_append_dropWhile.symm
    case isFalse => rfl
  · intro c hc
    split at hc
    case isTrue => simpa [p] using List.mem_takeWhile_imp hc
    case isFalse => cases hc
  · intro c hc
    split at hc
    case isTrue => simpa [p] using List.mem_rtakeWhile_imp hc
    case isFalse => cases hc
  · intro h
    rw [h]
    rfl
  · intro h
    rw [h]
    rfl

theorem trimmed_head {c : UInt8} {rest : List UInt8} (hside : positions.has trimLeading = true)
    (h : trimmed positions trimChars text = c :: rest) : c ∉ trimChars := by
  have hpre : c :: rest <+: text.dropWhile (fun c => c ∈ trimChars) := by
    rw [← h]
    unfold trimmed
    rw [if_pos hside]
    split
    case isTrue => exact List.rdropWhile_prefix _ _
    case isFalse => exact List.prefix_rfl
  obtain ⟨more,hmore⟩ := hpre
  have hhead := List.head?_dropWhile_not (fun c => decide (c ∈ trimChars)) text
  rw [← hmore] at hhead
  simpa using hhead

theorem trimmed_last {c : UInt8} {rest : List UInt8}
    (hside : positions.has trimTrailing = true)
    (h : trimmed positions trimChars text = rest ++ [c]) : c ∉ trimChars := by
  unfold trimmed at h
  rw [if_pos hside] at h
  have hne : rest ++ [c] ≠ [] := by simp
  have hlast := List.rdropWhile_last_not (fun c => decide (c ∈ trimChars)) _ (h ▸ hne)
  simpa [h] using hlast

end trimmed

theorem dropWhile_eq_drop {p : UInt8 → Bool} {l : List UInt8} {i : Nat} {c : UInt8}
    (hi : l[i]? = some c) (hc : p c = false)
    (hbefore : ∀ j d, j < i → l[j]? = some d → p d = true) : l.dropWhile p = l.drop i := by
  obtain ⟨hlt,rfl⟩ := List.getElem?_eq_some_iff.mp hi
  have hall : ∀ d ∈ l.take i, p d = true := by
    intro d hd
    obtain ⟨j,hj⟩ := List.mem_iff_getElem?.mp hd
    have hji : j < i := by
      have := (List.getElem?_eq_some_iff.mp hj).1
      rw [List.length_take] at this
      omega
    rw [List.getElem?_take_of_lt hji] at hj
    exact hbefore j d hji hj
  conv_lhs => rw [← List.take_append_drop i l]
  rw [List.dropWhile_append_of_pos hall,List.drop_eq_getElem_cons hlt,
    List.dropWhile_cons_of_neg (by simp [hc])]

theorem rdropWhile_eq_take {p : UInt8 → Bool} {l : List UInt8} {i : Nat} {c : UInt8}
    (hi : l[i]? = some c) (hc : p c = false)
    (hafter : ∀ j d, i < j → l[j]? = some d → p d = true) :
    l.rdropWhile p = l.take (i+1) := by
  obtain ⟨hlt,rfl⟩ := List.getElem?_eq_some_iff.mp hi
  have hall : ∀ d ∈ (l.drop (i+1)).reverse, p d = true := by
    intro d hd
    obtain ⟨j,hj⟩ := List.mem_iff_getElem?.mp (List.mem_reverse.mp hd)
    rw [List.getElem?_drop] at hj
    exact hafter (i+1+j) d (by omega) hj
  have hlast : l.take (i+1) = l.take i ++ [l[i]] := List.take_succ_eq_append_getElem hlt
  rw [List.rdropWhile]
  conv_lhs => rw [← List.take_append_drop (i+1) l]
  rw [List.reverse_append,List.dropWhile_append_of_pos hall,hlast,List.reverse_append,
    List.reverse_singleton,List.singleton_append,List.dropWhile_cons_of_neg (by simp [hc])]
  simp

/-- What the good characters found say of the trimmed text: there is none, or it stands between
them. -/
inductive Trims (input : StringPiece) (text : List UInt8) (first last : Nat) : Prop
  | away (text : text = []) (found : first = npos ∨ first = 0 ∧ last = npos)
  | keeps (order : first ≤ last) (inside : last < input.size)
      (text : text = (input.data.drop first).take (last-first+1))

section good
variable {input trimChars : StringPiece} {positions : TrimPositions}

theorem good_of_passes {i : Nat} :
    input.passes (fun c => c ∉ trimChars.data) i = true ↔
      ∃ c, input.data[i]? = some c ∧ decide (c ∈ trimChars.data) = false := by
  rw [passes_iff]
  simp

theorem good_of_mem {i : Nat} {c : UInt8} (hi : input.data[i]? = some c)
    (hnot : ¬input.passes (fun c => c ∉ trimChars.data) i = true) :
    decide (c ∈ trimChars.data) = true := by
  by_contra hc
  exact hnot (good_of_passes.mpr ⟨c,hi,by simpa using hc⟩)

theorem trims_of_none (h : ∀ i, ¬input.passes (fun c => c ∉ trimChars.data) i = true) :
    Trims input (trimmed positions trimChars.data input.data)
      (firstGoodChar input trimChars positions) (lastGoodChar input trimChars positions) := by
  have hall : ∀ c ∈ input.data, decide (c ∈ trimChars.data) = true := by
    intro c hc
    obtain ⟨i,hi⟩ := List.mem_iff_getElem?.mp hc
    exact good_of_mem hi (h i)
  have hdrop := List.dropWhile_eq_nil_iff.mpr hall
  have hrdrop := List.rdropWhile_eq_nil_iff.mpr hall
  unfold trimmed firstGoodChar lastGoodChar
  rw [findFirstNotOf_eq (by simp),findLastNotOf_eq,firstThat_of_none fun i _ => h i,
    lastThat_of_none npos h]
  by_cases hlead : positions.has trimLeading = true
  · exact .away (by simp [hlead,hdrop]) (.inl (if_pos hlead))
  · by_cases htrail : positions.has trimTrailing = true
    · exact .away (by simp [hlead,htrail,hrdrop]) (.inr ⟨if_neg hlead,if_pos htrail⟩)
    · simp only [if_neg hlead,if_neg htrail]
      by_cases hempty : input.size = 0
      · exact .away (data_of_size_zero hempty) (.inr ⟨rfl,by rw [hempty]; rfl⟩)
      · have hlast : SizeT.sub input.size 1 = input.size-1 := if_neg (by omega)
        refine .keeps (Nat.zero_le _) (by omega) ?_
        have hlength : input.data.length = input.size-1-0+1 := by
          change input.size = _
          omega
        rw [hlast,List.drop_zero,← hlength,List.take_length]

theorem firstThat_some {self : StringPiece} {test : UInt8 → Bool} {i : Nat}
    (h : self.passes test i = true) :
    IsLeast {x | self.passes test x = true} (self.firstThat test 0) := by
  have hleast := firstThat_leastOf self test 0
  simp only [Nat.zero_le,true_and] at hleast
  unfold firstThat
  cases hr : scanUp (self.passes test) (self.size-0) 0 with
  | none =>
    rw [hr] at hleast
    exact absurd h (Set.eq_empty_iff_forall_notMem.mp hleast i)
  | some x =>
    rw [hr] at hleast
    exact hleast

theorem lastThat_some {self : StringPiece} {test : UInt8 → Bool} {i : Nat}
    (h : self.passes test i = true) :
    IsGreatest {x | self.passes test x = true}
      (self.lastThat test (min npos (self.size-1))) := by
  have hgreatest := (lastThat_greatestOf self test npos).congr
    (T := {x | self.passes test x = true}) fun x => and_iff_right_of_imp fun hx =>
      Nat.le_of_lt (Nat.lt_trans (passes_lt hx) self.size_lt_npos)
  unfold lastThat
  cases hr : scanDown (self.passes test) (min npos (self.size-1)) with
  | none =>
    rw [hr] at hgreatest
    exact absurd h (Set.eq_empty_iff_forall_notMem.mp hgreatest i)
  | some x =>
    rw [hr] at hgreatest
    exact hgreatest

theorem dropWhile_good {first : Nat}
    (h : IsLeast {x | input.passes (fun c => c ∉ trimChars.data) x = true} first) :
    input.data.dropWhile (fun c => c ∈ trimChars.data) = input.data.drop first := by
  obtain ⟨c,hc,hgood⟩ := good_of_passes.mp h.1
  refine dropWhile_eq_drop hc hgood fun j d hj hd => ?_
  exact good_of_mem hd fun hpass => Nat.not_le_of_lt hj (h.2 hpass)

theorem rdropWhile_good {first last : Nat} (hle : first ≤ last)
    (h : IsGreatest {x | input.passes (fun c => c ∉ trimChars.data) x = true} last) :
    (input.data.drop first).rdropWhile (fun c => c ∈ trimChars.data) =
      (input.data.drop first).take (last-first+1) := by
  obtain ⟨c,hc,hgood⟩ := good_of_passes.mp h.1
  refine rdropWhile_eq_take (c := c) ?_ hgood fun j d hj hd => ?_
  · rw [List.getElem?_drop,Nat.add_sub_cancel' hle,hc]
  · rw [List.getElem?_drop] at hd
    refine good_of_mem hd fun hpass => ?_
    have : first+j ≤ last := h.2 hpass
    omega

theorem trims_of_good {i : Nat}
    (h : input.passes (fun c => c ∉ trimChars.data) i = true) :
    Trims input (trimmed positions trimChars.data input.data)
      (firstGoodChar input trimChars positions) (lastGoodChar input trimChars positions) := by
  have hleast := firstThat_some h
  have hgreatest := lastThat_some h
  rw [← findFirstNotOf_eq (by simp)] at hleast
  rw [← findLastNotOf_eq] at hgreatest
  have hlt : input.findLastNotOf trimChars npos < input.size := passes_lt hgreatest.1
  have hle : input.findFirstNotOf trimChars 0 ≤ input.findLastNotOf trimChars npos :=
    hleast.2 hgreatest.1
  have hfirst : firstGoodChar input trimChars positions ≤ input.findLastNotOf trimChars npos := by
    unfold firstGoodChar
    split <;> omega
  have hdrop : (if positions.has trimLeading then
      input.data.dropWhile (fun c => c ∈ trimChars.data) else input.data) =
      input.data.drop (firstGoodChar input trimChars positions) := by
    unfold firstGoodChar
    split
    case isTrue => exact dropWhile_good hleast
    case isFalse => rw [List.drop_zero]
  unfold trimmed
  simp only [hdrop]
  generalize firstGoodChar input trimChars positions = first at hfirst ⊢
  unfold lastGoodChar
  split
  case isTrue => exact .keeps hfirst hlt (rdropWhile_good hfirst hgreatest)
  case isFalse =>
    have hlast : SizeT.sub input.size 1 = input.size-1 := if_neg (by omega)
    rw [hlast]
    refine .keeps (by omega) (by omega) (List.take_of_length_le ?_).symm
    rw [List.length_drop]
    change input.size-first ≤ _
    omega

theorem trims (input trimChars : StringPiece) (positions : TrimPositions) :
    Trims input (trimmed positions trimChars.data input.data)
      (firstGoodChar input trimChars positions) (lastGoodChar input trimChars positions) := by
  by_cases h : ∃ i, input.passes (fun c => c ∉ trimChars.data) i = true
  · obtain ⟨i,hi⟩ := h
    exact trims_of_good hi
  · exact trims_of_none (not_exists.mp h)

end good

@[simp] theorem data_empty : empty.data = [] := rfl

theorem substr_data (self : StringPiece) (pos n : Nat) :
    (self.substr pos n).data = (self.data.drop pos).take n := by
  change (self.data.drop (min pos self.size)).take (min n (self.size-min pos self.size)) = _
  by_cases hpos : pos ≤ self.size
  · rw [Nat.min_eq_left hpos]
    by_cases hn : n ≤ self.size-pos
    · rw [Nat.min_eq_left hn]
    · have hlength : (self.data.drop pos).length = self.size-pos := List.length_drop
      rw [Nat.min_eq_right (by omega),List.take_of_length_le (by omega),
        List.take_of_length_le (by omega)]
  · have hend : self.data.length ≤ pos := Nat.le_of_not_le hpos
    rw [Nat.min_eq_right (Nat.le_of_not_le hpos)]
    simp [size,List.drop_eq_nil_of_le hend]

section both
variable (input trimChars : StringPiece) (positions : TrimPositions)

/-- One past the last good character; not found, it wraps to 0. -/
theorem stop_eq : (if positions.has trimTrailing then
    SizeT.add (input.findLastNotOf trimChars npos) 1 else input.size) =
    SizeT.add (lastGoodChar input trimChars positions) 1 := by
  have hfits : input.size < 2^63 := input.fits
  unfold lastGoodChar
  split
  case isTrue => rfl
  case isFalse =>
    unfold SizeT.sub SizeT.add SizeT.modulus
    split <;> omega

theorem trimStringPieceT_eq : trimStringPieceT input trimChars positions =
    input.substr (firstGoodChar input trimChars positions)
      (SizeT.sub (SizeT.add (lastGoodChar input trimChars positions) 1)
        (firstGoodChar input trimChars positions)) := by
  rw [← stop_eq]
  rfl

theorem trimStringPieceT_data :
    (trimStringPieceT input trimChars positions).data =
      trimmed positions trimChars.data input.data := by
  have hfits : input.size < 2^63 := input.fits
  rw [trimStringPieceT_eq,substr_data]
  cases trims input trimChars positions with
  | away htext hfound =>
    rw [htext]
    rcases hfound with hfirst | ⟨hfirst,hlast⟩
    · have hend : input.data.length ≤ npos := Nat.le_of_lt input.size_lt_npos
      rw [hfirst,List.drop_eq_nil_of_le hend,List.take_nil]
    · have hcount : SizeT.sub (SizeT.add npos 1) 0 = 0 := by decide
      rw [hfirst,hlast,hcount,List.take_zero]
  | keeps horder hinside htext =>
    rw [htext]
    congr 1
    unfold SizeT.sub SizeT.add SizeT.modulus
    split <;> omega

end both

theorem changed_eq_trimNone (first last lastChar : Nat) :
    ofValue ((if first = 0 then trimNone else trimLeading).value |||
      (if last = lastChar then trimNone else trimTrailing).value) = trimNone ↔
      first = 0 ∧ last = lastChar := by
  by_cases hfirst : first = 0 <;> by_cases hlast : last = lastChar <;>
    simp [hfirst,hlast,value,ofValue]

theorem take_drop_eq_self {l : List UInt8} {first last : Nat} (horder : first ≤ last)
    (hinside : last < l.length) :
    (l.drop first).take (last-first+1) = l ↔ first = 0 ∧ last = l.length-1 := by
  constructor
  · intro h
    have hlength := congrArg List.length h
    rw [List.length_take,List.length_drop] at hlength
    omega
  · rintro ⟨rfl,hlast⟩
    rw [List.drop_zero,List.take_of_length_le (by omega)]

/-- The call gives the trimmed text, and says whether this is another text. -/
theorem trimStringT_eq (strings : Nat → StringPiece) (input : Nat) (trimChars : StringPiece)
    (positions : TrimPositions) (output : Nat) :
    ∃ changed value, trimStringT strings input trimChars positions output =
      some (changed,Function.update strings output value) ∧
      value.data = trimmed positions trimChars.data (strings input).data ∧
      (changed = trimNone ↔ value.data = (strings input).data) := by
  have hfits : (strings input).size < 2^63 := (strings input).fits
  unfold trimStringT
  dsimp only
  cases trims (strings input) trimChars positions with
  | away htext hfound =>
    rw [if_pos (by tauto)]
    refine ⟨_,_,rfl,htext.symm,?_⟩
    rw [data_empty]
    split
    case isTrue hempty => simp [data_of_size_zero hempty]
    case isFalse hempty =>
      have hne : (strings input).data ≠ [] := fun hnil => hempty (by simp [size,hnil])
      have hpositions : positions ≠ trimNone := by
        rintro rfl
        exact hne htext
      simp [hpositions,hne.symm]
  | keeps horder hinside htext =>
    have hnpos := (strings input).size_lt_npos
    rw [if_neg (by omega)]
    unfold stdSubstr
    rw [if_neg (by omega)]
    have hcount (first last : Nat) (hle : first ≤ last) (hlt : last < (strings input).size) :
        SizeT.add (SizeT.sub last first) 1 = last-first+1 := by
      unfold SizeT.sub SizeT.add SizeT.modulus
      split <;> omega
    have hlast : SizeT.sub (strings input).size 1 = (strings input).data.length-1 :=
      if_neg (by omega)
    refine ⟨_,_,rfl,?_,?_⟩
    · rw [substr_data,htext,hcount _ _ horder hinside]
    · rw [substr_data,hcount _ _ horder hinside,changed_eq_trimNone,
        take_drop_eq_self horder hinside,hlast]

theorem trimString_eq (strings : Nat → StringPiece) (input : Nat) (trimChars : StringPiece)
    (output : Nat) :
    ∃ value, trimString strings input trimChars output =
      some (decide (value.data ≠ (strings input).data),Function.update strings output value) ∧
      value.data = trimmed trimAll trimChars.data (strings input).data := by
  obtain ⟨changed,value,heq,hdata,hchanged⟩ :=
    trimStringT_eq strings input trimChars trimAll output
  refine ⟨value,?_,hdata⟩
  simp [trimString,heq,hchanged]

/-- The two versions give the same text, into whichever string it goes. -/
theorem trim_versions_agree (strings : Nat → StringPiece) (input : Nat)
    (trimChars : StringPiece) (positions : TrimPositions) (output : Nat) :
    ∃ changed value, trimStringT strings input trimChars positions output =
        some (changed,Function.update strings output value) ∧
      trimStringPieceT (strings input) trimChars positions = value ∧
      value.data = trimmed positions trimChars.data (strings input).data := by
  obtain ⟨changed,value,heq,hdata,-⟩ := trimStringT_eq strings input trimChars positions output
  refine ⟨changed,value,heq,StringPiece.ext ?_,hdata⟩
  rw [trimStringPieceT_data,hdata]

end MprMq.Base
