import Mathlib.Data.List.Basic
import MprMq.Base.StringPiece
set_option autoImplicit false

/-! The searches of a `StringPiece` beside those of `std::string`. -/

namespace MprMq.Base
open Lib
namespace StringPiece

theorem buildLookupTable_apply (wanted : StringPiece) (table : UInt8 → Bool) (c : UInt8) :
    buildLookupTable wanted table c = (decide (c ∈ wanted.data) || table c) := by
  unfold buildLookupTable
  induction wanted.data generalizing table with
  | nil => simp
  | cons d rest ih =>
    rw [List.foldl_cons,ih]
    by_cases h : c = d
    · simp [h]
    · simp [h,Function.update_of_ne]

theorem lookup_eq (s : StringPiece) : s.lookup = fun c => decide (c ∈ s.data) := by
  funext c
  simp [lookup,buildLookupTable_apply]

theorem size_lt_npos (self : StringPiece) : self.size < npos := by
  have hfits : self.size < 2^63 := self.fits
  unfold npos SizeT.modulus
  omega

theorem passes_iff {self : StringPiece} {test : UInt8 → Bool} {i : Nat} :
    self.passes test i = true ↔ ∃ c, self.data[i]? = some c ∧ test c = true := by
  rw [passes,Option.any_eq_true]

theorem passes_lt {self : StringPiece} {test : UInt8 → Bool} {i : Nat}
    (h : self.passes test i = true) : i < self.size := by
  obtain ⟨c,hc,-⟩ := passes_iff.mp h
  exact (List.getElem?_eq_some_iff.mp hc).1

theorem not_passes_of_empty {self : StringPiece} {test : UInt8 → Bool} (h : self.size = 0)
    (x : Nat) : ¬self.passes test x = true := by
  intro hpass
  have := passes_lt hpass
  omega

theorem firstThat_leastOf (self : StringPiece) (test : UInt8 → Bool) (pos : Nat) :
    LeastOf {x | pos ≤ x ∧ self.passes test x = true}
      (scanUp (self.passes test) (self.size-pos) pos) := by
  refine (scanUp_leastOf (self.passes test) (self.size-pos) pos).congr fun x => ?_
  refine and_congr_right fun hpos => and_iff_right_of_imp fun hpass => ?_
  have := passes_lt hpass
  omega

theorem lastThat_greatestOf (self : StringPiece) (test : UInt8 → Bool) (pos : Nat) :
    GreatestOf {x | x ≤ pos ∧ self.passes test x = true}
      (scanDown (self.passes test) (min pos (self.size-1))) := by
  refine (scanDown_greatestOf (self.passes test) (min pos (self.size-1))).congr fun x => ?_
  refine and_congr_left fun hpass => ?_
  have := passes_lt hpass
  omega

theorem firstThat_eq {self : StringPiece} {test : UInt8 → Bool} {pos : Nat} {r : Option Nat}
    (h : LeastOf {x | pos ≤ x ∧ self.passes test x = true} r) :
    self.firstThat test pos = orNpos r :=
  congrArg orNpos ((firstThat_leastOf self test pos).unique h)

theorem lastThat_eq {self : StringPiece} {test : UInt8 → Bool} {pos : Nat} {r : Option Nat}
    (h : GreatestOf {x | x ≤ pos ∧ self.passes test x = true} r) :
    self.lastThat test (min pos (self.size-1)) = orNpos r :=
  congrArg orNpos ((lastThat_greatestOf self test pos).unique h)

section positions
variable {self : StringPiece} {test : UInt8 → Bool} {P : Nat → Prop}

theorem passes_iff_of_test
    (h : ∀ x c, self.data[x]? = some c → (P x ↔ test c = true)) (x : Nat) :
    x < self.size ∧ P x ↔ self.passes test x = true := by
  rw [passes_iff]
  constructor
  · rintro ⟨hx,hP⟩
    have hc := List.getElem?_eq_getElem (show x < self.data.length from hx)
    exact ⟨_,hc,(h x _ hc).mp hP⟩
  · rintro ⟨c,hc,htest⟩
    exact ⟨(List.getElem?_eq_some_iff.mp hc).1,(h x c hc).mpr htest⟩

variable [DecidablePred P]

theorem lowest_eq (h : ∀ x c, self.data[x]? = some c → (P x ↔ test c = true)) (pos : Nat) :
    orNpos (lowest (fun x => pos ≤ x ∧ P x) self.size) = self.firstThat test pos := by
  have hleast := lowest_leastOf (fun x => pos ≤ x ∧ P x) self.size
  refine (firstThat_eq (hleast.congr fun x => ?_)).symm
  simp only [Set.mem_ofPred_eq,← passes_iff_of_test h x]
  exact and_left_comm

theorem highest_eq (h : ∀ x c, self.data[x]? = some c → (P x ↔ test c = true)) (pos : Nat) :
    orNpos (highest (fun x => x ≤ pos ∧ P x) self.size) =
      self.lastThat test (min pos (self.size-1)) := by
  have hgreatest := highest_greatestOf (fun x => x ≤ pos ∧ P x) self.size
  refine (lastThat_eq (hgreatest.congr fun x => ?_)).symm
  simp only [Set.mem_ofPred_eq,← passes_iff_of_test h x]
  exact and_left_comm

end positions

theorem firstThat_of_none {self : StringPiece} {test : UInt8 → Bool} {pos : Nat}
    (h : ∀ x, pos ≤ x → ¬self.passes test x = true) : self.firstThat test pos = npos := by
  refine firstThat_eq (r := none) (Set.eq_empty_of_forall_notMem ?_)
  exact fun x hx => h x hx.1 hx.2

theorem lastThat_of_none {self : StringPiece} {test : UInt8 → Bool} (pos : Nat)
    (h : ∀ x, ¬self.passes test x = true) :
    self.lastThat test (min pos (self.size-1)) = npos := by
  refine lastThat_eq (r := none) (Set.eq_empty_of_forall_notMem ?_)
  exact fun x hx => h x hx.2

theorem passes_char {self : StringPiece} {c : UInt8} {x : Nat} :
    self.passes (fun d => d = c) x = true ↔ self.data[x]? = some c := by
  rw [passes_iff]
  simp

theorem findChar_eq (self : StringPiece) (c : UInt8) (pos : Nat) :
    self.findChar c pos = self.firstThat (fun d => d = c) pos := by
  unfold findChar
  split
  case isTrue hpos =>
    refine (firstThat_of_none fun x hx hpass => ?_).symm
    have := passes_lt hpass
    omega
  case isFalse hpos =>
    have hlength : (self.data.drop pos).length = self.size-pos := List.length_drop
    have hdrop (x : Nat) (hx : pos ≤ x) : (self.data.drop pos)[x-pos]? = self.data[x]? := by
      rw [List.getElem?_drop,Nat.add_sub_cancel' hx]
    by_cases hmem : c ∈ self.data.drop pos
    · have hlt := List.idxOf_lt_length_of_mem hmem
      rw [if_pos (by omega)]
      refine (firstThat_eq (r := some _) ⟨⟨Nat.le_add_right _ _,?_⟩,?_⟩).symm
      · rw [passes_char,← hdrop _ (Nat.le_add_right _ _),Nat.add_sub_cancel_left]
        exact List.getElem?_idxOf hmem
      · rintro y ⟨hy,hpass⟩
        rw [passes_char,← hdrop y hy] at hpass
        have htake : c ∈ (self.data.drop pos).take (y-pos+1) :=
          List.mem_of_getElem? (by rw [List.getElem?_take_of_lt (Nat.lt_succ_self _),hpass])
        have := (List.mem_take_iff_idxOf_lt hmem).mp htake
        omega
    · have hidx := List.idxOf_of_notMem hmem
      rw [if_neg (by omega)]
      refine (firstThat_of_none fun x hx hpass => hmem ?_).symm
      rw [passes_char,← hdrop x hx] at hpass
      exact List.mem_of_getElem? hpass

theorem rfindChar_eq (self : StringPiece) (c : UInt8) (pos : Nat) :
    self.rfindChar c pos = self.lastThat (fun d => d = c) (min pos (self.size-1)) := by
  unfold rfindChar
  split
  case isTrue h => exact (lastThat_of_none pos (not_passes_of_empty h)).symm
  case isFalse => rfl

theorem findFirstNotOfChar_eq (self : StringPiece) (c : UInt8) (pos : Nat) :
    self.findFirstNotOfChar c pos = self.firstThat (fun d => d ≠ c) pos := by
  unfold findFirstNotOfChar
  split
  case isTrue h => exact (firstThat_of_none fun x _ => not_passes_of_empty h x).symm
  case isFalse => rfl

theorem findLastNotOfChar_eq (self : StringPiece) (c : UInt8) (pos : Nat) :
    self.findLastNotOfChar c pos = self.lastThat (fun d => d ≠ c) (min pos (self.size-1)) := by
  unfold findLastNotOfChar
  split
  case isTrue h => exact (lastThat_of_none pos (not_passes_of_empty h)).symm
  case isFalse => rfl

theorem data_of_size_one {s : StringPiece} (h : s.size = 1) : s.data = [s.front] := by
  obtain ⟨c,hc⟩ := List.length_eq_one_iff.mp h
  simp [front,hc]

theorem data_of_size_zero {s : StringPiece} (h : s.size = 0) : s.data = [] :=
  List.length_eq_zero_iff.mp h

theorem not_passes_of_empty_set {self s : StringPiece} (h : self.size = 0 ∨ s.size = 0)
    (x : Nat) : ¬self.passes (fun c => c ∈ s.data) x = true := by
  intro hpass
  rcases h with hself | hs
  · exact not_passes_of_empty hself x hpass
  · obtain ⟨c,-,hc⟩ := passes_iff.mp hpass
    simp [data_of_size_zero hs] at hc

theorem findFirstOf_eq (self s : StringPiece) (pos : Nat) :
    self.findFirstOf s pos = self.firstThat (fun c => c ∈ s.data) pos := by
  unfold findFirstOf
  split_ifs with hempty hone
  · exact (firstThat_of_none fun x _ => not_passes_of_empty_set hempty x).symm
  · rw [findChar_eq,data_of_size_one hone]
    simp [front]
  · rw [lookup_eq]

theorem findLastOf_eq (self s : StringPiece) (pos : Nat) :
    self.findLastOf s pos = self.lastThat (fun c => c ∈ s.data) (min pos (self.size-1)) := by
  unfold findLastOf
  split_ifs with hempty hone
  · exact (lastThat_of_none pos (not_passes_of_empty_set hempty)).symm
  · rw [rfindChar_eq,data_of_size_one hone]
    simp [front]
  · rw [lookup_eq]

/-- Where an empty `s` meets a later start, the code answers 0. -/
theorem findFirstNotOf_eq {self s : StringPiece} {pos : Nat}
    (h : ¬(s.data = [] ∧ self.data ≠ [] ∧ 0 < pos)) :
    self.findFirstNotOf s pos = self.firstThat (fun c => c ∉ s.data) pos := by
  unfold findFirstNotOf
  split_ifs with hself hs hone
  · exact (firstThat_of_none fun x _ => not_passes_of_empty hself x).symm
  · have hdata := data_of_size_zero hs
    have hne : self.data ≠ [] := fun hnil => hself (by simp [size,hnil])
    have hpos : pos = 0 := by
      by_contra hpos
      exact h ⟨hdata,hne,Nat.pos_of_ne_zero hpos⟩
    obtain ⟨c,rest,hcons⟩ := List.exists_cons_of_ne_nil hne
    refine (firstThat_eq (r := some 0) ⟨⟨Nat.le_of_eq hpos,?_⟩,fun y _ => Nat.zero_le y⟩).symm
    exact passes_iff.mpr ⟨c,by simp [hcons],by simp [hdata]⟩
  · rw [findFirstNotOfChar_eq,data_of_size_one hone]
    simp [front]
  · simp only [lookup_eq,decide_not]

theorem findLastNotOf_eq (self s : StringPiece) (pos : Nat) :
    self.findLastNotOf s pos = self.lastThat (fun c => c ∉ s.data) (min pos (self.size-1)) := by
  unfold findLastNotOf
  split_ifs with hself hs hone
  · exact (lastThat_of_none pos (not_passes_of_empty hself)).symm
  · have hlt : min pos (self.size-1) < self.data.length := by
      change _ < self.size
      omega
    refine (lastThat_eq (r := some _) ⟨⟨Nat.min_le_left _ _,?_⟩,fun y hy => ?_⟩).symm
    · exact passes_iff.mpr ⟨_,List.getElem?_eq_getElem hlt,by simp [data_of_size_zero hs]⟩
    · have := passes_lt hy.2
      have := hy.1
      omega
  · rw [findLastNotOfChar_eq,data_of_size_one hone]
    simp [front]
  · simp only [lookup_eq,decide_not]

theorem oneOfAt_iff {self s : List UInt8} {x : Nat} {c : UInt8} (h : self[x]? = some c) :
    StdString.OneOfAt self s x ↔ c ∈ s := by
  simp [StdString.OneOfAt,h]

theorem stdFindFirstOf_eq (self : StringPiece) (s : List UInt8) (pos : Nat) :
    StdString.findFirstOf self.data s pos = self.firstThat (fun c => c ∈ s) pos :=
  lowest_eq (fun x c hc => by rw [oneOfAt_iff hc,decide_eq_true_iff]) pos

theorem stdFindFirstNotOf_eq (self : StringPiece) (s : List UInt8) (pos : Nat) :
    StdString.findFirstNotOf self.data s pos = self.firstThat (fun c => c ∉ s) pos :=
  lowest_eq (fun x c hc => by rw [oneOfAt_iff hc,decide_eq_true_iff]) pos

theorem stdFindLastOf_eq (self : StringPiece) (s : List UInt8) (pos : Nat) :
    StdString.findLastOf self.data s pos =
      self.lastThat (fun c => c ∈ s) (min pos (self.size-1)) :=
  highest_eq (fun x c hc => by rw [oneOfAt_iff hc,decide_eq_true_iff]) pos

theorem stdFindLastNotOf_eq (self : StringPiece) (s : List UInt8) (pos : Nat) :
    StdString.findLastNotOf self.data s pos =
      self.lastThat (fun c => c ∉ s) (min pos (self.size-1)) :=
  highest_eq (fun x c hc => by rw [oneOfAt_iff hc,decide_eq_true_iff]) pos

theorem occursAt_iff {self s : List UInt8} {x : Nat} :
    StdString.OccursAt self s x ↔ x ≤ self.length ∧ s <+: self.drop x := by
  unfold StdString.OccursAt
  constructor
  · rintro ⟨hlength,heq⟩
    refine ⟨by omega,List.prefix_iff_getElem?.mpr fun i hi => ?_⟩
    rw [List.getElem?_drop,heq i hi,List.getElem?_eq_getElem hi]
  · rintro ⟨hx,hpre⟩
    have hlength := hpre.length_le
    rw [List.length_drop] at hlength
    refine ⟨by omega,fun i hi => ?_⟩
    rw [← List.getElem?_drop,List.prefix_iff_getElem?.mp hpre i hi,List.getElem?_eq_getElem hi]

theorem occursAt_drop {self s : List UInt8} {pos i : Nat} (hpos : pos ≤ self.length) :
    StdString.OccursAt (self.drop pos) s i ↔ StdString.OccursAt self s (pos+i) := by
  rw [occursAt_iff,occursAt_iff,List.length_drop,List.drop_drop]
  refine and_congr_left fun _ => ?_
  omega

theorem occursAt_take {self s : List UInt8} {last i : Nat} (hlast : last ≤ self.length) :
    StdString.OccursAt (self.take last) s i ↔
      StdString.OccursAt self s i ∧ i+s.length ≤ last := by
  unfold StdString.OccursAt
  rw [List.length_take,Nat.min_eq_left hlast]
  constructor
  · rintro ⟨hend,heq⟩
    refine ⟨⟨by omega,fun j hj => ?_⟩,hend⟩
    rw [← heq j hj,List.getElem?_take_of_lt (by omega)]
  · rintro ⟨⟨-,heq⟩,hend⟩
    refine ⟨hend,fun j hj => ?_⟩
    rw [List.getElem?_take_of_lt (by omega),heq j hj]

theorem search_spec (l s : List UInt8) :
    ∃ r, search l s = r.getD l.length ∧ LeastOf {i | StdString.OccursAt l s i} r := by
  refine ⟨_,rfl,(lowest_leastOf (fun i => s <+: l.drop i) (l.length+1)).congr fun i => ?_⟩
  rw [Set.mem_ofPred_eq,Set.mem_ofPred_eq,occursAt_iff,Nat.lt_succ_iff]

theorem findEnd_spec (l : List UInt8) {s : List UInt8} (hs : s ≠ []) :
    ∃ r, findEnd l s = r.getD l.length ∧ GreatestOf {i | StdString.OccursAt l s i} r := by
  refine ⟨_,if_neg hs,(highest_greatestOf (fun i => s <+: l.drop i) l.length).congr fun i => ?_⟩
  rw [Set.mem_ofPred_eq,Set.mem_ofPred_eq,occursAt_iff]
  refine and_congr_left fun hpre => ?_
  have hlength := hpre.length_le
  have := List.length_pos_iff.mpr hs
  rw [List.length_drop] at hlength
  omega

theorem stdFind_eq {self s : List UInt8} {pos : Nat} {r : Option Nat}
    (h : LeastOf {x | pos ≤ x ∧ x ∈ {x | StdString.OccursAt self s x}} r) :
    StdString.find self s pos = orNpos r := by
  have hleast := lowest_leastOf (fun x => pos ≤ x ∧ StdString.OccursAt self s x) (self.length+1)
  refine congrArg orNpos ((hleast.congr fun x => ?_).unique h)
  exact and_iff_right_of_imp fun hx => Nat.lt_succ_of_le (occursAt_iff.mp hx.2).1

theorem stdRfind_eq {self s : List UInt8} {pos : Nat} {r : Option Nat}
    (h : GreatestOf {x | x ≤ pos ∧ StdString.OccursAt self s x} r) :
    StdString.rfind self s pos = orNpos r := by
  have hgreatest := highest_greatestOf (fun x => x ≤ pos ∧ StdString.OccursAt self s x)
    (self.length+1)
  refine congrArg orNpos ((hgreatest.congr fun x => ?_).unique h)
  exact and_iff_right_of_imp fun hx => Nat.lt_succ_of_le (occursAt_iff.mp hx.2).1

theorem find_agrees (self s : StringPiece) (pos : Nat) :
    self.find s pos = StdString.find self.data s.data pos := by
  unfold find
  split
  case isTrue hpos =>
    refine (stdFind_eq (r := none) (Set.eq_empty_of_forall_notMem fun x hx => ?_)).symm
    have hle := (occursAt_iff.mp hx.2).1
    have := hx.1
    unfold size at hpos
    omega
  case isFalse hpos =>
    have hle : pos ≤ self.data.length := Nat.le_of_not_lt hpos
    obtain ⟨r,hsearch,hr⟩ := search_spec (self.data.drop pos) s.data
    simp only [occursAt_drop hle] at hr
    have hlength : (self.data.drop pos).length = self.size-pos := List.length_drop
    have hself : self.size < 2^63 := self.fits
    have hs : s.size < 2^63 := s.fits
    have hadd (x : Nat) (hx : x ≤ self.size) : SizeT.add x s.size = x+s.size :=
      SizeT.add_eq (by unfold SizeT.modulus; omega)
    rw [stdFind_eq (hr.shift pos),hsearch,hlength]
    cases r with
    | none =>
      have hne : s.size ≠ 0 := fun hzero => by
        have hnone : ¬StdString.OccursAt self.data s.data (pos+0) :=
          Set.eq_empty_iff_forall_notMem.mp hr 0
        rw [occursAt_iff,data_of_size_zero hzero] at hnone
        exact hnone ⟨hle,List.nil_prefix⟩
      dsimp only [Option.getD_none]
      rw [hadd _ (by omega),if_neg (by omega)]
      rfl
    | some i =>
      have hend : pos+i+s.size ≤ self.size := hr.1.1
      dsimp only [Option.getD_some]
      rw [hadd _ (by omega),if_pos hend]
      rfl

theorem rfind_agrees (self s : StringPiece) (pos : Nat) :
    self.rfind s pos = StdString.rfind self.data s.data pos := by
  unfold rfind
  split_ifs with hshort hempty
  · refine (stdRfind_eq (r := none) (Set.eq_empty_of_forall_notMem fun x hx => ?_)).symm
    have := hx.2.1
    unfold size at hshort
    omega
  · refine (stdRfind_eq (r := some _) ⟨⟨Nat.min_le_right _ _,?_⟩,fun y hy => ?_⟩).symm
    · unfold size at *
      exact ⟨by omega,fun i hi => by omega⟩
    · have := hy.1
      have := hy.2.1
      unfold size
      omega
  · dsimp only
    generalize hlast : min (self.size-s.size) pos + s.size = last
    unfold size at *
    have hne : s.data ≠ [] := fun hnil => hempty (by simp [hnil])
    have hle : last ≤ self.data.length := by omega
    obtain ⟨r,hfindEnd,hr⟩ := findEnd_spec (self.data.take last) hne
    have hstd := hr.congr (T := {x | x ≤ pos ∧ StdString.OccursAt self.data s.data x}) fun x => by
      rw [Set.mem_ofPred_eq,Set.mem_ofPred_eq,occursAt_take hle,and_comm]
      refine and_congr_left fun hoccurs => ?_
      have := hoccurs.1
      omega
    rw [stdRfind_eq hstd,hfindEnd,List.length_take,Nat.min_eq_left hle]
    cases r with
    | none => simp [orNpos]
    | some i =>
      have hend := (occursAt_take hle).mp hr.1
      rw [Option.getD_some,if_pos (by omega)]
      rfl

theorem occursAt_char {self : StringPiece} {c : UInt8} {x : Nat} :
    StdString.OccursAt self.data [c] x ↔ self.passes (fun d => d = c) x = true := by
  rw [passes_char,StdString.OccursAt,List.length_singleton]
  constructor
  · rintro ⟨-,heq⟩
    simpa using heq 0 Nat.zero_lt_one
  · intro hc
    refine ⟨(List.getElem?_eq_some_iff.mp hc).1,fun i hi => ?_⟩
    obtain rfl : i = 0 := by omega
    simpa using hc

theorem findChar_agrees (self : StringPiece) (c : UInt8) (pos : Nat) :
    self.findChar c pos = StdString.find self.data [c] pos := by
  have h := firstThat_leastOf self (fun d => d = c) pos
  simp only [← occursAt_char] at h
  rw [findChar_eq,stdFind_eq h]
  rfl

theorem rfindChar_agrees (self : StringPiece) (c : UInt8) (pos : Nat) :
    self.rfindChar c pos = StdString.rfind self.data [c] pos := by
  have h := lastThat_greatestOf self (fun d => d = c) pos
  simp only [← occursAt_char] at h
  rw [rfindChar_eq,stdRfind_eq h]
  rfl

/-- The string `find_first_not_of` agrees where an empty `s` does not meet a later start. -/
theorem findFirstNotOf_agrees_iff (self s : StringPiece) (pos : Nat) :
    self.findFirstNotOf s pos = StdString.findFirstNotOf self.data s.data pos ↔
      ¬(s.data = [] ∧ self.data ≠ [] ∧ 0 < pos) := by
  constructor
  · rintro h ⟨hs,hself,hpos⟩
    have hself : self.size ≠ 0 := fun hzero => hself (data_of_size_zero hzero)
    have hs : s.size = 0 := by simp [size,hs]
    rw [findFirstNotOf,if_neg hself,if_pos hs,stdFindFirstNotOf_eq] at h
    have hleast := firstThat_leastOf self (fun c => c ∉ s.data) pos
    unfold firstThat at h
    cases hr : scanUp (self.passes fun c => c ∉ s.data) (self.size-pos) pos with
    | none =>
      rw [hr] at h
      exact absurd h (by decide)
    | some x =>
      rw [hr] at h hleast
      have hx : pos ≤ x := hleast.1.1
      have hzero : 0 = x := h
      omega
  · intro h
    rw [findFirstNotOf_eq h,stdFindFirstNotOf_eq]

/-- Each search gives what `std::string` gives; a character is searched as a string of one. -/
structure SearchesAgree (piece s : StringPiece) (c : UInt8) (pos : Nat) : Prop where
  find : piece.find s pos = StdString.find piece.data s.data pos
  findChar : piece.findChar c pos = StdString.find piece.data [c] pos
  rfind : piece.rfind s pos = StdString.rfind piece.data s.data pos
  rfindChar : piece.rfindChar c pos = StdString.rfind piece.data [c] pos
  findFirstOf : piece.findFirstOf s pos = StdString.findFirstOf piece.data s.data pos
  findFirstOfChar : piece.findFirstOfChar c pos = StdString.findFirstOf piece.data [c] pos
  findFirstNotOf : piece.findFirstNotOf s pos = StdString.findFirstNotOf piece.data s.data pos
  findFirstNotOfChar :
    piece.findFirstNotOfChar c pos = StdString.findFirstNotOf piece.data [c] pos
  findLastOf : piece.findLastOf s pos = StdString.findLastOf piece.data s.data pos
  findLastOfChar : piece.findLastOfChar c pos = StdString.findLastOf piece.data [c] pos
  findLastNotOf : piece.findLastNotOf s pos = StdString.findLastNotOf piece.data s.data pos
  findLastNotOfChar :
    piece.findLastNotOfChar c pos = StdString.findLastNotOf piece.data [c] pos

theorem searches_agree_iff (self s : StringPiece) (c : UInt8) (pos : Nat) :
    SearchesAgree self s c pos ↔ ¬(s.data = [] ∧ self.data ≠ [] ∧ 0 < pos) := by
  constructor
  · exact fun h => (findFirstNotOf_agrees_iff self s pos).mp h.findFirstNotOf
  · intro h
    exact {
      find := find_agrees self s pos
      findChar := findChar_agrees self c pos
      rfind := rfind_agrees self s pos
      rfindChar := rfindChar_agrees self c pos
      findFirstOf := by rw [findFirstOf_eq,stdFindFirstOf_eq]
      findFirstOfChar := by
        rw [findFirstOfChar,findChar_eq,stdFindFirstOf_eq]
        simp
      findFirstNotOf := (findFirstNotOf_agrees_iff self s pos).mpr h
      findFirstNotOfChar := by
        rw [findFirstNotOfChar_eq,stdFindFirstNotOf_eq]
        simp
      findLastOf := by rw [findLastOf_eq,stdFindLastOf_eq]
      findLastOfChar := by
        rw [findLastOfChar,rfindChar_eq,stdFindLastOf_eq]
        simp
      findLastNotOf := by rw [findLastNotOf_eq,stdFindLastNotOf_eq]
      findLastNotOfChar := by
        rw [findLastNotOfChar_eq,stdFindLastNotOf_eq]
        simp }

/-- `StringPiece("ab").find_first_not_of("", 1)` is 0, where the standard says 1. -/
theorem find_first_not_of_before_pos :
    ¬SearchesAgree ⟨[0x61,0x62],by decide⟩ empty 0x61 1 := by
  intro h
  have hcode : findFirstNotOf ⟨[0x61,0x62],by decide⟩ empty 1 = 0 := by decide
  have hstd : StdString.findFirstNotOf [0x61,0x62] [] 1 = 1 := by decide
  have heq := h.findFirstNotOf
  rw [hcode] at heq
  exact absurd (heq.trans hstd) (by decide)

end StringPiece
end MprMq.Base
