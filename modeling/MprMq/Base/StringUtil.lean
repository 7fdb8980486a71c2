import Mathlib.Data.List.TakeWhile
import MprMq.Base.Status
set_option autoImplicit false

/-! The string functions of `base/` and of the standard library that the rest uses. -/

namespace MprMq.Base

def nul : Char := Char.ofNat 0

/-- What is left of a string that goes through a `const char*`. -/
def cString (t : Text) : Text := t.takeWhile (fun c => c ≠ nul)

def toLowerASCII (t : Text) : Text := t.map Char.toLower

def lowerCaseEqualsASCII (str lowercase : Text) : Bool := toLowerASCII str = lowercase

/-- The loop goes on while the characters agree, and the lengths decide at its end. -/
def compareCaseInsensitiveASCII : Text → Text → Int
  | [], [] => 0
  | [], _ :: _ => -1
  | _ :: _, [] => 1
  | a :: as, b :: bs =>
    if a.toLower < b.toLower then -1
    else if b.toLower < a.toLower then 1
    else compareCaseInsensitiveASCII as bs

/-- `find_last_of` and `rfind`, from the end. -/
def findLast (p : Char → Bool) : Text → Option Nat
  | [] => none
  | c :: rest =>
    match findLast p rest with
    | some i => some (i+1)
    | none => if p c then some 0 else none

/-- `find_last_of` and `rfind` with a last position to look at. -/
def findLastUpTo (p : Char → Bool) (t : Text) (pos : Nat) : Option Nat :=
  findLast p (t.take (pos+1))

def findOffset (search : Text) : Text → Option Nat
  | [] => if search = [] then some 0 else none
  | c :: rest =>
    if search.isPrefixOf (c :: rest) then some 0
    else (findOffset search rest).map (fun i => i+1)

def find (source search : Text) (pos : Nat) : Option Nat :=
  if source.length < pos then none
  else (findOffset search (source.drop pos)).map (fun i => pos+i)

theorem nul_notMem_cString (t : Text) : nul ∉ cString t := by
  intro h
  have := List.mem_takeWhile_imp h
  simp at this

theorem cString_of_notMem {t : Text} (h : nul ∉ t) : cString t = t := by
  unfold cString
  rw [List.takeWhile_eq_self_iff]
  intro c hc
  simp only [ne_eq,decide_not,Bool.not_eq_true',decide_eq_false_iff_not]
  rintro rfl
  exact h hc

theorem compare_eq_zero (a b : Text) :
    compareCaseInsensitiveASCII a b = 0 ↔ toLowerASCII a = toLowerASCII b := by
  induction a generalizing b with
  | nil => cases b <;> simp [compareCaseInsensitiveASCII,toLowerASCII]
  | cons c a ih =>
    cases b with
    | nil => simp [compareCaseInsensitiveASCII,toLowerASCII]
    | cons d b =>
      have ih := ih b
      unfold toLowerASCII at ih
      simp only [compareCaseInsensitiveASCII,toLowerASCII,List.map_cons,List.cons.injEq]
      split
      case isTrue hlt => simp [Char.ne_of_lt hlt]
      case isFalse hle =>
        split
        case isTrue hlt => simp [(Char.ne_of_lt hlt).symm]
        case isFalse hge =>
          have heq : c.toLower = d.toLower :=
            Char.le_antisymm (Char.not_lt.mp hge) (Char.not_lt.mp hle)
          rw [ih]
          simp [heq]

theorem findLast_append (p : Char → Bool) (s t : Text) :
    findLast p (s ++ t) =
      match findLast p t with
      | some i => some (s.length+i)
      | none => findLast p s := by
  induction s with
  | nil =>
    cases h : findLast p t <;> simp [h,findLast]
  | cons c s ih =>
    rw [List.cons_append,findLast,ih]
    cases findLast p t with
    | none => rfl
    | some i => simp only [List.length_cons]; congr 1; omega

theorem findLast_eq_none {p : Char → Bool} {t : Text} :
    findLast p t = none ↔ ∀ c ∈ t, p c = false := by
  induction t with
  | nil => simp [findLast]
  | cons c rest ih =>
    unfold findLast
    cases h : findLast p rest with
    | some i =>
      have hne : ¬ ∀ d ∈ rest, p d = false := fun hall => by simp [ih.mpr hall] at h
      simp only [List.forall_mem_cons,hne,and_false,reduceCtorEq]
    | none =>
      have hrest := ih.mp h
      simpa using fun _ => hrest

theorem findLast_split {p : Char → Bool} {t : Text} {i : Nat} (h : findLast p t = some i) :
    ∃ c, p c = true ∧ t = t.take i ++ c :: t.drop (i+1) ∧ ∀ d ∈ t.drop (i+1), p d = false := by
  induction t generalizing i with
  | nil => cases h
  | cons c rest ih =>
    unfold findLast at h
    cases hr : findLast p rest with
    | some j =>
      rw [hr] at h
      obtain rfl := Option.some.inj h
      obtain ⟨d,hd,hsplit,hrest⟩ := ih hr
      refine ⟨d,hd,?_,by simpa using hrest⟩
      rw [List.take_succ_cons,List.cons_append,List.drop_succ_cons,← hsplit]
    | none =>
      simp only [hr,Option.ite_none_right_eq_some,Option.some.injEq] at h
      obtain ⟨hc,rfl⟩ := h
      exact ⟨c,hc,by simp,by simpa using findLast_eq_none.mp hr⟩

theorem findLast_middle {p : Char → Bool} {c : Char} (s : Text) {t : Text} (hc : p c = true)
    (ht : ∀ d ∈ t, p d = false) : findLast p (s ++ c :: t) = some s.length := by
  rw [findLast_append,findLast,findLast_eq_none.mpr ht]
  simp [hc]

theorem split_last_unique {p : Char → Bool} {c d : Char} {s u t v : Text}
    (h : s ++ c :: t = u ++ d :: v) (hc : p c = true) (hd : p d = true)
    (ht : ∀ e ∈ t, p e = false) (hv : ∀ e ∈ v, p e = false) : s = u ∧ c = d ∧ t = v := by
  have hlen := findLast_middle s hc ht
  rw [h,findLast_middle u hd hv,Option.some.injEq] at hlen
  obtain ⟨hs,htail⟩ := List.append_inj h hlen.symm
  obtain ⟨hcd,htt⟩ := List.cons.inj htail
  exact ⟨hs,hcd,htt⟩

theorem findOffset_spec {search source : Text} {i : Nat} (h : findOffset search source = some i) :
    search <+: source.drop i := by
  induction source generalizing i with
  | nil =>
    simp only [findOffset,Option.ite_none_right_eq_some] at h
    simp [h.1]
  | cons c rest ih =>
    unfold findOffset at h
    split at h
    case isTrue hpre =>
      obtain rfl := Option.some.inj h
      exact List.isPrefixOf_iff_prefix.mp hpre
    case isFalse =>
      obtain ⟨j,hj,rfl⟩ := Option.map_eq_some_iff.mp h
      exact ih hj

theorem find_bounds {source search : Text} {pos i : Nat} (hne : search ≠ [])
    (h : find source search pos = some i) : pos ≤ i ∧ i+search.length ≤ source.length := by
  simp only [find,Option.ite_none_left_eq_some] at h
  obtain ⟨-,h⟩ := h
  obtain ⟨j,hj,rfl⟩ := Option.map_eq_some_iff.mp h
  have hlen := (findOffset_spec hj).length_le
  have hpos : 0 < search.length := List.length_pos_iff.mpr hne
  simp only [List.length_drop] at hlen
  omega

end MprMq.Base
