import Mathlib.Data.List.Lex
import Mathlib.Logic.Function.Basic
import Mathlib.Order.Lattice
set_option autoImplicit false

/-! Maps from keys to entries, filled from a list: where a key comes twice, its first entry
stays. -/

namespace MprMq.Lib

variable {κ ν : Type}

/-- An entry for a key that has none. -/
def addNew [DecidableEq κ] (m : κ → Option ν) (key : κ) (entry : ν) : κ → Option ν :=
  if (m key).isNone then Function.update m key (some entry) else m

theorem addNew_apply [DecidableEq κ] (m : κ → Option ν) (key : κ) (entry : ν) (k : κ) :
    addNew m key entry k = (m k).or (if key = k then some entry else none) := by
  unfold addNew
  rcases hm : m key with _ | old
  · rcases eq_or_ne key k with rfl | hne
    · simp [hm]
    · simp [Function.update_of_ne hne.symm,hne]
  · rcases eq_or_ne key k with rfl | hne
    · simp [hm]
    · simp [hne]

section Sorted
variable [LinearOrder κ]

/-- An entry for a key that has none, where the entries stand in the order of their keys. -/
def insertNew (key : κ) (entry : ν) : List (κ × ν) → List (κ × ν)
  | [] => [(key,entry)]
  | x :: m =>
    if key < x.1 then (key,entry) :: x :: m
    else if key = x.1 then x :: m
    else x :: insertNew key entry m

def Sorted (m : List (κ × ν)) : Prop := m.Pairwise fun x y => x.1 < y.1

theorem mem_insertNew {key : κ} {entry : ν} {m : List (κ × ν)} {x : κ × ν}
    (h : x ∈ insertNew key entry m) : x = (key,entry) ∨ x ∈ m := by
  induction m with
  | nil => exact .inl (List.mem_singleton.mp h)
  | cons y m ih =>
    unfold insertNew at h
    split at h
    case isTrue => exact List.mem_cons.mp h
    case isFalse =>
      split at h
      case isTrue => exact .inr h
      case isFalse =>
        rcases List.mem_cons.mp h with rfl | hx
        · exact .inr (List.mem_cons_self ..)
        · exact (ih hx).imp_right (List.mem_cons_of_mem _)

theorem Sorted.insertNew {m : List (κ × ν)} (h : Sorted m) (key : κ) (entry : ν) :
    Sorted (insertNew key entry m) := by
  induction m with
  | nil => exact List.pairwise_singleton _ _
  | cons y m ih =>
    obtain ⟨hy,hm⟩ := List.pairwise_cons.mp h
    unfold Lib.insertNew
    split
    case isTrue hlt =>
      refine List.pairwise_cons.mpr ⟨fun x hx => ?_,h⟩
      rcases List.mem_cons.mp hx with rfl | hx
      · exact hlt
      · exact hlt.trans (hy x hx)
    case isFalse hlt =>
      split
      case isTrue => exact h
      case isFalse hne =>
        refine List.pairwise_cons.mpr ⟨fun x hx => ?_,ih hm⟩
        rcases mem_insertNew hx with rfl | hx
        · exact lt_of_le_of_ne (not_lt.mp hlt) (Ne.symm hne)
        · exact hy x hx

/-- The search for a key. -/
theorem find?_insertNew {p : κ → Bool} {k : κ} (hp : ∀ key, p key = true ↔ key = k)
    {m : List (κ × ν)} (h : Sorted m) (key : κ) (entry : ν) :
    (insertNew key entry m).find? (fun x => p x.1) =
      (m.find? fun x => p x.1).or (if p key then some (key,entry) else none) := by
  induction m with
  | nil =>
    rw [insertNew,List.find?_cons]
    by_cases hkey : p key
    · simp [hkey]
    · simp [hkey]
  | cons y m ih =>
    obtain ⟨hy,hm⟩ := List.pairwise_cons.mp h
    unfold insertNew
    split
    case isTrue hlt =>
      rw [List.find?_cons]
      by_cases hkey : p key
      · have hnone : (y :: m).find? (fun x => p x.1) = none := by
          rw [List.find?_eq_none]
          intro x hx hpx
          have heq : x.1 = key := ((hp _).mp hpx).trans ((hp _).mp hkey).symm
          rcases List.mem_cons.mp hx with rfl | hx
          · exact absurd heq hlt.ne'
          · exact absurd heq (hlt.trans (hy x hx)).ne'
        simp [hkey,hnone]
      · simp [hkey]
    case isFalse hlt =>
      split
      case isTrue heq =>
        rw [List.find?_cons]
        by_cases hkey : p y.1
        · simp [hkey]
        · simp [hkey,heq]
      case isFalse hne =>
        rw [List.find?_cons,List.find?_cons,ih hm]
        by_cases hkey : p y.1
        · simp [hkey]
        · simp [hkey]

/-- What the first entries of a list leave. -/
def insertAll (items : List (κ × ν)) (m : List (κ × ν)) : List (κ × ν) :=
  items.foldl (fun m x => insertNew x.1 x.2 m) m

theorem Sorted.insertAll {m : List (κ × ν)} (h : Sorted m) (items : List (κ × ν)) :
    Sorted (insertAll items m) := by
  induction items generalizing m with
  | nil => exact h
  | cons x items ih => exact ih (h.insertNew x.1 x.2)

theorem find?_insertAll {p : κ → Bool} {k : κ} (hp : ∀ key, p key = true ↔ key = k)
    (items : List (κ × ν)) {m : List (κ × ν)} (h : Sorted m) :
    (insertAll items m).find? (fun x => p x.1) =
      (m.find? fun x => p x.1).or (items.find? fun x => p x.1) := by
  induction items generalizing m with
  | nil => simp [insertAll]
  | cons x items ih =>
    have hfind := ih (h.insertNew x.1 x.2)
    rw [find?_insertNew hp h,Option.or_assoc] at hfind
    rw [insertAll,List.foldl_cons,List.find?_cons]
    refine hfind.trans ?_
    by_cases hx : p x.1
    · simp [hx]
    · simp [hx]

theorem mem_insertAll {items m : List (κ × ν)} {x : κ × ν} (h : x ∈ insertAll items m) :
    x ∈ items ∨ x ∈ m := by
  induction items generalizing m with
  | nil => exact .inr h
  | cons y items ih =>
    rcases ih h with hx | hx
    · exact .inl (List.mem_cons_of_mem _ hx)
    · rcases mem_insertNew hx with rfl | hx
      · exact .inl (List.mem_cons_self ..)
      · exact .inr hx

/-- The first of the entries that pass is the one with the least key. -/
theorem Sorted.find? {m : List (κ × ν)} (h : Sorted m) {p : κ × ν → Bool} {x : κ × ν} (hx : x ∈ m)
    (hp : p x = true) (hleast : ∀ y ∈ m, p y = true → x.1 ≤ y.1) : m.find? p = some x := by
  induction m with
  | nil => cases hx
  | cons y m ih =>
    obtain ⟨hy,hm⟩ := List.pairwise_cons.mp h
    rw [List.find?_cons]
    rcases List.mem_cons.mp hx with rfl | hx
    · rw [hp]
    · have hnot : p y = false := by
        rw [Bool.eq_false_iff]
        intro hpy
        exact absurd (hleast y (List.mem_cons_self ..) hpy) (not_le.mpr (hy x hx))
      rw [hnot]
      exact ih hm hx fun z hz => hleast z (List.mem_cons_of_mem _ hz)

end Sorted

end MprMq.Lib
