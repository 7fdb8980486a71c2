import Mathlib.Tactic.Common
set_option autoImplicit false

/-! Accesses that a check may refuse, or that may leave the memory they are meant for. -/

namespace MprMq.Lib
variable {α β : Type}

inductive Fault where
  | check
  | outside
  | overflow
  deriving DecidableEq

abbrev Access := Except Fault

def check (P : Prop) [Decidable P] : Access Unit := if P then .ok () else .error .check

def index (l : List α) (i : Int) : Access α :=
  if i < 0 then .error .outside
  else match l[i.toNat]? with
    | some v => .ok v
    | none => .error .outside

def Passes (a : Access α) : Prop := a ≠ .error .check

def Inside (a : Access α) : Prop := a ≠ .error .outside

theorem check_bind (P : Prop) [Decidable P] (f : Unit → Access α) :
    (check P >>= f) = if P then f () else .error .check := by
  unfold check
  split <;> rfl

theorem index_ok {l : List α} {i : Int} (hlow : 0 ≤ i) (hhigh : i < l.length) :
    ∃ v, index l i = .ok v ∧ l[i.toNat]? = some v := by
  have hi : i.toNat < l.length := by omega
  refine ⟨l[i.toNat],?_,List.getElem?_eq_getElem hi⟩
  rw [index,if_neg (by omega),List.getElem?_eq_getElem hi]

def guarded (P : Prop) [Decidable P] (l : List α) (i : Int) (f : α → Access β) : Access β := do
  check P
  f (← index l i)

theorem index_outside {l : List α} {i : Int} (h : i < 0 ∨ l.length ≤ i) :
    index l i = .error .outside := by
  unfold index
  split
  · rfl
  · rw [List.getElem?_eq_none (by omega)]

theorem ok_passes (v : α) : Passes (.ok v) := by simp [Passes]

theorem ok_inside (v : α) : Inside (.ok v) := by simp [Inside]

theorem check_not_passes : ¬ Passes (.error .check : Access α) := fun h => h rfl

theorem check_inside : Inside (.error .check : Access α) := by simp [Inside]

theorem guarded_bind (P : Prop) [Decidable P] (l : List α) (i : Int) (f : α → Access β) :
    (guarded P l i .ok >>= f) = guarded P l i f := by
  rw [guarded,guarded,check_bind,check_bind]
  split
  · cases index l i <;> rfl
  · rfl

/-- A check that keeps the index in the array is what lets a read through. -/
theorem guarded_passes {P : Prop} [Decidable P] {l : List α} {i : Int} {f : α → Access β}
    (h : P → 0 ≤ i ∧ i < l.length) (hf : ∀ v, Passes (f v) ∧ Inside (f v)) :
    (Passes (guarded P l i f) ↔ P) ∧ Inside (guarded P l i f) := by
  rw [guarded,check_bind]
  split
  · rename_i hP
    obtain ⟨v,hv,-⟩ := index_ok (h hP).1 (h hP).2
    rw [hv]
    exact ⟨iff_of_true (hf v).1 hP,(hf v).2⟩
  · exact ⟨iff_of_false check_not_passes ‹_›,check_inside⟩

end MprMq.Lib
