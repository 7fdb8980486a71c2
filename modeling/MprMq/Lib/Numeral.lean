import Mathlib.Algebra.Order.Group.Nat
import Mathlib.Data.List.TakeWhile
import Mathlib.Data.Nat.Digits.Defs
import Mathlib.Tactic.Ring
set_option autoImplicit false

/-! Digits read from the left, a guarded multiplication, and a list without the elements at its
ends that a test accepts. -/

namespace MprMq.Lib

/-- What a value becomes when digits are read behind it, the most significant first. -/
def horner (base value : Nat) (digits : List Nat) : Nat :=
  digits.foldl (fun v d => v*base+d) value

theorem horner_nil (base value : Nat) : horner base value [] = value := rfl

theorem horner_cons (base value d : Nat) (digits : List Nat) :
    horner base value (d :: digits) = horner base (value*base+d) digits := rfl

theorem horner_eq (base value : Nat) (digits : List Nat) :
    horner base value digits = value*base^digits.length + Nat.ofDigits base digits.reverse := by
  induction digits generalizing value with
  | nil => simp [horner_nil]
  | cons d digits ih =>
    rw [horner_cons,ih,List.reverse_cons,Nat.ofDigits_append,Nat.ofDigits_singleton]
    simp only [List.length_cons,List.length_reverse]
    ring

theorem horner_zero (base : Nat) (digits : List Nat) :
    horner base 0 digits = Nat.ofDigits base digits.reverse := by
  rw [horner_eq,Nat.zero_mul,Nat.zero_add]

theorem le_horner {base : Nat} (hbase : 0 < base) (value : Nat) (digits : List Nat) :
    value ≤ horner base value digits := by
  rw [horner_eq]
  have hpow : value*1 ≤ value*base^digits.length :=
    Nat.mul_le_mul_left value (Nat.pow_pos hbase)
  omega

/-- The two comparisons that keep `value*base+digit` in range without computing it. -/
theorem mul_add_le_iff {base : Int} (value digit limit : Int) (hbase : 0 < base)
    (hdigit : 0 ≤ digit) :
    value*base+digit ≤ limit ↔ value ≤ limit/base ∧ value*base ≤ limit-digit := by
  rw [Int.le_ediv_iff_mul_le hbase]
  omega

section trim
variable {α : Type} {p : α → Bool}

def trim (p : α → Bool) (l : List α) : List α :=
  ((l.dropWhile p).reverse.dropWhile p).reverse

theorem trim_spec (p : α → Bool) (l : List α) : ∃ left right,
    l = left ++ trim p l ++ right ∧ (∀ x ∈ left, p x = true) ∧ ∀ x ∈ right, p x = true := by
  refine ⟨l.takeWhile p,((l.dropWhile p).reverse.takeWhile p).reverse,?_,?_,?_⟩
  · rw [trim,List.append_assoc,← List.reverse_append,List.takeWhile_append_dropWhile,
      List.reverse_reverse,List.takeWhile_append_dropWhile]
  · intro x hx
    exact List.mem_takeWhile_imp hx
  · intro x hx
    exact List.mem_takeWhile_imp (List.mem_reverse.mp hx)

theorem dropWhile_append_of_all {left rest : List α} (hleft : ∀ x ∈ left, p x = true) :
    (left ++ rest).dropWhile p = rest.dropWhile p := by
  induction left with
  | nil => rfl
  | cons x left ih =>
    rw [List.cons_append,List.dropWhile_cons_of_pos (hleft x List.mem_cons_self)]
    exact ih (fun y hy => hleft y (List.mem_cons_of_mem x hy))

theorem dropWhile_eq_self {l : List α} (h : ∀ x ∈ l.head?, p x = false) : l.dropWhile p = l := by
  cases l with
  | nil => rfl
  | cons x l => exact List.dropWhile_cons_of_neg (by simp [h x rfl])

theorem trim_append {left body right : List α} (hleft : ∀ x ∈ left, p x = true)
    (hright : ∀ x ∈ right, p x = true) (hne : body ≠ []) (hhead : ∀ x ∈ body.head?, p x = false)
    (hlast : ∀ x ∈ body.getLast?, p x = false) : trim p (left ++ body ++ right) = body := by
  have hfirst : (body ++ right).dropWhile p = body ++ right := by
    obtain ⟨x,body,rfl⟩ := List.exists_cons_of_ne_nil hne
    exact dropWhile_eq_self hhead
  have hback : (body ++ right).reverse.dropWhile p = body.reverse := by
    rw [List.reverse_append,dropWhile_append_of_all (by simpa using hright)]
    exact dropWhile_eq_self (by rwa [List.head?_reverse])
  rw [trim,List.append_assoc,dropWhile_append_of_all hleft,hfirst,hback,List.reverse_reverse]

end trim

end MprMq.Lib
