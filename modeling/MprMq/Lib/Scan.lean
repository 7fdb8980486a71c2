import Mathlib.Order.Bounds.Basic
import Mathlib.Tactic.Common
set_option autoImplicit false

/-! Searches for the first or the last place that passes a test. -/

namespace MprMq.Lib
variable {ι : Type}

/-- The least member of a set, and `none` for the empty set. -/
def LeastOf [LE ι] (S : Set ι) : Option ι → Prop
  | some x => IsLeast S x
  | none => S = ∅

def GreatestOf [LE ι] (S : Set ι) : Option ι → Prop
  | some x => IsGreatest S x
  | none => S = ∅

theorem LeastOf.unique [PartialOrder ι] {S : Set ι} :
    {r s : Option ι} → LeastOf S r → LeastOf S s → r = s
  | none, none, _, _ => rfl
  | none, some _, hr, hs => absurd hr (IsLeast.nonempty hs).ne_empty
  | some _, none, hr, hs => absurd hs (IsLeast.nonempty hr).ne_empty
  | some _, some _, hr, hs => congrArg some (IsLeast.unique hr hs)

theorem GreatestOf.unique [PartialOrder ι] {S : Set ι} :
    {r s : Option ι} → GreatestOf S r → GreatestOf S s → r = s
  | none, none, _, _ => rfl
  | none, some _, hr, hs => absurd hr (IsGreatest.nonempty hs).ne_empty
  | some _, none, hr, hs => absurd hs (IsGreatest.nonempty hr).ne_empty
  | some _, some _, hr, hs => congrArg some (IsGreatest.unique hr hs)

theorem LeastOf.congr [LE ι] {S T : Set ι} {r : Option ι} (h : LeastOf S r)
    (hST : ∀ x, x ∈ S ↔ x ∈ T) : LeastOf T r := Set.ext hST ▸ h

theorem GreatestOf.congr [LE ι] {S T : Set ι} {r : Option ι} (h : GreatestOf S r)
    (hST : ∀ x, x ∈ S ↔ x ∈ T) : GreatestOf T r := Set.ext hST ▸ h

/-- A search that starts at `pos` counts from there. -/
theorem LeastOf.shift {S : Set Nat} {r : Option Nat} (pos : Nat)
    (h : LeastOf {i | pos+i ∈ S} r) :
    LeastOf {x | pos ≤ x ∧ x ∈ S} (r.map (fun i => pos+i)) := by
  have hmem (x : Nat) (hx : pos ≤ x ∧ x ∈ S) : x-pos ∈ {i | pos+i ∈ S} := by
    rw [Set.mem_ofPred_eq,Nat.add_sub_cancel' hx.1]
    exact hx.2
  cases r with
  | none =>
    refine Set.eq_empty_of_forall_notMem fun x hx => ?_
    have hempty : {i | pos+i ∈ S} = ∅ := h
    exact Set.notMem_empty _ (hempty ▸ hmem x hx)
  | some i =>
    refine ⟨⟨Nat.le_add_right pos i,h.1⟩,fun x hx => ?_⟩
    have hle : i ≤ x-pos := h.2 (hmem x hx)
    have := hx.1
    show pos+i ≤ x
    omega

def lowest (P : Nat → Prop) [DecidablePred P] (n : Nat) : Option Nat :=
  (List.range n).find? (fun x => P x)

def highest (P : Nat → Prop) [DecidablePred P] (n : Nat) : Option Nat :=
  (List.range n).reverse.find? (fun x => P x)

/-- `for (; i < n; ++i) if (p(i)) return i;` with `k` turns left. -/
def scanUp (p : Nat → Bool) : Nat → Nat → Option Nat
  | 0, _ => none
  | k+1, i => if p i then some i else scanUp p k (i+1)

/-- `for (; ; --i) { if (p(i)) return i; if (i == 0) break; }` -/
def scanDown (p : Nat → Bool) : Nat → Option Nat
  | 0 => if p 0 then some 0 else none
  | i+1 => if p (i+1) then some (i+1) else scanDown p i

section searches
variable (P : Nat → Prop) [DecidablePred P] (p : Nat → Bool)

theorem lowest_leastOf (n : Nat) : LeastOf {x | x < n ∧ P x} (lowest P n) := by
  cases h : lowest P n with
  | none =>
    have hnone := List.find?_eq_none.mp h
    ext x
    simp only [Set.mem_ofPred_eq,Set.mem_empty_iff_false,iff_false,not_and]
    exact fun hx => by simpa using hnone x (List.mem_range.mpr hx)
  | some x =>
    obtain ⟨hP,hx,hless⟩ := List.find?_range_eq_some.mp h
    refine ⟨⟨List.mem_range.mp hx,by simpa using hP⟩,fun y hy => ?_⟩
    by_contra hlt
    have hnot := hless y (by omega)
    simp only [hy.2,decide_true,Bool.not_true,Bool.false_eq_true] at hnot

theorem highest_succ (n : Nat) :
    highest P (n+1) = if P n then some n else highest P n := by
  unfold highest
  rw [List.range_succ,List.reverse_append,List.reverse_singleton,List.singleton_append,
    List.find?_cons]
  by_cases h : P n <;> simp [h]

theorem highest_greatestOf (n : Nat) : GreatestOf {x | x < n ∧ P x} (highest P n) := by
  induction n with
  | zero => simp [highest,GreatestOf]
  | succ n ih =>
    rw [highest_succ]
    split
    case isTrue h => exact ⟨⟨Nat.lt_succ_self n,h⟩,fun y hy => Nat.le_of_lt_succ hy.1⟩
    case isFalse h =>
      refine ih.congr fun x => and_congr_left fun hx => ?_
      have hne : x ≠ n := fun hxn => h (hxn ▸ hx)
      omega

theorem scanUp_leastOf (k i : Nat) :
    LeastOf {x | i ≤ x ∧ x < i+k ∧ p x = true} (scanUp p k i) := by
  induction k generalizing i with
  | zero =>
    ext x
    simp only [Set.mem_ofPred_eq,Set.mem_empty_iff_false,iff_false]
    omega
  | succ k ih =>
    unfold scanUp
    split
    case isTrue h => exact ⟨⟨Nat.le_refl i,by omega,h⟩,fun y hy => hy.1⟩
    case isFalse h =>
      refine (ih (i+1)).congr fun x => ?_
      have hne : p x = true → x ≠ i := fun hx hxi => h (hxi ▸ hx)
      simp only [Set.mem_ofPred_eq]
      exact ⟨fun hx => ⟨by omega,by omega,hx.2.2⟩,
        fun hx => ⟨by have := hne hx.2.2; omega,by omega,hx.2.2⟩⟩

theorem scanDown_greatestOf (i : Nat) :
    GreatestOf {x | x ≤ i ∧ p x = true} (scanDown p i) := by
  have hscan : scanDown p i = highest (fun x => p x = true) (i+1) := by
    induction i with
    | zero => simp [scanDown,highest]
    | succ i ih => rw [highest_succ,scanDown,ih]
  rw [hscan]
  exact (highest_greatestOf (fun x => p x = true) (i+1)).congr fun x =>
    and_congr_left fun _ => Nat.lt_succ_iff

end searches
end MprMq.Lib
