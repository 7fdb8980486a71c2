import Mathlib.Data.List.Nodup
import Mathlib.Logic.Function.Basic
import Mathlib.Tactic.Common
set_option autoImplicit false

/-! How many of a list of threads are at a place of their program. -/

namespace MprMq.Lib

theorem update_cases {τ φ : Type} [DecidableEq τ] {phase : τ → φ} {t u : τ} {x y : φ}
    (h : Function.update phase t x u = y) : (u = t ∧ x = y) ∨ (u ≠ t ∧ phase u = y) := by
  by_cases he : u = t
  · subst he
    exact .inl ⟨rfl,by simpa using h⟩
  · exact .inr ⟨he,by simpa [Function.update_of_ne he] using h⟩

/-- A move from outside `q` to outside `q` changes nothing inside. -/
theorem update_outside {τ φ : Type} [DecidableEq τ] {phase : τ → φ} {q : φ → Bool} {t : τ}
    {x : φ} (hold : q (phase t) = false) (hnew : q x = false) (u : τ) {y : φ}
    (hy : q y = true) : Function.update phase t x u = y ↔ phase u = y := by
  by_cases he : u = t
  · subst he
    rw [Function.update_self]
    exact iff_of_false (fun h => by rw [h,hy] at hnew; cases hnew)
      (fun h => by rw [h,hy] at hold; cases hold)
  · rw [Function.update_of_ne he]

/-- How many of `ids` are in a phase that `p` accepts. -/
def population {τ φ : Type} (phase : τ → φ) (p : φ → Bool) (ids : List τ) : Nat :=
  ids.countP (fun t => p (phase t))

theorem population_nil {τ φ : Type} (phase : τ → φ) (p : φ → Bool) :
    population phase p [] = 0 := rfl

theorem population_cons {τ φ : Type} (phase : τ → φ) (p : φ → Bool) (t : τ) (ids : List τ) :
    population phase p (t :: ids) = population phase p ids + (p (phase t)).toNat := by
  unfold population
  rw [List.countP_cons]
  cases p (phase t) <;> rfl

theorem population_append {τ φ : Type} (phase : τ → φ) (p : φ → Bool) (ids ids' : List τ) :
    population phase p (ids ++ ids') = population phase p ids + population phase p ids' :=
  List.countP_append

theorem population_congr {τ φ : Type} {phase phase' : τ → φ} {p q : φ → Bool} {ids : List τ}
    (h : ∀ t ∈ ids, p (phase t) = q (phase' t)) :
    population phase p ids = population phase' q ids := by
  induction ids with
  | nil => rfl
  | cons t ids ih =>
    rw [population_cons,population_cons,h t (by simp),
      ih (fun u hu => h u (List.mem_cons_of_mem t hu))]

/-- A thread that is not listed does not count. -/
theorem population_update_of_notMem {τ φ : Type} [DecidableEq τ] {phase : τ → φ} {p : φ → Bool}
    {ids : List τ} {t : τ} (x : φ) (h : t ∉ ids) :
    population (Function.update phase t x) p ids = population phase p ids := by
  apply population_congr
  intro u hu
  have hne : u ≠ t := fun e => h (e ▸ hu)
  rw [Function.update_of_ne hne]

/-- One thread moves, the others stay. -/
theorem population_update {τ φ : Type} [DecidableEq τ] {ids : List τ} {t : τ}
    (phase : τ → φ) (p : φ → Bool) (x : φ) (hn : ids.Nodup) (h : t ∈ ids) :
    population (Function.update phase t x) p ids + (p (phase t)).toNat =
      population phase p ids + (p x).toNat := by
  induction ids with
  | nil => cases h
  | cons u ids ih =>
    obtain ⟨hu,hn⟩ := List.nodup_cons.mp hn
    rw [population_cons,population_cons]
    by_cases he : u = t
    · subst he
      rw [population_update_of_notMem x hu,Function.update_self]
      omega
    · have hmem : t ∈ ids := (List.mem_cons.mp h).resolve_left (fun e => he e.symm)
      have := ih hn hmem
      rw [Function.update_of_ne he]
      omega

/-- One thread leaves the list. -/
theorem population_erase {τ φ : Type} [DecidableEq τ] {ids : List τ} {t : τ} (phase : τ → φ)
    (p : φ → Bool) (h : t ∈ ids) :
    population phase p (ids.erase t) + (p (phase t)).toNat = population phase p ids := by
  rw [← population_cons]
  exact (List.perm_cons_erase h).symm.countP_eq _

theorem population_pos {τ φ : Type} {phase : τ → φ} {p : φ → Bool} {ids : List τ} :
    0 < population phase p ids ↔ ∃ t ∈ ids, p (phase t) = true := by
  simp [population]

theorem population_eq_zero {τ φ : Type} {phase : τ → φ} {p : φ → Bool} {ids : List τ} :
    population phase p ids = 0 ↔ ∀ t ∈ ids, p (phase t) = false := by
  simp [population]

theorem population_le_length {τ φ : Type} (phase : τ → φ) (p : φ → Bool) (ids : List τ) :
    population phase p ids ≤ ids.length := List.countP_le_length

theorem population_eq_length {τ φ : Type} {phase : τ → φ} {p : φ → Bool} {ids : List τ} :
    population phase p ids = ids.length ↔ ∀ t ∈ ids, p (phase t) = true :=
  List.countP_eq_length

/-- Those in `p` are in `q` or not. -/
theorem population_split {τ φ : Type} (phase : τ → φ) (p q : φ → Bool) (ids : List τ) :
    population phase p ids = population phase (fun x => p x && q x) ids +
      population phase (fun x => p x && !q x) ids := by
  induction ids with
  | nil => rfl
  | cons t ids ih =>
    simp only [population_cons,ih]
    cases p (phase t) <;> cases q (phase t) <;> simp <;> omega

theorem population_mono {τ φ : Type} {phase : τ → φ} {p q : φ → Bool} (ids : List τ)
    (h : ∀ x, p x = true → q x = true) : population phase p ids ≤ population phase q ids :=
  List.countP_mono_left (fun t _ => h (phase t))

end MprMq.Lib
