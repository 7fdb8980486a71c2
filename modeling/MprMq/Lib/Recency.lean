import Mathlib.Data.List.Basic
set_option autoImplicit false

/-! Bounded recency lists: a key-value list kept most recently inserted first,
which makes room by dropping its last element. This is the abstract side of
every least-recently-inserted cache. -/

namespace MprMq.Lib.Recency

inductive Op (κ ν : Type) where
  | insert : κ → ν → Op κ ν
  | fetch : κ → Op κ ν
  | clear : Op κ ν
  deriving DecidableEq, Repr

def keys {κ ν : Type} (l : List (κ × ν)) : List κ := l.map Prod.fst

def erase {κ ν : Type} [DecidableEq κ] (k : κ) (l : List (κ × ν)) : List (κ × ν) :=
  l.filter (fun e => e.1 ≠ k)

def value {κ ν : Type} [DecidableEq κ] (k : κ) (l : List (κ × ν)) : Option ν :=
  (l.find? (fun e => e.1 = k)).map Prod.snd

/-- Insert and report the values let go: the one replaced, or the one evicted. -/
def insert {κ ν : Type} [DecidableEq κ] (cap : Nat) (k : κ) (v : ν) (l : List (κ × ν)) :
    List (κ × ν) × List ν :=
  if k ∈ keys l then ((k,v) :: erase k l,(value k l).toList)
  else if cap ≤ l.length then ((k,v) :: l.dropLast,(l.getLast?.map Prod.snd).toList)
  else ((k,v) :: l,[])

/-- One operation: the new list, with what an insertion lets go or a fetch returns. -/
def step {κ ν : Type} [DecidableEq κ] (cap : Nat) (l : List (κ × ν)) :
    Op κ ν → List (κ × ν) × List ν
  | .insert k v => insert cap k v l
  | .fetch k => (erase k l,(value k l).toList)
  | .clear => ([],[])

def exec {κ ν : Type} [DecidableEq κ] (cap : Nat) :
    List (κ × ν) → List (Op κ ν) → List (κ × ν) × List (List ν)
  | l, [] => (l,[])
  | l, op :: ops =>
    let (l,out) := step cap l op
    let (l,outs) := exec cap l ops
    (l,out :: outs)

/-- The list without a bound: every key inserted and not fetched or cleared
since, with the value it was last inserted with, most recent insertion first. -/
def recent {κ ν : Type} [DecidableEq κ] : List (κ × ν) → List (Op κ ν) → List (κ × ν)
  | l, [] => l
  | l, .insert k v :: ops => recent ((k,v) :: erase k l) ops
  | l, .fetch k :: ops => recent (erase k l) ops
  | _, .clear :: ops => recent [] ops

theorem erase_of_not_mem {κ ν : Type} [DecidableEq κ] {k : κ} {l : List (κ × ν)}
    (h : k ∉ keys l) : erase k l = l := by
  apply List.filter_eq_self.mpr
  intro e he
  have hne : e.1 ≠ k := fun hk => h (hk ▸ List.mem_map_of_mem he)
  simpa using hne

theorem erase_append {κ ν : Type} [DecidableEq κ] (k : κ) (l m : List (κ × ν)) :
    erase k (l ++ m) = erase k l ++ erase k m := by simp [erase]

theorem prefix_erase {κ ν : Type} [DecidableEq κ] (k : κ) {l m : List (κ × ν)}
    (h : l <+: m) : erase k l <+: erase k m := by
  obtain ⟨t,rfl⟩ := h
  exact ⟨erase k t,(erase_append k l t).symm⟩

theorem value_of_not_mem {κ ν : Type} [DecidableEq κ] {k : κ} {l : List (κ × ν)}
    (h : k ∉ keys l) : value k l = none := by
  simp only [value,Option.map_eq_none_iff,List.find?_eq_none]
  intro e he
  have hne : e.1 ≠ k := fun hk => h (hk ▸ List.mem_map_of_mem he)
  simpa using hne

theorem erase_length_lt {κ ν : Type} [DecidableEq κ] {k : κ} {l : List (κ × ν)}
    (h : k ∈ keys l) : (erase k l).length < l.length := by
  obtain ⟨e,he,rfl⟩ := List.mem_map.mp h
  apply List.length_filter_lt_length_iff_exists.mpr
  exact ⟨e,he,by simp⟩

theorem step_length_le {κ ν : Type} [DecidableEq κ] {cap : Nat} (hcap : 1 ≤ cap)
    {l : List (κ × ν)} (hl : l.length ≤ cap) (op : Op κ ν) :
    (step cap l op).1.length ≤ cap := by
  cases op with
  | insert k v =>
    by_cases hk : k ∈ keys l
    · have h := erase_length_lt hk
      simp only [step,insert,hk,if_true,List.length_cons]
      omega
    · by_cases hc : cap ≤ l.length
      · simp [step,insert,hk,hc]
        omega
      · simp [step,insert,hk,hc]
        omega
  | fetch k => exact Nat.le_trans (List.length_filter_le _ _) hl
  | clear => simp [step]

theorem exec_length_le {κ ν : Type} [DecidableEq κ] {cap : Nat} (hcap : 1 ≤ cap)
    (ops : List (Op κ ν)) {l : List (κ × ν)} (hl : l.length ≤ cap) :
    (exec cap l ops).1.length ≤ cap := by
  induction ops generalizing l with
  | nil => exact hl
  | cons op ops ih => exact ih (step_length_le hcap hl op)

/-- What a bounded list holds is always a beginning of the unbounded one: an
insertion evicts the least recently inserted key and no other. -/
theorem exec_prefix_recent {κ ν : Type} [DecidableEq κ] (cap : Nat) (ops : List (Op κ ν))
    {l m : List (κ × ν)} (h : l <+: m) : (exec cap l ops).1 <+: recent m ops := by
  induction ops generalizing l m with
  | nil => exact h
  | cons op ops ih =>
    cases op with
    | clear => exact ih List.prefix_rfl
    | fetch k => exact ih (prefix_erase k h)
    | insert k v =>
      have hstep : (insert cap k v l).1 <+: (k,v) :: erase k m := by
        have he := prefix_erase k h
        by_cases hk : k ∈ keys l
        · simpa [insert,hk,List.cons_prefix_cons] using he
        · rw [erase_of_not_mem hk] at he
          by_cases hc : cap ≤ l.length
          · simpa [insert,hk,hc,List.cons_prefix_cons] using
              (List.dropLast_prefix l).trans he
          · simpa [insert,hk,hc,List.cons_prefix_cons] using he
      exact ih hstep

/-- As long as no more than `cap` keys wait at any time, the bound never shows. -/
theorem exec_eq_recent {κ ν : Type} [DecidableEq κ] {cap : Nat} (ops : List (Op κ ν))
    {l : List (κ × ν)} (h : ∀ p, p <+: ops → (recent l p).length ≤ cap) :
    (exec cap l ops).1 = recent l ops := by
  induction ops generalizing l with
  | nil => rfl
  | cons op ops ih =>
    have htail : ∀ m, (∀ p, recent l (op :: p) = recent m p) → (exec cap m ops).1 =
        recent m ops := by
      intro m hm
      refine ih (fun p hp => ?_)
      rw [← hm p]
      exact h (op :: p) (List.cons_prefix_cons.mpr ⟨rfl,hp⟩)
    cases op with
    | clear => exact htail [] (fun p => rfl)
    | fetch k => exact htail (erase k l) (fun p => rfl)
    | insert k v =>
      have hone := h [.insert k v] (List.cons_prefix_cons.mpr ⟨rfl,List.nil_prefix⟩)
      have hstep : (insert cap k v l).1 = (k,v) :: erase k l := by
        by_cases hk : k ∈ keys l
        · simp [insert,hk]
        · simp only [recent,erase_of_not_mem hk,List.length_cons] at hone
          have hc : ¬ cap ≤ l.length := by omega
          simp [insert,hk,hc,erase_of_not_mem hk]
      change (exec cap (insert cap k v l).1 ops).1 = recent ((k,v) :: erase k l) ops
      rw [hstep]
      exact htail ((k,v) :: erase k l) (fun p => rfl)

/-- Capacities one and `cap ≥ 2` agree after every beginning of the operations
only when no two keys ever wait together. -/
theorem waiting_le_one_of_exec_eq {κ ν : Type} [DecidableEq κ] {cap : Nat} (hcap : 2 ≤ cap)
    (ops : List (Op κ ν)) {l : List (κ × ν)} (hl : l.length ≤ 1)
    (h : ∀ p, p <+: ops → (exec 1 l p).1 = (exec cap l p).1) :
    ∀ p, p <+: ops → (recent l p).length ≤ 1 := by
  induction ops generalizing l with
  | nil =>
    intro p hp
    rw [List.prefix_nil.mp hp]
    exact hl
  | cons op ops ih =>
    have hone : (step 1 l op).1 = (step cap l op).1 :=
      h [op] (List.cons_prefix_cons.mpr ⟨rfl,List.nil_prefix⟩)
    have hlen : (step cap l op).1.length ≤ 1 := hone ▸ step_length_le (Nat.le_refl 1) hl op
    have hrec : recent l [op] = (step cap l op).1 := by
      cases op with
      | clear => rfl
      | fetch k => rfl
      | insert k v =>
        by_cases hk : k ∈ keys l
        · simp [step,recent,insert,hk]
        · have hc : ¬ cap ≤ l.length := by omega
          simp [step,recent,insert,hk,hc,erase_of_not_mem hk]
    have htail : ∀ p, p <+: ops →
        (exec 1 (step cap l op).1 p).1 = (exec cap (step cap l op).1 p).1 := by
      intro p hp
      have hp' := h (op :: p) (List.cons_prefix_cons.mpr ⟨rfl,hp⟩)
      simpa [exec,hone] using hp'
    intro p hp
    cases p with
    | nil => exact hl
    | cons o p =>
      obtain ⟨rfl,htl⟩ := List.cons_prefix_cons.mp hp
      have hstep : recent l (o :: p) = recent (recent l [o]) p := by
        cases o <;> rfl
      rw [hstep,hrec]
      exact ih hlen htail p htl

end MprMq.Lib.Recency
