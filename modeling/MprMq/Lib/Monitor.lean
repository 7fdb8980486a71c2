import Mathlib.Data.List.Nodup
import Mathlib.Tactic.Common
set_option autoImplicit false

/-! The waiters of a condition variable. A list holds the threads that are parked and
that nothing has notified since; a thread that was notified, or that wakes for no
reason, goes on as soon as it gets the mutex again. -/

namespace MprMq.Lib

abbrev Waiters (τ : Type) := List τ

namespace Waiters
variable {τ : Type} [DecidableEq τ]

/-- A thread parks; one that woke up and parks again is there once. -/
def park (m : Waiters τ) (t : τ) : Waiters τ := if t ∈ m then m else t :: m

def leave (m : Waiters τ) (t : τ) : Waiters τ := m.erase t

/-- `pthread_cond_signal` takes out the thread that the label names; it names none
exactly when no one is parked. -/
def notify (m : Waiters τ) : Option τ → Option (Waiters τ)
  | none => if m = [] then some [] else none
  | some t => if t ∈ m then some (m.erase t) else none

def notifyEach (m : Waiters τ) : List (Option τ) → Option (Waiters τ)
  | [] => some m
  | t :: ts =>
    match m.notify t with
    | some m => notifyEach m ts
    | none => none

theorem mem_park {m : Waiters τ} {t u : τ} : u ∈ m.park t ↔ u = t ∨ u ∈ m := by
  unfold park
  split
  · constructor
    · exact Or.inr
    · rintro (rfl | h) <;> assumption
  · exact List.mem_cons

theorem nodup_park {m : Waiters τ} (h : m.Nodup) (t : τ) : (m.park t).Nodup := by
  unfold park
  split
  · exact h
  · exact List.nodup_cons.mpr ⟨‹_›,h⟩

theorem mem_leave {m : Waiters τ} (h : m.Nodup) {t u : τ} :
    u ∈ m.leave t ↔ u ≠ t ∧ u ∈ m := h.mem_erase_iff

theorem nodup_leave {m : Waiters τ} (h : m.Nodup) (t : τ) : (m.leave t).Nodup := h.erase t

theorem leave_of_notMem {m : Waiters τ} {t : τ} (h : t ∉ m) : m.leave t = m :=
  List.erase_of_not_mem h

/-- A signal finds no one, or takes out one thread that was parked. -/
theorem notify_cases {m m' : Waiters τ} {c : Option τ} (h : m.notify c = some m') :
    (c = none ∧ m = [] ∧ m' = []) ∨ (∃ t, c = some t ∧ t ∈ m ∧ m' = m.leave t) := by
  cases c with
  | none =>
    simp only [notify,Option.ite_none_right_eq_some,Option.some.injEq] at h
    exact .inl ⟨rfl,h.1,h.2.symm⟩
  | some t =>
    simp only [notify,Option.ite_none_right_eq_some,Option.some.injEq] at h
    exact .inr ⟨t,rfl,h.1,h.2.symm⟩

theorem notify_subset {m m' : Waiters τ} {c : Option τ} (h : m.notify c = some m') :
    ∀ u ∈ m', u ∈ m := by
  obtain ⟨-,rfl,rfl⟩ | ⟨t,-,-,rfl⟩ := notify_cases h
  · exact fun _ hu => hu
  · exact fun _ hu => List.mem_of_mem_erase hu

theorem nodup_notify {m m' : Waiters τ} {c : Option τ} (h : m.notify c = some m')
    (hn : m.Nodup) : m'.Nodup := by
  obtain ⟨-,rfl,rfl⟩ | ⟨t,-,-,rfl⟩ := notify_cases h
  · exact hn
  · exact hn.erase t

/-- A signal wakes someone when anyone is parked. -/
theorem notify_wakes {m m' : Waiters τ} {c : Option τ} (h : m.notify c = some m')
    (hn : m.Nodup) (hm : m ≠ []) : ∃ t ∈ m, t ∉ m' := by
  obtain ⟨-,rfl,-⟩ | ⟨t,-,ht,rfl⟩ := notify_cases h
  · exact absurd rfl hm
  · exact ⟨t,ht,fun h => ((mem_leave hn).mp h).1 rfl⟩

theorem notifyEach_subset {m m' : Waiters τ} {cs : List (Option τ)}
    (h : m.notifyEach cs = some m') : ∀ u ∈ m', u ∈ m := by
  induction cs generalizing m with
  | nil =>
    simp only [notifyEach,Option.some.injEq] at h
    subst h
    exact fun _ hu => hu
  | cons c cs ih =>
    simp only [notifyEach] at h
    cases hc : m.notify c with
    | none => simp [hc] at h
    | some k =>
      rw [hc] at h
      exact fun u hu => notify_subset hc u (ih h u hu)

/-- As many signals as there are waiters, or more, leave no one parked. -/
theorem notifyEach_nil {m m' : Waiters τ} {cs : List (Option τ)}
    (h : m.notifyEach cs = some m') (hlen : m.length ≤ cs.length) : m' = [] := by
  induction cs generalizing m with
  | nil =>
    simp only [notifyEach,Option.some.injEq] at h
    subst h
    exact List.length_eq_zero_iff.mp (Nat.le_zero.mp hlen)
  | cons c cs ih =>
    simp only [notifyEach] at h
    cases hc : m.notify c with
    | none => simp [hc] at h
    | some k =>
      rw [hc] at h
      apply ih h
      simp only [List.length_cons] at hlen
      obtain ⟨-,-,rfl⟩ | ⟨t,-,ht,rfl⟩ := notify_cases hc
      · exact Nat.zero_le _
      · have := List.length_erase_of_mem ht
        simp only [leave]
        omega

end Waiters
end MprMq.Lib
