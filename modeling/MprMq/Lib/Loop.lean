import Mathlib.Tactic.Common
set_option autoImplicit false

/-! Loops with fuel. An invariant and a measure give the result of a loop, and that more fuel
does not change it. -/

namespace MprMq.Lib

/-- What one turn of a loop comes to. -/
inductive Turn (σ ρ : Type) where
  | next (state : σ)
  | done (result : ρ)
  deriving DecidableEq, Repr

variable {σ ρ : Type}

def Turn.Meets (I : σ → Prop) (Q : ρ → Prop) : Turn σ ρ → Prop
  | .next state => I state
  | .done result => Q result

/-- `none` when the fuel does not do or a turn fails. -/
def runLoop (turn : σ → Option (Turn σ ρ)) : Nat → σ → Option ρ
  | 0, _ => none
  | fuel+1, state =>
    match turn state with
    | none => none
    | some (.next state) => runLoop turn fuel state
    | some (.done result) => some result

theorem runLoop_next {turn : σ → Option (Turn σ ρ)} {s t : σ} (h : turn s = some (.next t))
    (fuel : Nat) : runLoop turn (fuel+1) s = runLoop turn fuel t := by
  rw [runLoop,h]

theorem runLoop_done {turn : σ → Option (Turn σ ρ)} {s : σ} {r : ρ}
    (h : turn s = some (.done r)) (fuel : Nat) : runLoop turn (fuel+1) s = some r := by
  rw [runLoop,h]

/-- The invariant says how many turns are left at most; the turns may have loops in them, which
take some fuel of their own. -/
theorem runLoop_ghost (turn : Nat → σ → Option (Turn σ ρ)) {I : Nat → σ → Prop} {Q : ρ → Prop}
    (inner : Nat)
    (h : ∀ n s, I n s → ∃ o : Turn σ ρ, (∀ fuel, inner ≤ fuel → turn fuel s = some o) ∧
      o.Meets (fun t => ∃ m < n, I m t) Q) {n : Nat} {s : σ} (hs : I n s) :
    ∃ r, Q r ∧ ∀ fuel turns, inner ≤ fuel → n < turns →
      runLoop (turn fuel) turns s = some r := by
  induction n using Nat.strongRecOn generalizing s with
  | _ n ih =>
    obtain ⟨o,hturn,hmeets⟩ := h n s hs
    cases o with
    | done r =>
      refine ⟨r,hmeets,fun fuel turns hfuel hturns => ?_⟩
      obtain ⟨turns,rfl⟩ := Nat.exists_eq_add_of_lt hturns
      exact runLoop_done (hturn fuel hfuel) _
    | next t =>
      obtain ⟨m,hlt,ht⟩ := hmeets
      obtain ⟨r,hr,hruns⟩ := ih m hlt ht
      refine ⟨r,hr,fun fuel turns hfuel hturns => ?_⟩
      obtain ⟨more,rfl⟩ := Nat.exists_eq_add_of_lt hturns
      rw [runLoop_next (hturn fuel hfuel)]
      exact hruns fuel _ hfuel (by omega)

theorem Turn.Meets.imp {I J : σ → Prop} {Q : ρ → Prop} {o : Turn σ ρ} (h : o.Meets I Q)
    (himp : ∀ s, I s → J s) : o.Meets J Q := by
  cases o with
  | next s => exact himp s h
  | done r => exact h

/-- The rule for a measure of the state. -/
theorem runLoop_rule (turn : Nat → σ → Option (Turn σ ρ)) {I : σ → Prop} {Q : ρ → Prop}
    (inner : Nat) (measure : σ → Nat)
    (h : ∀ s, I s → ∃ o : Turn σ ρ, (∀ fuel, inner ≤ fuel → turn fuel s = some o) ∧
      o.Meets (fun t => I t ∧ measure t < measure s) Q) {s : σ} (hs : I s) :
    ∃ r, Q r ∧ ∀ fuel turns, inner ≤ fuel → measure s < turns →
      runLoop (turn fuel) turns s = some r := by
  have hghost : ∀ n s, I s ∧ measure s = n →
      ∃ o : Turn σ ρ, (∀ fuel, inner ≤ fuel → turn fuel s = some o) ∧
        o.Meets (fun t => ∃ m < n, I t ∧ measure t = m) Q := by
    rintro n s ⟨hs,rfl⟩
    obtain ⟨o,hturn,hmeets⟩ := h s hs
    exact ⟨o,hturn,hmeets.imp fun t ht => ⟨measure t,ht.2,ht.1,rfl⟩⟩
  exact runLoop_ghost turn inner hghost ⟨hs,rfl⟩

/-- The rule for turns that have no loops in them. -/
theorem runLoop_simple (turn : σ → Option (Turn σ ρ)) {I : σ → Prop} {Q : ρ → Prop}
    (measure : σ → Nat)
    (h : ∀ s, I s → ∃ o, turn s = some o ∧
      o.Meets (fun t => I t ∧ measure t < measure s) Q) {s : σ} (hs : I s) :
    ∃ r, Q r ∧ ∀ turns, measure s < turns → runLoop turn turns s = some r := by
  have hturn : ∀ s, I s → ∃ o : Turn σ ρ, (∀ fuel, 0 ≤ fuel → turn s = some o) ∧
      o.Meets (fun t => I t ∧ measure t < measure s) Q := by
    intro s hs
    obtain ⟨o,hturn,hmeets⟩ := h s hs
    exact ⟨o,fun _ _ => hturn,hmeets⟩
  obtain ⟨r,hr,hruns⟩ := runLoop_rule (fun _ => turn) 0 measure hturn hs
  exact ⟨r,hr,fun turns hturns => hruns 0 turns (Nat.le_refl 0) hturns⟩

/-- The rule for a loop that is only known to have ended. -/
theorem runLoop_partial {turn : σ → Option (Turn σ ρ)} {I : σ → Prop} {Q : ρ → Prop}
    (h : ∀ s o, I s → turn s = some o → o.Meets I Q) {fuel : Nat} {s : σ} {r : ρ} (hs : I s)
    (hr : runLoop turn fuel s = some r) : Q r := by
  induction fuel generalizing s with
  | zero => cases hr
  | succ fuel ih =>
    rw [runLoop] at hr
    rcases hturn : turn s with _ | _ | _
    · rw [hturn] at hr
      cases hr
    case some.next t =>
      rw [hturn] at hr
      exact ih (h s _ hs hturn) hr
    case some.done result =>
      rw [hturn] at hr
      exact Option.some.inj hr ▸ h s _ hs hturn

end MprMq.Lib
