import Mathlib.Tactic.Common
set_option autoImplicit false

/-! Readers that move over something, and what they read of what lies ahead. -/

namespace MprMq.Lib
variable {σ ρ α β : Type}

/-- Where `r` lies ahead, the reader has the result `a`, and `r'` lies ahead after it. `Ahead r s`
says that `r` lies ahead of the state `s`. -/
def Reads (Ahead : ρ → σ → Prop) (m : StateM σ α) (r : ρ) (a : α) (r' : ρ) : Prop :=
  ∀ s, Ahead r s → (m s).1 = a ∧ Ahead r' (m s).2

namespace Reads
variable {Ahead : ρ → σ → Prop} {m : StateM σ α} {f : α → StateM σ β} {r r' r'' : ρ} {a : α} {b : β}

theorem pure (a : α) (r : ρ) : Reads Ahead (Pure.pure a : StateM σ α) r a r :=
  fun _ hs => ⟨rfl,hs⟩

theorem bind (hm : Reads Ahead m r a r') (hf : Reads Ahead (f a) r' b r'') :
    Reads Ahead (m >>= f) r b r'' := by
  intro s hs
  obtain ⟨rfl,ht⟩ := hm s hs
  exact hf _ ht

/-- A reader that may fail, and does not. -/
theorem optionBind {m : OptionT (StateM σ) α} {f : α → OptionT (StateM σ) β}
    (hm : Reads Ahead m.run r (some a) r') (hf : Reads Ahead (f a).run r' (some b) r'') :
    Reads Ahead (m >>= f).run r (some b) r'' := by
  rw [OptionT.run_bind]
  exact hm.bind hf

end Reads

/-- What a reader leads to, whatever it reads. -/
def Leads (I J : σ → Prop) (m : StateM σ α) : Prop := ∀ s, I s → J (m s).2

namespace Leads
variable {I J K : σ → Prop} {m : StateM σ α} {f : α → StateM σ β}

theorem pure (a : α) : Leads I I (Pure.pure a : StateM σ α) := fun _ hs => hs

theorem bind (hm : Leads I J m) (hf : ∀ a, Leads J K (f a)) : Leads I K (m >>= f) :=
  fun s hs => hf _ _ (hm s hs)

end Leads

end MprMq.Lib
