import Mathlib.Tactic.Common
set_option autoImplicit false

/-! Codes that tell where a value ends, whatever follows. -/

namespace MprMq.Lib
variable {α β : Type}

/-- Decode from the front until nothing is left; a step gives how much it has used, and the
value. `none` when a step fails or the fuel does not do. -/
def decodeAll (decode : List β → Option (Nat × α)) : Nat → List β → Option (List α)
  | _, [] => some []
  | 0, _ :: _ => none
  | fuel+1, b :: source => do
    let (n,value) ← decode (b :: source)
    let values ← decodeAll decode fuel ((b :: source).drop n)
    return value :: values

structure SelfDelimiting (valid : α → Prop) (encode : α → List β)
    (decode : List β → Option (Nat × α)) : Prop where
  nonempty : ∀ a, valid a → encode a ≠ []
  decodes : ∀ a, valid a → ∀ rest, decode (encode a ++ rest) = some ((encode a).length,a)

variable {valid : α → Prop} {encode : α → List β} {decode : List β → Option (Nat × α)}

theorem SelfDelimiting.decodeAll_flatMap (h : SelfDelimiting valid encode decode)
    {values : List α} (hvalid : ∀ a ∈ values, valid a) {fuel : Nat}
    (hfuel : values.length ≤ fuel) :
    decodeAll decode fuel (values.flatMap encode) = some values := by
  induction values generalizing fuel with
  | nil => cases fuel <;> rfl
  | cons a values ih =>
    obtain ⟨ha,hrest⟩ := List.forall_mem_cons.mp hvalid
    obtain ⟨fuel,rfl⟩ := Nat.exists_eq_add_of_lt hfuel
    obtain ⟨b,more,hencode⟩ := List.exists_cons_of_ne_nil (h.nonempty a ha)
    have hstep := h.decodes a ha (values.flatMap encode)
    have hdrop : (encode a ++ values.flatMap encode).drop (encode a).length =
        values.flatMap encode := List.drop_left
    rw [List.flatMap_cons]
    rw [hencode,List.cons_append] at hstep hdrop ⊢
    rw [decodeAll,hstep]
    simp only [Option.bind_eq_bind,Option.bind_some,hdrop]
    rw [ih hrest (by simp only [List.length_cons] at *; omega)]
    rfl

end MprMq.Lib
