import Mathlib.Algebra.Order.Group.Nat
import Mathlib.Tactic.Ring
set_option autoImplicit false

/-! Numbers as bytes, the least significant first. -/

namespace MprMq.Lib

def leBytes : Nat → Nat → List UInt8
  | 0, _ => []
  | n+1, v => UInt8.ofNat v :: leBytes n (v/256)

def leValue : List UInt8 → Nat
  | [] => 0
  | b :: bytes => b.toNat+256*leValue bytes

@[simp] theorem length_leBytes (n v : Nat) : (leBytes n v).length = n := by
  induction n generalizing v with
  | zero => rfl
  | succ n ih => rw [leBytes,List.length_cons,ih]

theorem leValue_leBytes (n v : Nat) : leValue (leBytes n v) = v%256^n := by
  induction n generalizing v with
  | zero => rw [Nat.pow_zero,Nat.mod_one]; rfl
  | succ n ih =>
    have hlow : (UInt8.ofNat v).toNat = v%256 := UInt8.toNat_ofNat'
    rw [leBytes,leValue,ih,hlow,Nat.pow_succ',Nat.mod_mul]

theorem leValue_lt (bytes : List UInt8) : leValue bytes < 256^bytes.length := by
  induction bytes with
  | nil => exact Nat.one_pos
  | cons b bytes ih =>
    have hb := b.toNat_lt
    rw [leValue,List.length_cons,Nat.pow_succ']
    omega

end MprMq.Lib
