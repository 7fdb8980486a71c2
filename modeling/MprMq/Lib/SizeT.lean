import Mathlib.Algebra.Group.Nat.Defs
import Mathlib.Algebra.Ring.Int.Defs
import Mathlib.Tactic.Common
set_option autoImplicit false

/-! The 64-bit unsigned counters of the source. Counters that only ever count
the nodes of a container are natural numbers, which no container can overflow;
decrement and conversion wrap as the machine does. -/

namespace MprMq.Lib.SizeT

def modulus : Nat := 2^64

def dec (n : Nat) : Nat := if n = 0 then modulus-1 else n-1

@[simp] theorem dec_succ (n : Nat) : dec (n+1) = n := by simp [dec]

theorem dec_add_one {n : Nat} (h : 0 < n) : dec n + 1 = n := by
  have hn : n ≠ 0 := by omega
  simp only [dec,hn,if_false]
  omega

def sub (n m : Nat) : Nat := if n < m then n+modulus-m else n-m

def add (n m : Nat) : Nat := (n+m) % modulus

theorem add_eq {n m : Nat} (h : n+m < modulus) : add n m = n+m := Nat.mod_eq_of_lt h

theorem sub_add {n m : Nat} (k : Nat) (h : m ≤ n) : sub (k+n) m = k+(n-m) := by
  unfold sub
  rw [if_neg (by omega)]
  omega

def ofInt (n : Int) : Nat := (n % (modulus : Int)).toNat

theorem ofInt_eq {n : Int} (hlow : 0 ≤ n) (hhigh : n < 2^63) : (ofInt n : Int) = n := by
  have hmodulus : (modulus : Int) = 2^64 := rfl
  rw [ofInt,hmodulus,Int.emod_eq_of_lt hlow (by omega)]
  omega

end MprMq.Lib.SizeT
