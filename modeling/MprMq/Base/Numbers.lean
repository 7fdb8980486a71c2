import Mathlib.Algebra.Group.Int.Defs
import MprMq.Base.StringUtil
set_option autoImplicit false

/-! The limits of `int64_t`, and what the text conversions make of one character. -/

namespace MprMq.Base

def int64Max : Int := 2^63-1

def int64Min : Int := -2^63

def asciiIsSpace (c : Char) : Bool := c = ' ' || (9 ≤ c.toNat && c.toNat ≤ 13)

def asciiToInt (c : Char) : Nat :=
  if '0' ≤ c ∧ c ≤ '9' then c.toNat - '0'.toNat
  else if 'A' ≤ c ∧ c ≤ 'Z' then c.toNat - 'A'.toNat+10
  else if 'a' ≤ c ∧ c ≤ 'z' then c.toNat - 'a'.toNat+10
  else 36

end MprMq.Base
