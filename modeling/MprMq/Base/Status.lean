import Mathlib.Tactic.Common
set_option autoImplicit false

/-! `base::Status` and its codes. -/

namespace MprMq.Base

abbrev Text := List Char

inductive Code where
  | cancelled | unknown | invalidArgument | deadlineExceeded | notFound | alreadyExists
  | permissionDenied | unauthenticated | resourceExhausted | failedPrecondition | aborted
  | outOfRange | unimplemented | internal | unavailable | dataLoss
  deriving DecidableEq, Repr

inductive Status where
  | ok : Status
  | error : Code → Text → Status
  deriving DecidableEq, Repr

end MprMq.Base
