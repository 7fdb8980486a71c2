import MprMq.Service.AllOrNothing
import MprMq.Service.EpubInfo
set_option autoImplicit false

/-! When the two handlers come back to the consumer: no check fails and no exception
gets out of `Handle`, which nothing in the loop of the consumer would catch. -/

namespace MprMq.Service
open MprMq.Base

def Exit.IsReturned (exit : Exit) : Prop := ∃ status, exit = .returned status

@[simp] theorem not_isReturned_threw : ¬ Exit.threw.IsReturned := by
  rintro ⟨_,h⟩
  cases h

end MprMq.Service
