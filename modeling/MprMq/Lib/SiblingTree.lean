import MprMq.Lib.Loop
set_option autoImplicit false

/-! Trees by the first child of a node and the node next to it, as lists of nodes with pointers
have them, and the walk over such a tree with a stack. -/

namespace MprMq.Lib

/-- A pointer to a node, with what lies below it and beside it. -/
inductive SiblingTree (α : Type) where
  | null
  | node (data : α) (child next : SiblingTree α)
  deriving DecidableEq, Repr

namespace SiblingTree
variable {α σ : Type}

def isNull : SiblingTree α → Bool
  | null => true
  | node _ _ _ => false

def next : SiblingTree α → SiblingTree α
  | null => null
  | node _ _ next => next

def each (f : α → SiblingTree α → σ → σ) : SiblingTree α → σ → σ
  | null,s => s
  | node data child next,s => next.each f (f data child s)

def ofList : List (α × SiblingTree α) → SiblingTree α
  | [] => null
  | (data,child) :: rest => node data child (ofList rest)

theorem each_ofList (f : α → SiblingTree α → σ → σ) (items : List (α × SiblingTree α)) (s : σ) :
    (ofList items).each f s = items.foldl (fun s item => f item.1 item.2 s) s := by
  induction items generalizing s with
  | nil => rfl
  | cons item items ih => exact ih (f item.1 item.2 s)

theorem each_keeps {I : σ → Prop} {f : α → SiblingTree α → σ → σ}
    (h : ∀ data child s, I s → I (f data child s)) (item : SiblingTree α) {s : σ} (hs : I s) :
    I (item.each f s) := by
  induction item generalizing s with
  | null => exact hs
  | node data child next _ ih => exact ih (h data child s hs)

/-- All the nodes; those below a node stand in front of it. -/
def bottomUp : SiblingTree α → List (SiblingTree α)
  | null => []
  | node data child next => child.bottomUp ++ node data child next :: next.bottomUp

/-- Down to the first child that has none, with the nodes on the way put on the stack. -/
def descend : SiblingTree α → List (SiblingTree α) → List (SiblingTree α)
  | null,stack => stack
  | node data child next,stack => child.descend (node data child next :: stack)

/-- One turn of the walk; it ends at a node that is looked for. -/
def walkTurn (found : SiblingTree α → Bool) :
    SiblingTree α × List (SiblingTree α) →
      Turn (SiblingTree α × List (SiblingTree α)) (Option (SiblingTree α))
  | (item,stack) =>
    if item.isNull && stack.isEmpty then .done none
    else
      match item.descend stack with
      | [] => .next (null,[])
      | top :: rest => if found top then .done (some top) else .next (top.next,rest)

def walk (found : SiblingTree α → Bool) (fuel : Nat) (item : SiblingTree α) :
    Option (Option (SiblingTree α)) :=
  runLoop (fun s => some (walkTurn found s)) fuel (item,[])

/-- What the walk has still to come to. -/
def pending (s : SiblingTree α × List (SiblingTree α)) : List (SiblingTree α) :=
  s.1.bottomUp ++ s.2.flatMap fun item => item :: item.next.bottomUp

theorem pending_descend (item : SiblingTree α) (stack : List (SiblingTree α)) :
    pending (null,item.descend stack) = pending (item,stack) := by
  induction item generalizing stack with
  | null => rfl
  | node data child next ihchild _ =>
    rw [descend,ihchild]
    simp [pending,bottomUp,SiblingTree.next]

theorem descend_ne_nil (item : SiblingTree α) {stack : List (SiblingTree α)}
    (h : (item.isNull && stack.isEmpty) = false) : item.descend stack ≠ [] := by
  induction item generalizing stack with
  | null => simpa [isNull,descend] using h
  | node data child next ihchild _ => exact ihchild (by simp)

/-- The walk finds the first node from the bottom up that is looked for, and ends. -/
theorem walk_eq (found : SiblingTree α → Bool) (item : SiblingTree α) {fuel : Nat}
    (h : item.bottomUp.length < fuel) :
    walk found fuel item = some (item.bottomUp.find? found) := by
  have hturn : ∀ s : SiblingTree α × List (SiblingTree α),
      (pending s).find? found = item.bottomUp.find? found →
      ∃ o, some (walkTurn found s) = some o ∧ o.Meets
        (fun t => (pending t).find? found = item.bottomUp.find? found ∧
          (pending t).length < (pending s).length)
        (fun r => r = item.bottomUp.find? found) := by
    rintro ⟨node,stack⟩ hs
    refine ⟨_,rfl,?_⟩
    have hdescend := pending_descend node stack
    rw [walkTurn]
    split
    case isTrue hend =>
      rw [Bool.and_eq_true,List.isEmpty_iff] at hend
      cases node with
      | null => simpa [Turn.Meets,pending,bottomUp,hend.2] using hs
      | node data child next => cases hend.1
    case isFalse hend =>
      rcases hstack : node.descend stack with _ | ⟨top,rest⟩
      · exact absurd hstack (descend_ne_nil node (by simpa using hend))
      · rw [hstack] at hdescend
        have hpending : pending (node,stack) = top :: pending (top.next,rest) := by
          rw [← hdescend]
          simp [pending,bottomUp]
        rw [hpending] at hs ⊢
        dsimp only
        split
        case isTrue hfound => simpa [Turn.Meets,List.find?_cons,hfound] using hs
        case isFalse hnot =>
          rw [List.find?_cons_of_neg (by simpa using hnot)] at hs
          exact ⟨hs,by simp⟩
  obtain ⟨r,rfl,hr⟩ := runLoop_simple (fun s => some (walkTurn found s))
    (I := fun s => (pending s).find? found = item.bottomUp.find? found)
    (fun s => (pending s).length) hturn (s := (item,[])) (by simp [pending])
  exact hr fuel (by simpa [pending] using h)

end SiblingTree

end MprMq.Lib
