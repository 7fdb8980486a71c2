import MprMq.Lib.Access
import Mathlib.Data.List.Nodup
import Mathlib.Data.List.TakeWhile
set_option autoImplicit false

/-! A linked list by the addresses of its nodes, and iterators that may have outlived theirs. -/

namespace MprMq.Lib
variable {α : Type}

structure Node (α : Type) where
  address : Nat
  value : α

structure NodeList (α : Type) where
  nodes : List (Node α)
  distinct : (nodes.map Node.address).Nodup

/-- The address of a node, or the end of a list. -/
abbrev Iterator := Option Nat

namespace NodeList

def values (l : NodeList α) : List α := l.nodes.map Node.value

def first (nodes : List (Node α)) : Iterator := nodes.head?.map Node.address

def onward (l : NodeList α) (address : Nat) : List (Node α) :=
  l.nodes.dropWhile fun n => n.address ≠ address

def get (l : NodeList α) (address : Nat) : Access α :=
  match l.onward address with
  | [] => .error .outside
  | n :: _ => .ok n.value

def next (l : NodeList α) (address : Nat) : Access Iterator :=
  match l.onward address with
  | [] => .error .outside
  | _ :: rest => .ok (first rest)

def erase (l : NodeList α) (address : Nat) : Access (NodeList α) :=
  match l.onward address with
  | [] => .error .outside
  | _ => .ok ⟨l.nodes.filter fun n => n.address ≠ address,
      l.distinct.sublist ((List.filter_sublist).map Node.address)⟩

section positions
variable {l : NodeList α} {pre post : List (Node α)} {n : Node α}

theorem address_ne (h : l.nodes = pre ++ n :: post) :
    (∀ m ∈ pre, m.address ≠ n.address) ∧ ∀ m ∈ post, m.address ≠ n.address := by
  have hdistinct := l.distinct
  rw [h,List.map_append,List.map_cons,List.nodup_middle,List.nodup_cons] at hdistinct
  have hout := hdistinct.1
  constructor
  · intro m hm heq
    exact hout (heq ▸ List.mem_append_left _ (List.mem_map_of_mem hm))
  · intro m hm heq
    exact hout (heq ▸ List.mem_append_right _ (List.mem_map_of_mem hm))

theorem onward_eq (h : l.nodes = pre ++ n :: post) : l.onward n.address = n :: post := by
  have hpre : pre.dropWhile (fun m => decide (m.address ≠ n.address)) = [] :=
    List.dropWhile_eq_nil_iff.mpr fun m hm => decide_eq_true ((address_ne h).1 m hm)
  rw [onward,h,List.dropWhile_append,hpre]
  simp

theorem get_eq (h : l.nodes = pre ++ n :: post) : l.get n.address = .ok n.value := by
  rw [get,onward_eq h]

theorem next_eq (h : l.nodes = pre ++ n :: post) : l.next n.address = .ok (first post) := by
  rw [next,onward_eq h]

/-- Erasing a node leaves the others, and iterators to it go nowhere. -/
theorem erase_eq (h : l.nodes = pre ++ n :: post) : ∃ l', l.erase n.address = .ok l' ∧
    l'.nodes = pre ++ post ∧ l'.next n.address = .error .outside := by
  have hfilter : l.nodes.filter (fun m => m.address ≠ n.address) = pre ++ post := by
    rw [h,List.filter_append,List.filter_cons_of_neg (by simp),
      List.filter_eq_self.mpr fun m hm => decide_eq_true ((address_ne h).1 m hm),
      List.filter_eq_self.mpr fun m hm => decide_eq_true ((address_ne h).2 m hm)]
  have honward (l' : NodeList α) (hl' : l'.nodes = pre ++ post) : l'.onward n.address = [] := by
    rw [onward,hl',List.dropWhile_eq_nil_iff]
    intro m hm
    refine decide_eq_true ?_
    exact (List.mem_append.mp hm).elim ((address_ne h).1 m) ((address_ne h).2 m)
  refine ⟨_,by rw [erase,onward_eq h],hfilter,?_⟩
  rw [next,honward _ hfilter]

end positions

end NodeList

end MprMq.Lib
