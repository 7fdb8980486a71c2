import Mathlib.Logic.Function.Basic
import MprMq.Lib.Buffer
set_option autoImplicit false

/-! Blocks of memory with one owner each, `realloc`, and what it leaves alone. -/

namespace MprMq.Lib

/-- The blocks by their addresses, all of which are below a bound. -/
structure Heap (α : Type) where
  blocks : Nat → Option (List α)
  bound : Nat
  unused : ∀ a, bound ≤ a → blocks a = none

namespace Heap
variable {α : Type}

def empty : Heap α := ⟨fun _ => none,0,fun _ _ => rfl⟩

def write (h : Heap α) (a : Nat) (block : List α) : Heap α where
  blocks := Function.update h.blocks a (some block)
  bound := max h.bound (a+1)
  unused := fun b hb => by
    rw [Function.update_of_ne (by omega)]
    exact h.unused b (by omega)

def free (h : Heap α) : Option Nat → Heap α
  | none => h
  | some a =>
    { h with
      blocks := Function.update h.blocks a none
      unused := fun b hb => by
        by_cases heq : b = a
        · rw [heq,Function.update_self]
        · rw [Function.update_of_ne heq]
          exact h.unused b hb }

/-- What a pointer points to; `none` is a pointer to no block. -/
def contents (h : Heap α) : Option Nat → Option (List α)
  | none => some []
  | some a => h.blocks a

/-- Where a `realloc` puts a block: where it was, or where none is. -/
structure Allocator (α : Type) where
  place : Heap α → Option Nat → Nat → Nat
  apart : ∀ h old size a, h.blocks a ≠ none → old ≠ some a → place h old size ≠ a

def realloc (alloc : Allocator α) (fill : α) (h : Heap α) (old : Option Nat) (size : Nat) :
    Option (Heap α × Nat) :=
  (h.contents old).map fun block =>
    ((h.free old).write (alloc.place h old size) (Buffer.resize fill block size),
      alloc.place h old size)

/-- Blocks stay where they are, and new ones come behind all others. -/
def Allocator.inPlace : Allocator α where
  place := fun h old _ => old.getD h.bound
  apart := fun h old _ a ha hne => by
    cases old with
    | some b => exact fun heq => hne (congrArg some heq)
    | none => exact fun heq => ha (h.unused a (Nat.le_of_eq heq))

/-- What was owned is now owned elsewhere, and the blocks of others are as they were. -/
structure Frame (h h' : Heap α) (mine mine' : Option Nat) : Prop where
  kept : ∀ a, h.blocks a ≠ none → mine ≠ some a → h'.blocks a = h.blocks a
  apart : ∀ a, h.blocks a ≠ none → mine ≠ some a → mine' ≠ some a

theorem write_self (h : Heap α) (a : Nat) (block : List α) :
    (h.write a block).blocks a = some block := Function.update_self _ _ _

theorem write_other {h : Heap α} {a b : Nat} {block : List α} (hne : b ≠ a) :
    (h.write a block).blocks b = h.blocks b := Function.update_of_ne hne _ _

theorem free_other {h : Heap α} {old : Option Nat} {b : Nat} (hne : old ≠ some b) :
    (h.free old).blocks b = h.blocks b := by
  cases old with
  | none => rfl
  | some a => exact Function.update_of_ne (fun heq => hne (congrArg some heq.symm)) _ _

namespace Frame
variable {h h' h'' : Heap α} {mine mine' mine'' : Option Nat}

theorem refl (h : Heap α) (mine : Option Nat) : Frame h h mine mine :=
  ⟨fun _ _ _ => rfl,fun _ _ hne => hne⟩

theorem trans (hf : Frame h h' mine mine') (hg : Frame h' h'' mine' mine'') :
    Frame h h'' mine mine'' := by
  have hkept : ∀ a, h.blocks a ≠ none → mine ≠ some a → h'.blocks a ≠ none :=
    fun a ha hne => by rwa [hf.kept a ha hne]
  refine ⟨fun a ha hne => ?_,fun a ha hne => ?_⟩
  · rw [hg.kept a (hkept a ha hne) (hf.apart a ha hne),hf.kept a ha hne]
  · exact hg.apart a (hkept a ha hne) (hf.apart a ha hne)

theorem write (h : Heap α) (a : Nat) (block : List α) :
    Frame h (h.write a block) (some a) (some a) :=
  ⟨fun _ _ hne => write_other fun heq => hne (congrArg some heq.symm),fun _ _ hne => hne⟩

theorem free (h : Heap α) (mine : Option Nat) : Frame h (h.free mine) mine none :=
  ⟨fun _ _ hne => free_other hne,fun _ _ _ heq => nomatch heq⟩

theorem realloc {alloc : Allocator α} {fill : α} {size a : Nat}
    (hr : Heap.realloc alloc fill h mine size = some (h',a)) : Frame h h' mine (some a) := by
  obtain ⟨block,-,heq⟩ := Option.map_eq_some_iff.mp hr
  cases heq
  have hapart := fun b hb hne => alloc.apart h mine size b hb hne
  refine ⟨fun b hb hne => ?_,fun b hb hne heq => hapart b hb hne (Option.some.inj heq)⟩
  rw [write_other (hapart b hb hne).symm,free_other hne]

end Frame

/-- The block moves with its beginning. -/
theorem realloc_eq {alloc : Allocator α} {fill : α} {h : Heap α} {old : Option Nat} {size : Nat}
    {block : List α} (hblock : h.contents old = some block) :
    ∃ h' a, realloc alloc fill h old size = some (h',a) ∧
      h'.blocks a = some (Buffer.resize fill block size) :=
  ⟨_,_,by rw [realloc,hblock]; rfl,write_self _ _ _⟩

end Heap

end MprMq.Lib
